import BindingCompiler.Proofs.Visits

/-!
Scans that nothing stops. Such a scan ends at the end of the text, and the places of its visits grow
from one to the next, whatever places further on its visitor asks for. If it asks for none, the scan
comes to the same places as one that nothing interrupts.
-/

namespace BindingCompiler

/-- A boundary behind the place of a character is not in front of the next character. -/
theorem Text.exists_of_isBoundary_behind {front back : Text} {c : Char} {place : Nat}
    (h : IsBoundary (front ++ c :: back) place) (hlt : front.byteLength < place) :
    ∃ mid rest, back = mid ++ rest ∧ place = Text.byteLength (front ++ c :: mid) := by
  obtain ⟨left, right, hsplit, rfl⟩ := h
  cases List.append_eq_append_iff.mp hsplit with
  | inl h =>
      obtain ⟨more, rfl, hmore⟩ := h
      cases more with
      | nil => simp at hlt
      | cons d mid =>
          cases hmore
          exact ⟨mid, right, rfl, rfl⟩
  | inr h =>
      obtain ⟨more, rfl, -⟩ := h
      rw [byteLength_append] at hlt
      omega

namespace Scanner

variable {σ ε : Type} {visit : Visitor σ ε}

/-- At every visit the scan is let go on, behind the character or at a boundary further on. -/
def GoesOn (visit : Visitor σ ε) (s : Scanner) (memory : σ) : Prop :=
  ∀ shown m, s.Shows visit memory shown m → (visit shown m).verdict = .next ∧
    ∀ place, (visit shown m).resume = some place →
      shown.source.IsBoundary place ∧ shown.position < place

/-- At no visit is the scan asked to go on elsewhere. -/
def AsksNothing (visit : Visitor σ ε) (s : Scanner) (memory : σ) : Prop :=
  ∀ shown m, s.Shows visit memory shown m → (visit shown m).resume = none

section Behind

variable {s t : Scanner} {memory m : σ}

theorem GoesOn.behind (h : s.GoesOn visit memory) (first : ComesTo visit s memory t m) :
    t.GoesOn visit m :=
  fun shown m' hshown => h shown m' (hshown.behind first)

theorem AsksNothing.behind (h : s.AsksNothing visit memory) (first : ComesTo visit s memory t m) :
    t.AsksNothing visit m :=
  fun shown m' hshown => h shown m' (hshown.behind first)

end Behind

section Between

variable {front t : Text} {n next within : Nesting} {c : Char} {memory : σ}

theorem comesTo_skip_between (h : n.Reads c t.head? (.skip 1 next)) :
    ComesTo visit (between front (c :: t) n) memory (between (front ++ [c]) t next) memory :=
  ⟨1, scanFor_skip h⟩

theorem comesTo_opening {d : Nat} {ops : List Nat} :
    ComesTo visit (between front ('$' :: '{' :: t) ⟨.template false, d, ops⟩) memory
      (between (front ++ ['$', '{']) t ⟨.code, d + 1, d :: ops⟩) memory :=
  ⟨1, scanFor_opening⟩

theorem shows_between (h : n.Reads c t.head? (.visit within)) :
    Shows visit (between front (c :: t) n) memory (between front (c :: t) within) memory :=
  shows_here rfl h.read_eq

theorem not_shows_nil {shown : Scanner} {m : σ} :
    ¬ Shows visit (between front [] n) memory shown m := by
  intro h
  obtain ⟨u, _, ⟨rounds, hrounds⟩, more, -⟩ := h
  cases rounds with
  | zero =>
      cases hrounds
      cases more
  | succ rounds => cases hrounds

/-- A round in which nothing is visited shows nothing. -/
private theorem shows_iff_of_step {s t shown : Scanner} {m : σ} {width : Nat} {after : Nesting}
    (step : ∀ rounds, s.scanFor visit (rounds + 1) memory = t.scanFor visit rounds memory)
    (hread : s.nesting.read s.here? s.next? = .skip width after) :
    Shows visit s memory shown m ↔ Shows visit t memory shown m := by
  constructor
  · intro hshows
    obtain ⟨u, within, ⟨rounds, hrounds⟩, more, hvisit, rfl⟩ := hshows
    cases rounds with
    | zero =>
        cases hrounds
        cases hread.symm.trans hvisit
    | succ rounds =>
        rw [step] at hrounds
        exact ⟨u, within, ⟨rounds, hrounds⟩, more, hvisit, rfl⟩
  · exact fun hshows => hshows.behind ⟨1, step 0⟩

theorem shows_skip_iff {shown : Scanner} {m : σ} (h : n.Reads c t.head? (.skip 1 next)) :
    Shows visit (between front (c :: t) n) memory shown m ↔
      Shows visit (between (front ++ [c]) t next) memory shown m :=
  shows_iff_of_step (fun _ => scanFor_skip h) h.read_eq

theorem shows_opening_iff {d : Nat} {ops : List Nat} {shown : Scanner} {m : σ} :
    Shows visit (between front ('$' :: '{' :: t) ⟨.template false, d, ops⟩) memory shown m ↔
      Shows visit (between (front ++ ['$', '{']) t ⟨.code, d + 1, d :: ops⟩) memory shown m :=
  shows_iff_of_step (fun _ => scanFor_opening) rfl

/-- What a visitor is shown is the first content character, or it is shown behind that one. -/
theorem shows_visit_iff {shown : Scanner} {m m' : σ} (h : n.Reads c t.head? (.visit within))
    (hv : visit (between front (c :: t) within) memory = .next m) :
    Shows visit (between front (c :: t) n) memory shown m' ↔
      shown = between front (c :: t) within ∧ m' = memory ∨
        Shows visit (between (front ++ [c]) t within.settled) m shown m' := by
  constructor
  · intro hshows
    obtain ⟨u, inner, ⟨rounds, hrounds⟩, more, hread, rfl⟩ := hshows
    cases rounds with
    | zero =>
        cases hrounds
        cases hread.symm.trans h.read_eq
        exact .inl ⟨rfl, rfl⟩
    | succ rounds =>
        rw [scanFor_next h hv] at hrounds
        exact .inr ⟨u, inner, ⟨rounds, hrounds⟩, more, hread, rfl⟩
  · intro hshows
    cases hshows with
    | inl hshows =>
        obtain ⟨rfl, rfl⟩ := hshows
        exact shows_between h
    | inr hshows => exact hshows.behind ⟨1, scanFor_next h hv⟩

/-- Behind a character at which the visitor does not let the scan go on, it is shown nothing. -/
theorem eq_of_shows {shown : Scanner} {m : σ} (h : n.Reads c t.head? (.visit within))
    (hv : (visit (between front (c :: t) within) memory).verdict ≠ .next)
    (hshows : Shows visit (between front (c :: t) n) memory shown m) :
    shown = between front (c :: t) within ∧ m = memory := by
  obtain ⟨u, inner, ⟨rounds, hrounds⟩, more, hread, rfl⟩ := hshows
  cases rounds with
  | zero =>
      cases hrounds
      cases hread.symm.trans h.read_eq
      exact ⟨rfl, rfl⟩
  | succ rounds =>
      rw [scanFor_visit h] at hrounds
      dsimp only at hrounds
      split at hrounds
      · next hnext => exact absurd hnext hv
      · cases hrounds
      · cases hrounds

/-- A visit is followed by the rest of the text, or by the part behind the place asked for. -/
theorem GoesOn.exists_behind (goes : (between front (c :: t) n).GoesOn visit memory)
    (h : n.Reads c t.head? (.visit within)) :
    let shown := between front (c :: t) within
    (visit shown memory).verdict = .next ∧ ∃ mid rest, t = mid ++ rest ∧
      ((visit shown memory).resume.elim shown shown.resumeAt).proceed =
        between (front ++ c :: mid) rest within.settled ∧
      ((visit shown memory).resume = none → mid = []) := by
  obtain ⟨hverdict, hresume⟩ := goes _ _ (shows_between h)
  refine ⟨hverdict, ?_⟩
  cases hplace : (visit (between front (c :: t) within) memory).resume with
  | none => exact ⟨[], t, rfl, proceed_between, fun _ => rfl⟩
  | some place =>
      obtain ⟨hboundary, hlt⟩ := hresume place hplace
      obtain ⟨mid, rest, rfl, rfl⟩ := Text.exists_of_isBoundary_behind hboundary hlt
      exact ⟨mid, rest, rfl, proceed_resumeAt front mid rest c within, nofun⟩

end Between

/-- What a scan of the second of two texts notes from its first place on. -/
structure Notes (visit : Visitor σ ε) (front back : Text) (n : Nesting) (memory : σ)
    (seen : List Scanner) : Prop where
  increasing : (seen.map position).Pairwise (· < ·)
  places : ∀ s ∈ seen, front.byteLength ≤ s.position ∧ Text.IsBoundary (front ++ back) s.position
  visits : ∀ s ∈ seen, ∃ m, (between front back n).Shows visit memory s m
  complete : (between front back n).AsksNothing visit memory → seen = n.shown front back

section Noting

variable {front t : Text} {n next within : Nesting} {c : Char} {memory : σ} {seen : List Scanner}

/-- Marks that are not shown add nothing to what is noted. -/
theorem Notes.skip {mark : Text} (h : Notes visit (front ++ mark) t next memory seen)
    (first : ComesTo visit (between front (mark ++ t) n) memory (between (front ++ mark) t next)
      memory) (shown : n.shown front (mark ++ t) = next.shown (front ++ mark) t) :
    Notes visit front (mark ++ t) n memory seen := by
  refine ⟨h.increasing, ?_, ?_, ?_⟩
  · intro s hs
    obtain ⟨hle, hboundary⟩ := h.places s hs
    rw [Text.byteLength_append] at hle
    rw [List.append_assoc] at hboundary
    exact ⟨Nat.le_trans (Nat.le_add_right _ _) hle, hboundary⟩
  · intro s hs
    obtain ⟨m, hshows⟩ := h.visits s hs
    exact ⟨m, hshows.behind first⟩
  · intro asksNothing
    rw [shown]
    exact h.complete (asksNothing.behind first)

/-- A character that is shown is noted in front of what is shown at places behind it. -/
theorem Notes.cons {mid rest : Text} {m : σ}
    (h : Notes visit (front ++ c :: mid) rest within.settled m seen)
    (hr : n.Reads c (mid ++ rest).head? (.visit within))
    (first : ComesTo visit (between front (c :: (mid ++ rest)) n) memory
      (between (front ++ c :: mid) rest within.settled) m)
    (stays : (visit (between front (c :: (mid ++ rest)) within) memory).resume = none → mid = []) :
    Notes visit front (c :: (mid ++ rest)) n memory
      (between front (c :: (mid ++ rest)) within :: seen) := by
  have hsize := c.utf8Size_pos
  have hbehind : ∀ s ∈ seen, front.byteLength < s.position := by
    intro s hs
    obtain ⟨hle, -⟩ := h.places s hs
    rw [Text.byteLength_append, Text.byteLength] at hle
    omega
  refine ⟨?_, ?_, ?_, ?_⟩
  · rw [List.map_cons, List.pairwise_cons]
    refine ⟨?_, h.increasing⟩
    intro place hplace
    obtain ⟨s, hs, rfl⟩ := List.mem_map.mp hplace
    exact hbehind s hs
  · intro s hs
    cases hs with
    | head => exact ⟨Nat.le_refl _, front, _, rfl, rfl⟩
    | tail _ hs =>
        refine ⟨Nat.le_of_lt (hbehind s hs), ?_⟩
        have hboundary := (h.places s hs).2
        rwa [List.append_assoc] at hboundary
  · intro s hs
    cases hs with
    | head => exact ⟨memory, shows_between hr⟩
    | tail _ hs =>
        obtain ⟨m, hshows⟩ := h.visits s hs
        exact ⟨m, hshows.behind first⟩
  · intro asksNothing
    have hseen := h.complete (asksNothing.behind first)
    cases stays (asksNothing _ _ (shows_between hr))
    rw [hseen]
    exact (Nesting.shown_visit hr).symm

theorem scanFor_noting {rounds : Nat} (hr : n.Reads c t.head? (.visit within))
    (hverdict : (visit (between front (c :: t) within) memory).verdict = .next) :
    let shown := between front (c :: t) within
    (between front (c :: t) n).scanFor visit.noting (rounds + 1) (memory, seen) =
      ((visit shown memory).resume.elim shown shown.resumeAt).proceed.scanFor visit.noting rounds
        ((visit shown memory).memory, seen ++ [shown]) := by
  have hnoting : (visit.noting (between front (c :: t) within) (memory, seen)).verdict = .next :=
    hverdict
  rw [scanFor_visit hr]
  dsimp only
  rw [hnoting]
  rfl

end Noting

/-- A scan that goes on at every visit comes to the end of the text. -/
theorem exists_notes (rounds : Nat) (front back : Text) (n : Nesting) (memory : σ)
    (seen : List Scanner) (goes : (between front back n).GoesOn visit memory)
    (h : back.length < rounds) :
    ∃ last m more, Notes visit front back n memory more ∧
      (between front back n).scanFor visit.noting rounds (memory, seen) =
        .atEnd (between (front ++ back) [] last) (m, seen ++ more) := by
  induction rounds generalizing front back n memory seen with
  | zero => cases h
  | succ rounds ih =>
      cases n, back using Nesting.passage_induction with
      | nil n =>
          refine ⟨n, memory, [], ⟨.nil, nofun, nofun, fun _ => rfl⟩, ?_⟩
          rw [scanFor_end, List.append_nil, List.append_nil]
      | visit n c t within hr _ =>
          obtain ⟨hverdict, mid, rest, rfl, hproceed, stays⟩ := goes.exists_behind hr
          have first := @comesTo_next _ _ _ (between front (c :: (mid ++ rest)) n) memory within rfl
            hr.read_eq hverdict
          have hlen : rest.length < rounds := by
            rw [List.length_cons, List.length_append] at h
            omega
          have hfirst : ComesTo visit (between front (c :: (mid ++ rest)) n) memory
              (between (front ++ c :: mid) rest within.settled)
              (visit (between front (c :: (mid ++ rest)) within) memory).memory :=
            hproceed ▸ first
          obtain ⟨last, m, more, notes, hscan⟩ := ih (front ++ c :: mid) rest within.settled _
            (seen ++ [between front (c :: (mid ++ rest)) within]) (goes.behind hfirst) hlen
          refine ⟨last, m, _, notes.cons hr hfirst stays, ?_⟩
          rw [scanFor_noting hr hverdict, hproceed, hscan]
          simp only [List.append_assoc, List.cons_append, List.nil_append]
      | skip n c t next hr _ =>
          have first : ComesTo visit (between front (c :: t) n) memory
              (between (front ++ [c]) t next) memory := comesTo_skip_between hr
          obtain ⟨last, m, more, notes, hscan⟩ := ih (front ++ [c]) t next memory seen
            (goes.behind first) (Nat.lt_of_succ_lt_succ h)
          refine ⟨last, m, more, notes.skip first (Nesting.shown_skip hr), ?_⟩
          rw [List.append_assoc] at hscan
          exact (scanFor_skip hr).trans hscan
      | opening d ops t _ =>
          have first : ComesTo visit (between front ('$' :: '{' :: t) ⟨.template false, d, ops⟩)
              memory (between (front ++ ['$', '{']) t ⟨.code, d + 1, d :: ops⟩) memory :=
            comesTo_opening
          obtain ⟨last, m, more, notes, hscan⟩ := ih (front ++ ['$', '{']) t
            ⟨.code, d + 1, d :: ops⟩ memory seen (goes.behind first)
            (Nat.lt_of_succ_lt_succ (Nat.lt_of_succ_lt h))
          refine ⟨last, m, more, notes.skip first Nesting.shown_opening, ?_⟩
          rw [List.append_assoc] at hscan
          exact scanFor_opening.trans hscan

section Rounds

variable {s t : Scanner} {memory : σ}

/-- A round of a scan that is asked for nothing is a round of a scan that nothing interrupts. -/
theorem exists_round (goes : s.GoesOn visit memory) (asksNothing : s.AsksNothing visit memory)
    (more : s.atEnd = false) :
    ∃ m, ∀ rounds, s.scanFor visit (rounds + 1) memory = s.round.scanFor visit rounds m := by
  cases hread : s.nesting.read s.here? s.next? with
  | skip width after =>
      refine ⟨memory, fun rounds => ?_⟩
      simp only [scanFor_of_skip more hread, round, hread]
  | visit within =>
      have hshows : Shows visit s memory { s with nesting := within } memory :=
        shows_here more hread
      have hverdict := (goes _ _ hshows).1
      have hresume := asksNothing _ _ hshows
      refine ⟨(visit { s with nesting := within } memory).memory, fun rounds => ?_⟩
      simp only [scanFor_of_visit more hread, round, hread, hverdict, hresume, Option.elim_none]

/-- A scan that is asked for nothing comes to the places that it reaches on its own. -/
theorem exists_comesTo_iff (goes : s.GoesOn visit memory)
    (asksNothing : s.AsksNothing visit memory) :
    (∃ m, ComesTo visit s memory t m) ↔ s.Reaches t := by
  constructor
  · rintro ⟨m, rounds, h⟩
    induction rounds generalizing s memory with
    | zero =>
        cases h
        exact .refl
    | succ rounds ih =>
        cases more : s.atEnd with
        | true =>
            rw [scanFor, if_pos more] at h
            cases h
        | false =>
            obtain ⟨m', hround⟩ := exists_round goes asksNothing more
            have first : ComesTo visit s memory s.round m' := ⟨1, hround 0⟩
            rw [hround] at h
            exact .round more (ih (goes.behind first) (asksNothing.behind first) h)
  · intro h
    induction h generalizing memory with
    | refl => exact ⟨memory, .refl _ memory⟩
    | round more _ ih =>
        obtain ⟨m', hround⟩ := exists_round goes asksNothing more
        have first : ComesTo visit _ memory _ m' := ⟨1, hround 0⟩
        obtain ⟨m, hrest⟩ := ih (goes.behind first) (asksNothing.behind first)
        exact ⟨m, first.trans hrest⟩

end Rounds

end Scanner

end BindingCompiler
