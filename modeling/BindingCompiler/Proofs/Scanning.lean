import BindingCompiler.Proofs.Cuts
import BindingCompiler.Proofs.Passage
import BindingCompiler.Scanner.Visit

/-!
Scans as walks over a text. A scanner that stands between two parts of a text shows a visitor the
content characters of the second part, one after the other, whatever the number of rounds it was
allowed, as long as the visitor asks for no jump.
-/

namespace BindingCompiler

namespace Scanner

theorem inCode_eq_true_iff (s : Scanner) : s.inCode = true ↔ s.nesting.region = .code := by
  rw [inCode, Bool.not_eq_true', Nesting.isString_eq_false_iff]

/-- The scanner that stands between two parts of a text. -/
def between (front back : Text) (n : Nesting) : Scanner where
  source := front ++ back
  position := front.byteLength
  nesting := n
  pending := none
  ahead := ⟨0, back⟩
  ahead_eq := (Text.onward_append front back).symm

section Between

variable {front back t : Text} {n m : Nesting} {c d : Char}

@[simp]
theorem source_between : (between front back n).source = front ++ back := rfl

@[simp]
theorem position_between : (between front back n).position = front.byteLength := rfl

@[simp]
theorem nesting_between : (between front back n).nesting = n := rfl

@[simp]
theorem here?_between : (between front back n).here? = back.head? := rfl

theorem atEnd_between : (between front back n).atEnd = back.isEmpty := rfl

theorem startAt_between (front back : Text) :
    startAt (front ++ back) front.byteLength = between front back .outermost := by
  have hp : min front.byteLength (Text.byteLength (front ++ back)) = front.byteLength := by
    rw [Text.byteLength_append]
    exact Nat.min_eq_left (Nat.le_add_right _ _)
  exact eq_of_place rfl hp rfl rfl

theorem start_between : start t = between [] t .outermost :=
  startAt_between [] t

theorem skip_between (mid : Text) {width : Nat} (h : Text.byteLength mid = width) :
    ({ between front (mid ++ back) n with nesting := m } : Scanner).skip width =
      between (front ++ mid) back m := by
  refine eq_of_place ?_ ?_ rfl rfl
  · exact (List.append_assoc ..).symm
  · rw [position_between, Text.byteLength_append, h]
    rfl

theorem moveTo_between (front mid back : Text) (n : Nesting) :
    (between front (mid ++ back) n).moveTo (Text.byteLength (front ++ mid)) =
      between (front ++ mid) back n :=
  eq_of_place (List.append_assoc front mid back).symm rfl rfl rfl

private theorem width_between : (between front (c :: back) n).width = c.utf8Size := by
  simp [between, width, here?, Remainder.head?]

theorem advance_between :
    (between front (c :: back) n).advance = between (front ++ [c]) back n := by
  rw [advance, atEnd_between, List.isEmpty_cons, if_neg Bool.false_ne_true, width_between]
  exact skip_between (n := n) [c] rfl

theorem proceed_between :
    (between front (c :: back) n).proceed = between (front ++ [c]) back n.settled :=
  skip_between [c] width_between.symm

/-- The scanner after one round of a scan that goes on. -/
def round (s : Scanner) : Scanner :=
  match s.nesting.read s.here? s.next? with
  | .skip width after => { s with nesting := after }.skip width
  | .visit within => { s with nesting := within }.proceed

theorem round_visit (h : n.Reads c t.head? (.visit m)) :
    (between front (c :: t) n).round = between (front ++ [c]) t m.settled := by
  have hr : n.read (between front (c :: t) n).here? (between front (c :: t) n).next? = .visit m :=
    h.read_eq
  simp only [round, nesting_between, hr]
  exact proceed_between

theorem round_skip (h : n.Reads c t.head? (.skip 1 m)) :
    (between front (c :: t) n).round = between (front ++ [c]) t m := by
  have hr : n.read (between front (c :: t) n).here? (between front (c :: t) n).next? = .skip 1 m :=
    h.read_eq
  simp only [round, nesting_between, hr]
  exact skip_between [c] h.utf8Size_eq_one

theorem round_opening {d : Nat} {ops : List Nat} :
    (between front ('$' :: '{' :: t) ⟨.template false, d, ops⟩).round =
      between (front ++ ['$', '{']) t ⟨.code, d + 1, d :: ops⟩ :=
  skip_between ['$', '{'] rfl

end Between

end Scanner

/-- The scanners shown for the content characters of a text that follows another. -/
def Nesting.shown (n : Nesting) (front : Text) : Text → List Scanner
  | [] => []
  | c :: t =>
      match n.read (some c) t.head?, t with
      | .visit within, t =>
          Scanner.between front (c :: t) within :: within.settled.shown (front ++ [c]) t
      | .skip 2 next, d :: t => next.shown (front ++ [c, d]) t
      | .skip _ next, t => next.shown (front ++ [c]) t

section Shown

variable {n m : Nesting} {c : Char} {front t : Text}

theorem Nesting.shown_visit (h : n.Reads c t.head? (.visit m)) :
    n.shown front (c :: t) =
      Scanner.between front (c :: t) m :: m.settled.shown (front ++ [c]) t :=
  Nesting.shown.eq_2 n front c t m h.read_eq

theorem Nesting.shown_skip (h : n.Reads c t.head? (.skip 1 m)) :
    n.shown front (c :: t) = m.shown (front ++ [c]) t := by
  rw [Nesting.shown.eq_def]
  simp only [h.read_eq]

theorem Nesting.shown_opening {d : Nat} {ops : List Nat} :
    Nesting.shown ⟨.template false, d, ops⟩ front ('$' :: '{' :: t) =
      Nesting.shown ⟨.code, d + 1, d :: ops⟩ (front ++ ['$', '{']) t := rfl

theorem Nesting.exists_of_mem_shown {s : Scanner} (h : s ∈ n.shown front t) :
    ∃ mid rest within, t = mid ++ rest ∧ s = Scanner.between (front ++ mid) rest within := by
  induction n, t using Nesting.passage_induction generalizing front with
  | nil n => cases h
  | visit n c t within hr ih =>
      rw [Nesting.shown_visit hr, List.mem_cons] at h
      cases h with
      | inl h => exact ⟨[], c :: t, within, rfl, by rw [h, List.append_nil]⟩
      | inr h =>
          obtain ⟨mid, rest, inner, rfl, rfl⟩ := ih h
          exact ⟨c :: mid, rest, inner, rfl, by rw [List.append_assoc]; rfl⟩
  | skip n c t next hr ih =>
      rw [Nesting.shown_skip hr] at h
      obtain ⟨mid, rest, inner, rfl, rfl⟩ := ih h
      exact ⟨c :: mid, rest, inner, rfl, by rw [List.append_assoc]; rfl⟩
  | opening d ops t ih =>
      rw [Nesting.shown_opening] at h
      obtain ⟨mid, rest, inner, rfl, rfl⟩ := ih h
      exact ⟨'$' :: '{' :: mid, rest, inner, rfl, by rw [List.append_assoc]; rfl⟩

end Shown

section Watching

variable {σ ε : Type}

/-- Show a visitor scanners in turn, up to the first on which it stops or fails. -/
def Visitor.watch (visit : Visitor σ ε) (finish : Scanner) : List Scanner → σ → Outcome σ ε
  | [], memory => .atEnd finish memory
  | s :: shown, memory =>
      match (visit s memory).verdict with
      | .next => visit.watch finish shown (visit s memory).memory
      | .stop => .stopped s (visit s memory).memory
      | .fail error => .failed s (visit s memory).memory error

section Watched

variable {visit : Visitor σ ε} {finish s : Scanner} {shown : List Scanner} {memory m : σ}

theorem Visitor.watch_next (h : visit s memory = .next m) :
    visit.watch finish (s :: shown) memory = visit.watch finish shown m := by
  simp only [watch, h, Reaction.next]

theorem Visitor.watch_stop (h : visit s memory = .stop m) :
    visit.watch finish (s :: shown) memory = .stopped s m := by
  simp only [watch, h, Reaction.stop]

theorem Visitor.watch_fail {error : ε} (h : visit s memory = .fail error m) :
    visit.watch finish (s :: shown) memory = .failed s m error := by
  simp only [watch, h, Reaction.fail]

end Watched

/-- A visitor that never asks for a jump. -/
def Visitor.Quiet (visit : Visitor σ ε) : Prop :=
  ∀ s memory, (visit s memory).resume = none

namespace Scanner

variable {visit : Visitor σ ε}

section Rounds

variable {front t : Text} {n within : Nesting} {c : Char} {memory : σ} {rounds : Nat}

theorem scanFor_skip (h : n.Reads c t.head? (.skip 1 within)) :
    (between front (c :: t) n).scanFor visit (rounds + 1) memory =
      (between (front ++ [c]) t within).scanFor visit rounds memory := by
  have hread : n.read (between front (c :: t) n).here? (between front (c :: t) n).next? =
      .skip 1 within := h.read_eq
  have hskip : ({ between front (c :: t) n with nesting := within } : Scanner).skip 1 =
      between (front ++ [c]) t within := skip_between [c] h.utf8Size_eq_one
  simp only [scanFor, atEnd_between, List.isEmpty_cons, Bool.false_eq_true, if_false,
    nesting_between, hread, hskip]

theorem scanFor_opening {d : Nat} {ops : List Nat} :
    (between front ('$' :: '{' :: t) ⟨.template false, d, ops⟩).scanFor visit (rounds + 1) memory =
      (between (front ++ ['$', '{']) t ⟨.code, d + 1, d :: ops⟩).scanFor visit rounds memory := by
  have hskip : ({ between front ('$' :: '{' :: t) ⟨.template false, d, ops⟩ with
      nesting := ⟨.code, d + 1, d :: ops⟩ } : Scanner).skip 2 =
      between (front ++ ['$', '{']) t ⟨.code, d + 1, d :: ops⟩ := skip_between ['$', '{'] rfl
  rw [← hskip]
  rfl

/-- What a round makes of a content character is up to the visitor. -/
theorem scanFor_visit (h : n.Reads c t.head? (.visit within)) :
    (between front (c :: t) n).scanFor visit (rounds + 1) memory =
      let shown := between front (c :: t) within
      let reaction := visit shown memory
      let asked := reaction.resume.elim shown shown.resumeAt
      match reaction.verdict with
      | .next => asked.proceed.scanFor visit rounds reaction.memory
      | .stop => .stopped { asked with pending := none } reaction.memory
      | .fail error => .failed asked reaction.memory error := by
  have hread : n.read (between front (c :: t) n).here? (between front (c :: t) n).next? =
      .visit within := h.read_eq
  simp only [scanFor, atEnd_between, List.isEmpty_cons, Bool.false_eq_true, if_false,
    nesting_between, hread]
  rfl

end Rounds

/-- A scan with rounds enough shows the visitor what there is to show. -/
theorem scanFor_between (quiet : visit.Quiet) (n : Nesting) (front back : Text) (rounds : Nat)
    (memory : σ) (h : back.length < rounds) :
    (between front back n).scanFor visit rounds memory =
      visit.watch (between (front ++ back) [] (n.after back)) (n.shown front back) memory := by
  induction n, back using Nesting.passage_induction generalizing front rounds memory with
  | nil n =>
      obtain ⟨rounds, rfl⟩ := Nat.exists_eq_succ_of_ne_zero (Nat.ne_of_gt h)
      rw [List.append_nil]
      rfl
  | visit n c t within hr ih =>
      obtain ⟨rounds, rfl⟩ := Nat.exists_eq_succ_of_ne_zero (Nat.ne_of_gt (Nat.zero_lt_of_lt h))
      rw [scanFor_visit hr, Nesting.shown_visit hr, Nesting.after_visit hr, Visitor.watch]
      simp only [quiet _ _, Option.elim_none]
      cases (visit (between front (c :: t) within) memory).verdict with
      | next =>
          have hlen : t.length < rounds := Nat.lt_of_succ_lt_succ h
          simp only [proceed_between, ih _ _ _ hlen, List.append_assoc, List.singleton_append]
      | stop => rfl
      | fail error => rfl
  | skip n c t next hr ih =>
      obtain ⟨rounds, rfl⟩ := Nat.exists_eq_succ_of_ne_zero (Nat.ne_of_gt (Nat.zero_lt_of_lt h))
      have hlen : t.length < rounds := Nat.lt_of_succ_lt_succ h
      rw [scanFor_skip hr, Nesting.shown_skip hr, Nesting.after_skip hr, ih _ _ _ hlen,
        List.append_assoc, List.singleton_append]
  | opening d ops t ih =>
      obtain ⟨rounds, rfl⟩ := Nat.exists_eq_succ_of_ne_zero (Nat.ne_of_gt (Nat.zero_lt_of_lt h))
      have hlen : t.length < rounds := Nat.lt_of_succ_lt_succ (Nat.lt_of_succ_lt h)
      rw [scanFor_opening, Nesting.shown_opening, Nesting.after_opening, ih _ _ _ hlen,
        List.append_assoc]
      rfl

theorem scan_between (quiet : visit.Quiet) (n : Nesting) (front back : Text) (memory : σ) :
    (between front back n).scan visit memory =
      visit.watch (between (front ++ back) [] (n.after back)) (n.shown front back) memory := by
  apply scanFor_between quiet
  rw [source_between, Text.byteLength_append]
  have := Text.length_le_byteLength back
  omega

theorem scan_start (quiet : visit.Quiet) (source : Text) (memory : σ) :
    (start source).scan visit memory =
      visit.watch (between source [] (Nesting.outermost.after source))
        (Nesting.outermost.shown [] source) memory := by
  rw [start_between]
  exact scan_between quiet .outermost [] source memory

end Scanner

/-- A visitor that only keeps count of what it is shown. -/
def Visitor.observing (observe : Scanner → σ → σ) : Visitor σ ε := fun s memory =>
  .next (observe s memory)

theorem Visitor.quiet_observing (observe : Scanner → σ → σ) :
    (Visitor.observing observe : Visitor σ ε).Quiet := by
  intro s memory
  rfl

theorem Visitor.watch_observing (observe : Scanner → σ → σ) (finish : Scanner)
    (shown : List Scanner) (memory : σ) :
    (Visitor.observing observe : Visitor σ ε).watch finish shown memory =
      .atEnd finish (shown.foldl (fun memory s => observe s memory) memory) := by
  induction shown generalizing memory with
  | nil => rfl
  | cons s shown ih => exact ih (observe s memory)

/-- A visitor that lists something of all that it is shown. -/
theorem Visitor.watch_listing {α : Type} (entry : Scanner → α) (finish : Scanner)
    (shown : List Scanner) (seen : List α) :
    (Visitor.observing (fun s seen => seen ++ [entry s]) : Visitor (List α) ε).watch finish shown
      seen = .atEnd finish (seen ++ shown.map entry) := by
  rw [watch_observing, List.foldl_append_eq_append, ← List.flatMap_def, ← List.map_eq_flatMap]

theorem Visitor.onCode_quiet {visit : Visitor σ ε} (quiet : visit.Quiet) :
    visit.onCode.Quiet := by
  intro s memory
  simp only [Visitor.onCode]
  split
  · exact quiet s memory
  · rfl

end Watching

namespace Scanner

/-- Where a scan ends that nothing stops. -/
def finish (s : Scanner) : Scanner :=
  (s.scan (Visitor.observing (fun _ memory => memory) : Visitor Unit Empty) ()).scanner

theorem finish_between (front back : Text) (n : Nesting) :
    (between front back n).finish = between (front ++ back) [] (n.after back) := by
  rw [finish, scan_between (Visitor.quiet_observing _), Visitor.watch_observing]
  rfl

theorem finish_start (source : Text) :
    (start source).finish = between source [] (Nesting.outermost.after source) := by
  rw [start_between, finish_between]
  rfl

/-- The scanners that a scan comes to, round after round, when nothing stops it. -/
inductive Reaches : Scanner → Scanner → Prop where
  | refl {s} : Reaches s s
  | round {s t} (more : s.atEnd = false) (rest : Reaches s.round t) : Reaches s t

theorem Reaches.trans {s t u : Scanner} (h : Reaches s t) (h' : Reaches t u) : Reaches s u := by
  induction h with
  | refl => exact h'
  | round more _ ih => exact .round more (ih h')

section Reaching

variable {front t : Text} {n m : Nesting} {c : Char} {s : Scanner}

theorem reaches_nil : (between front [] n).Reaches s ↔ s = between front [] n := by
  constructor
  · intro h
    cases h with
    | refl => rfl
    | round more _ => cases more
  · intro h
    rw [h]
    exact .refl

theorem reaches_cons :
    (between front (c :: t) n).Reaches s ↔
      s = between front (c :: t) n ∨ (between front (c :: t) n).round.Reaches s := by
  constructor
  · intro h
    cases h with
    | refl => exact .inl rfl
    | round _ rest => exact .inr rest
  · intro h
    cases h with
    | inl h =>
        rw [h]
        exact .refl
    | inr h => exact .round rfl h

theorem reaches_visit (h : n.Reads c t.head? (.visit m)) :
    (between front (c :: t) n).Reaches s ↔
      s = between front (c :: t) n ∨ (between (front ++ [c]) t m.settled).Reaches s := by
  rw [reaches_cons, round_visit h]

theorem reaches_skip (h : n.Reads c t.head? (.skip 1 m)) :
    (between front (c :: t) n).Reaches s ↔
      s = between front (c :: t) n ∨ (between (front ++ [c]) t m).Reaches s := by
  rw [reaches_cons, round_skip h]

theorem reaches_opening {d : Nat} {ops : List Nat} :
    (between front ('$' :: '{' :: t) ⟨.template false, d, ops⟩).Reaches s ↔
      s = between front ('$' :: '{' :: t) ⟨.template false, d, ops⟩ ∨
        (between (front ++ ['$', '{']) t ⟨.code, d + 1, d :: ops⟩).Reaches s := by
  rw [reaches_cons, round_opening]

theorem reaches_cut {mid rest : Text} (cut : Nesting.Cut n mid rest) (front : Text) :
    (between front (mid ++ rest) n).Reaches (between (front ++ mid) rest (n.after mid)) := by
  induction cut generalizing front with
  | here => rw [List.append_nil]; exact .refl
  | @visit n within c mid rest hr _ ih =>
      rw [List.cons_append, reaches_visit hr, Nesting.after_visit hr.visit_in_front]
      exact .inr (by simpa using ih (front ++ [c]))
  | @skip n next c mid rest hr _ ih =>
      rw [List.cons_append, reaches_skip hr, Nesting.after_skip hr.skip_in_front]
      exact .inr (by simpa using ih (front ++ [c]))
  | @opening d ops mid rest _ ih =>
      rw [List.cons_append, List.cons_append, reaches_opening, Nesting.after_opening]
      exact .inr (by simpa using ih (front ++ ['$', '{']))

theorem exists_cut_of_reaches (h : (between front t n).Reaches s) :
    ∃ mid rest, t = mid ++ rest ∧ Nesting.Cut n mid rest ∧
      s = between (front ++ mid) rest (n.after mid) := by
  induction n, t using Nesting.passage_induction generalizing front with
  | nil n => exact ⟨[], [], rfl, .here, by rw [reaches_nil.mp h, List.append_nil]; rfl⟩
  | visit n c t within hr ih =>
      cases (reaches_visit hr).mp h with
      | inl h => exact ⟨[], c :: t, rfl, .here, by rw [h, List.append_nil]; rfl⟩
      | inr h =>
          obtain ⟨mid, rest, rfl, hcut, rfl⟩ := ih h
          refine ⟨c :: mid, rest, rfl, .visit hr hcut, ?_⟩
          rw [Nesting.after_visit hr.visit_in_front, List.append_assoc]
          rfl
  | skip n c t next hr ih =>
      cases (reaches_skip hr).mp h with
      | inl h => exact ⟨[], c :: t, rfl, .here, by rw [h, List.append_nil]; rfl⟩
      | inr h =>
          obtain ⟨mid, rest, rfl, hcut, rfl⟩ := ih h
          refine ⟨c :: mid, rest, rfl, .skip hr hcut, ?_⟩
          rw [Nesting.after_skip hr.skip_in_front, List.append_assoc]
          rfl
  | opening d ops t ih =>
      cases reaches_opening.mp h with
      | inl h => exact ⟨[], '$' :: '{' :: t, rfl, .here, by rw [h, List.append_nil]; rfl⟩
      | inr h =>
          obtain ⟨mid, rest, rfl, hcut, rfl⟩ := ih h
          refine ⟨'$' :: '{' :: mid, rest, rfl, .opening hcut, ?_⟩
          rw [Nesting.after_opening, List.append_assoc]
          rfl

theorem byteLength_le_position (h : (between front t n).Reaches s) :
    front.byteLength ≤ s.position := by
  obtain ⟨mid, rest, -, -, rfl⟩ := exists_cut_of_reaches h
  rw [position_between, Text.byteLength_append]
  exact Nat.le_add_right _ _

/-- What a scan comes to lies in front of a clean cut or is reached from there. -/
theorem reaches_across {mid rest : Text} (cut : Nesting.Cut n mid rest)
    (h : (between front (mid ++ rest) n).Reaches s) :
    s.position < Text.byteLength (front ++ mid) ∨
      (between (front ++ mid) rest (n.after mid)).Reaches s := by
  have longer (front s : Text) (c : Char) :
      front.byteLength < Text.byteLength (front ++ c :: s) := by
    have := Char.utf8Size_pos c
    simp only [Text.byteLength_append, Text.byteLength]
    omega
  induction cut generalizing front with
  | here =>
      rw [List.append_nil]
      exact .inr h
  | @visit n within c mid rest hr _ ih =>
      rw [List.cons_append, reaches_visit hr] at h
      rw [Nesting.after_visit hr.visit_in_front]
      cases h with
      | inl h => exact .inl (h ▸ longer front mid c)
      | inr h => simpa using ih h
  | @skip n next c mid rest hr _ ih =>
      rw [List.cons_append, reaches_skip hr] at h
      rw [Nesting.after_skip hr.skip_in_front]
      cases h with
      | inl h => exact .inl (h ▸ longer front mid c)
      | inr h => simpa using ih h
  | @opening d ops mid rest _ ih =>
      rw [List.cons_append, List.cons_append, reaches_opening] at h
      rw [Nesting.after_opening]
      cases h with
      | inl h => exact .inl (h ▸ longer front _ '$')
      | inr h => simpa using ih h

end Reaching

end Scanner

end BindingCompiler
