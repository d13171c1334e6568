import BindingCompiler.Proofs.Scanning

/-!
Scans round by round, for visitors that ask for jumps. A scan that was allowed too few rounds goes
on from the place where it was left, and what a scan has ended with is settled.
-/

namespace BindingCompiler.Scanner

variable {σ ε : Type} {visit : Visitor σ ε}

section Rounds

variable {s : Scanner} {memory : σ} {rounds : Nat}

theorem scanFor_of_skip {width : Nat} {after : Nesting} (more : s.atEnd = false)
    (hread : s.nesting.read s.here? s.next? = .skip width after) :
    s.scanFor visit (rounds + 1) memory =
      ({ s with nesting := after }.skip width).scanFor visit rounds memory := by
  rw [scanFor, if_neg (by simp [more]), hread]

theorem scanFor_of_visit {within : Nesting} (more : s.atEnd = false)
    (hread : s.nesting.read s.here? s.next? = .visit within) :
    s.scanFor visit (rounds + 1) memory =
      let shown := { s with nesting := within }
      let reaction := visit shown memory
      let asked := reaction.resume.elim shown shown.resumeAt
      match reaction.verdict with
      | .next => asked.proceed.scanFor visit rounds reaction.memory
      | .stop => .stopped { asked with pending := none } reaction.memory
      | .fail error => .failed asked reaction.memory error := by
  rw [scanFor, if_neg (by simp [more])]
  split
  · next hskip => cases hread.symm.trans hskip
  · next hvisit =>
      cases hread.symm.trans hvisit
      rfl

end Rounds

/-- A scan goes on from where it was left unfinished. -/
theorem scanFor_add (visit : Visitor σ ε) (first more : Nat) (s : Scanner) (memory : σ) :
    s.scanFor visit (first + more) memory =
      match s.scanFor visit first memory with
      | .unfinished t m => t.scanFor visit more m
      | ended => ended := by
  induction first generalizing s memory with
  | zero => rw [Nat.zero_add]; rfl
  | succ first ih =>
      rw [Nat.succ_add, scanFor, scanFor]
      split
      · rfl
      · split
        · exact ih _ _
        · dsimp only
          split
          · exact ih _ _
          · rfl
          · rfl

theorem source_proceed (s : Scanner) : s.proceed.source = s.source := by
  obtain ⟨source, position, nesting, pending, ahead, h⟩ := s
  cases pending <;> rfl

theorem source_scanFor (visit : Visitor σ ε) (rounds : Nat) (s : Scanner) (memory : σ) :
    (s.scanFor visit rounds memory).scanner.source = s.source := by
  have asked (s : Scanner) (resume : Option Nat) :
      (resume.elim s s.resumeAt).source = s.source := by
    cases resume <;> rfl
  induction rounds generalizing s memory with
  | zero => rfl
  | succ rounds ih =>
      rw [scanFor]
      split
      · rfl
      · split
        · exact ih _ _
        · dsimp only
          split
          · rw [ih, source_proceed, asked]
          · exact asked _ _
          · exact asked _ _

/-- Visitors that agree on the scanners of a text make the same scan of it. -/
theorem scanFor_congr {other : Visitor σ ε} {source : Text}
    (h : ∀ s memory, s.source = source → visit s memory = other s memory) (rounds : Nat)
    (s : Scanner) (hs : s.source = source) (memory : σ) :
    s.scanFor visit rounds memory = s.scanFor other rounds memory := by
  induction rounds generalizing s memory with
  | zero => rfl
  | succ rounds ih =>
      rw [scanFor, scanFor]
      split
      · rfl
      · split
        · refine ih _ ?_ _
          exact hs
        · next within _ =>
            have hv := h { s with nesting := within } memory hs
            dsimp only
            rw [hv]
            split
            · refine ih _ ((source_proceed _).trans ?_) _
              cases (other { s with nesting := within } memory).resume <;> exact hs
            · rfl
            · rfl

/-- After some rounds the scan is at another place, with another memory. -/
def ComesTo (visit : Visitor σ ε) (s : Scanner) (memory : σ) (t : Scanner) (m : σ) : Prop :=
  ∃ rounds, s.scanFor visit rounds memory = .unfinished t m

theorem ComesTo.refl (s : Scanner) (memory : σ) : ComesTo visit s memory s memory :=
  ⟨0, rfl⟩

theorem ComesTo.trans {s t u : Scanner} {memory m m' : σ} (h : ComesTo visit s memory t m)
    (h' : ComesTo visit t m u m') : ComesTo visit s memory u m' := by
  obtain ⟨first, h⟩ := h
  obtain ⟨more, h'⟩ := h'
  exact ⟨first + more, by rw [scanFor_add, h]; exact h'⟩

/-- What a visitor makes sure of whenever it goes on holds as long as the scan goes on. -/
theorem ComesTo.holds {P : σ → Prop} {s t : Scanner} {memory m : σ}
    (h : ComesTo visit s memory t m) (start : P memory)
    (step : ∀ s m, P m → (visit s m).verdict = .next → P (visit s m).memory) : P m := by
  obtain ⟨rounds, h⟩ := h
  induction rounds generalizing s memory with
  | zero =>
      cases h
      exact start
  | succ rounds ih =>
      rw [scanFor] at h
      split at h
      · cases h
      · split at h
        · exact ih start h
        · dsimp only at h
          split at h
          · next hnext => exact ih (step _ _ start hnext) h
          · cases h
          · cases h

/-- If the visitor fails where a scan comes to, so does the scan, once it has rounds enough. -/
theorem ComesTo.failed {s t : Scanner} {memory m : σ} (h : ComesTo visit s memory t m)
    (more : t.atEnd = false) {within : Nesting}
    (hread : t.nesting.read t.here? t.next? = .visit within) {error : ε}
    (hv : (visit { t with nesting := within } m).verdict = .fail error) (rounds : Nat) :
    (∃ u k, s.scanFor visit rounds memory = .unfinished u k) ∨
      ∃ u k, s.scanFor visit rounds memory = .failed u k error := by
  obtain ⟨first, h⟩ := h
  by_cases hle : rounds ≤ first
  · obtain ⟨others, rfl⟩ := Nat.exists_eq_add_of_le hle
    rw [scanFor_add] at h
    cases hs : s.scanFor visit rounds memory with
    | unfinished u k => exact .inl ⟨u, k, rfl⟩
    | atEnd | stopped | failed =>
        rw [hs] at h
        cases h
  · obtain ⟨others, rfl⟩ := Nat.exists_eq_add_of_lt (Nat.lt_of_not_le hle)
    rw [Nat.add_assoc, scanFor_add, h]
    dsimp only
    rw [scanFor_of_visit more hread]
    simp only [hv]
    exact .inr ⟨_, _, rfl⟩

theorem ComesTo.source_eq {s t : Scanner} {memory m : σ} (h : ComesTo visit s memory t m) :
    t.source = s.source := by
  obtain ⟨rounds, h⟩ := h
  have hsame := source_scanFor visit rounds s memory
  rwa [h] at hsame

section Between

variable {front t : Text} {n within : Nesting} {c : Char} {memory m : σ} {rounds : Nat}

theorem scanFor_next (h : n.Reads c t.head? (.visit within))
    (hv : visit (between front (c :: t) within) memory = .next m) :
    (between front (c :: t) n).scanFor visit (rounds + 1) memory =
      (between (front ++ [c]) t within.settled).scanFor visit rounds m := by
  rw [scanFor_visit h]
  simp only [hv, Reaction.next, Option.elim_none, proceed_between]

/-- A jump leads to the place that was asked for. -/
theorem proceed_resumeAt (front mid rest : Text) (c : Char) (n : Nesting) :
    ((between front (c :: (mid ++ rest)) n).resumeAt
        (Text.byteLength (front ++ c :: mid))).proceed =
      between (front ++ c :: mid) rest n.settled := by
  have hle : Text.byteLength (front ++ c :: mid) ≤
      Text.byteLength (front ++ c :: (mid ++ rest)) := by
    rw [← List.cons_append, ← List.append_assoc, Text.byteLength_append (front ++ c :: mid)]
    exact Nat.le_add_right _ _
  exact eq_of_place (List.append_assoc front (c :: mid) rest).symm (Nat.min_eq_left hle) rfl rfl

/-- A scan goes on at the place that the visitor asked for, in the nesting of the character that it
was shown. -/
theorem scanFor_resumeAt (mid rest : Text) (h : n.Reads c t.head? (.visit within))
    (ht : t = mid ++ rest)
    (hv : visit (between front (c :: t) within) memory =
      .resumeAt (Text.byteLength (front ++ c :: mid)) m) :
    (between front (c :: t) n).scanFor visit (rounds + 1) memory =
      (between (front ++ c :: mid) rest within.settled).scanFor visit rounds m := by
  rw [scanFor_visit h]
  subst ht
  simp only [hv, Reaction.resumeAt, Option.elim_some, proceed_resumeAt]

theorem scanFor_fail {error : ε} (h : n.Reads c t.head? (.visit within))
    (hv : visit (between front (c :: t) within) memory = .fail error m) :
    (between front (c :: t) n).scanFor visit (rounds + 1) memory =
      .failed (between front (c :: t) within) m error := by
  rw [scanFor_visit h]
  simp only [hv, Reaction.fail, Option.elim_none]

theorem scanFor_end : (between front [] n).scanFor visit (rounds + 1) memory =
    .atEnd (between front [] n) memory := rfl

end Between

end BindingCompiler.Scanner
