import BindingCompiler.Proofs.Jumps

/-!
What a scan shows its visitor, for visitors that stop, fail or ask for jumps. A visit is a place
that the scan comes to and the nesting in which the character there is content. A visitor that also
notes what it is shown makes the same scan.
-/

namespace BindingCompiler

variable {σ ε : Type}

/-- The visitor, with a list of the scanners that it was shown. -/
def Visitor.noting (visit : Visitor σ ε) : Visitor (σ × List Scanner) ε := fun s noted =>
  let reaction := visit s noted.1
  { memory := (reaction.memory, noted.2 ++ [s])
    verdict := reaction.verdict
    resume := reaction.resume }

namespace Scanner

variable {visit : Visitor σ ε} {s t shown : Scanner} {memory m : σ}

/-- A scan shows its visitor a scanner, at a time when the visitor has some memory. -/
def Shows (visit : Visitor σ ε) (s : Scanner) (memory : σ) (shown : Scanner) (m : σ) : Prop :=
  ∃ t within, ComesTo visit s memory t m ∧ t.atEnd = false ∧
    t.nesting.read t.here? t.next? = .visit within ∧ shown = { t with nesting := within }

/-- A scan goes on where a visitor that does not stop it wants it to go on. -/
theorem comesTo_next {within : Nesting} (more : s.atEnd = false)
    (hread : s.nesting.read s.here? s.next? = .visit within)
    (hv : (visit { s with nesting := within } memory).verdict = .next) :
    ComesTo visit s memory
      ((visit { s with nesting := within } memory).resume.elim { s with nesting := within }
        (resumeAt { s with nesting := within })).proceed
      (visit { s with nesting := within } memory).memory := by
  refine ⟨1, ?_⟩
  rw [scanFor_of_visit more hread]
  simp only [hv, scanFor]

theorem shows_here {within : Nesting} (more : s.atEnd = false)
    (hread : s.nesting.read s.here? s.next? = .visit within) :
    Shows visit s memory { s with nesting := within } memory :=
  ⟨s, within, .refl s memory, more, hread, rfl⟩

theorem Shows.behind {m' : σ} (h : Shows visit t m shown m')
    (first : ComesTo visit s memory t m) : Shows visit s memory shown m' := by
  obtain ⟨u, within, hu, more, hread, rfl⟩ := h
  exact ⟨u, within, first.trans hu, more, hread, rfl⟩

theorem Shows.source_eq (h : Shows visit s memory shown m) : shown.source = s.source := by
  obtain ⟨t, within, hcomes, -, -, rfl⟩ := h
  exact hcomes.source_eq

/-- A visitor that does the same with a copy of the memory makes the same scan. -/
theorem scanFor_copy {τ : Type} {other : Visitor τ ε} (copy : σ → τ)
    (same : ∀ s memory, other s (copy memory) =
      { memory := copy (visit s memory).memory
        verdict := (visit s memory).verdict
        resume := (visit s memory).resume })
    (rounds : Nat) (s : Scanner) (memory : σ) {finish : Scanner} {m : σ}
    (h : s.scanFor visit rounds memory = .atEnd finish m) :
    s.scanFor other rounds (copy memory) = .atEnd finish (copy m) := by
  induction rounds generalizing s memory with
  | zero => cases h
  | succ rounds ih =>
      rw [scanFor] at h ⊢
      split at h
      · next hend =>
          cases h
          exact if_pos hend
      · next hmore =>
          rw [if_neg hmore]
          split at h
          · exact ih _ _ h
          · dsimp only at h ⊢
            rw [same]
            split at h
            · next hverdict =>
                simp only [hverdict]
                exact ih _ _ h
            · cases h
            · cases h

/-- Noting what is shown changes nothing of a scan. -/
theorem scanFor_of_noting (visit : Visitor σ ε) (rounds : Nat) (s : Scanner) (memory : σ)
    (seen : List Scanner) {finish : Scanner} {m : σ} {noted : List Scanner}
    (h : s.scanFor visit.noting rounds (memory, seen) = .atEnd finish (m, noted)) :
    s.scanFor visit rounds memory = .atEnd finish m :=
  scanFor_copy Prod.fst (fun _ _ => rfl) rounds s (memory, seen) h

end Scanner

end BindingCompiler
