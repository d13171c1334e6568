import BindingCompiler.Proofs.Jumps

/-!
What a scan counts. A round takes at least one byte and counts at most one up, so no count exceeds
the bytes that were ahead when it began, whatever places the visitor skips. A count that the visitor
itself keeps above zero stays there.
-/

namespace BindingCompiler

/-- Only an opening brace counts up. -/
theorem Nesting.Reads.depth_visit {n within : Nesting} {c : Char} {next : Option Char}
    (h : n.Reads c next (.visit within)) : within.depth ≤ n.depth + 1 := by
  cases h with
  | openBrace => exact Nat.le_refl _
  | closeBrace => exact Nat.le_trans (Nat.sub_le _ _) (Nat.le_succ _)
  | plain | quoted | escapedQuoted | template | escapedTemplate => exact Nat.le_succ _

theorem Nesting.Reads.depth_skip {n after : Nesting} {c : Char} {next : Option Char}
    (h : n.Reads c next (.skip 1 after)) : after.depth ≤ n.depth := by
  cases h with
  | closeInterpolation => exact Nat.sub_le _ _
  | openQuote | openTemplate | blank | closeQuote | escapeQuoted | closeTemplate
  | escapeTemplate => exact Nat.le_refl _

variable {σ ε : Type} {visit : Visitor σ ε} {count : σ → Nat}

/-- A visitor that goes on behind the character that it is shown, or further on where the text can
be cut. -/
def Visitor.Forward (visit : Visitor σ ε) : Prop :=
  ∀ front c back n memory place,
    (visit (.between front (c :: back) n) memory).resume = some place →
      ∃ mid rest, back = mid ++ rest ∧ place = Text.byteLength (front ++ c :: mid)

theorem Visitor.Quiet.forward (quiet : visit.Quiet) : visit.Forward := by
  intro front c back n memory place h
  rw [quiet] at h
  cases h

/-- A visitor that counts at most one up at a time. -/
def Visitor.CountsUp (visit : Visitor σ ε) (count : σ → Nat) : Prop :=
  ∀ s memory, count (visit s memory).memory ≤ count memory + 1

namespace Scanner

/-- However long a scan goes on, the depth of the nesting and the count of the visitor stay below
the bound. -/
def CountsBelow (bound : Nat) (visit : Visitor σ ε) (count : σ → Nat) (s : Scanner) (memory : σ) :
    Prop :=
  ∀ rounds, (s.scanFor visit rounds memory).scanner.nesting.depth < bound ∧
    count (s.scanFor visit rounds memory).memory < bound

/-- Behind a character that was shown, a scan goes on where a part of the text is left out. -/
theorem exists_proceed (forward : visit.Forward) (front : Text) (c : Char) (back : Text)
    (n : Nesting) (memory : σ) :
    let shown := between front (c :: back) n
    ∃ mid rest, back = mid ++ rest ∧
      ((visit shown memory).resume.elim shown shown.resumeAt).proceed =
        between (front ++ c :: mid) rest n.settled := by
  intro shown
  cases hresume : (visit shown memory).resume with
  | none => exact ⟨[], back, rfl, proceed_between⟩
  | some place =>
      obtain ⟨mid, rest, rfl, rfl⟩ := forward _ _ _ _ _ _ hresume
      exact ⟨mid, rest, rfl, proceed_resumeAt front mid rest c n⟩

theorem counts_le (forward : visit.Forward) (counts : visit.CountsUp count) (rounds : Nat)
    (front back : Text) (n : Nesting) (memory : σ) :
    ((between front back n).scanFor visit rounds memory).scanner.nesting.depth ≤
        n.depth + back.byteLength ∧
      count ((between front back n).scanFor visit rounds memory).memory ≤
        count memory + back.byteLength := by
  induction rounds generalizing front back n memory with
  | zero => exact ⟨Nat.le_add_right _ _, Nat.le_add_right _ _⟩
  | succ rounds ih =>
      cases n, back using Nesting.passage_induction with
      | nil n => exact ⟨Nat.le_refl _, Nat.le_refl _⟩
      | visit n c t within hr _ =>
          have hdepth := hr.depth_visit
          have hcount := counts (between front (c :: t) within) memory
          have hc := c.utf8Size_pos
          obtain ⟨mid, rest, rfl, hproceed⟩ := exists_proceed forward front c t within memory
          rw [scanFor_visit hr, Text.byteLength]
          dsimp only at hproceed ⊢
          cases (visit (between front (c :: (mid ++ rest)) within) memory).verdict with
          | next =>
              obtain ⟨hd, hm⟩ := ih (front ++ c :: mid) rest within.settled
                (visit (between front (c :: (mid ++ rest)) within) memory).memory
              have hsettled : within.settled.depth = within.depth := rfl
              rw [Text.byteLength_append]
              dsimp only
              rw [hproceed]
              omega
          | stop | fail error =>
              have hnesting (shown : Scanner) (resume : Option Nat) :
                  (resume.elim shown shown.resumeAt).nesting = shown.nesting := by
                cases resume <;> rfl
              simp only [Outcome.scanner, Outcome.memory, hnesting, nesting_between]
              omega
      | skip n c t next hr _ =>
          have hdepth := hr.depth_skip
          obtain ⟨hd, hm⟩ := ih (front ++ [c]) t next memory
          rw [scanFor_skip hr, Text.byteLength]
          omega
      | opening d ops t _ =>
          obtain ⟨hd, hm⟩ := ih (front ++ ['$', '{']) t ⟨.code, d + 1, d :: ops⟩ memory
          have hmark : Text.byteLength ('$' :: '{' :: t) = 1 + (1 + t.byteLength) := rfl
          rw [scanFor_opening, hmark]
          dsimp only at hd ⊢
          omega

/-- A scan that begins at the top of code counts no further than the bytes ahead of it. -/
theorem countsBelow_outermost {bound : Nat} (forward : visit.Forward)
    (counts : visit.CountsUp count) {front back : Text} {memory : σ}
    (h : count memory + back.byteLength < bound) :
    CountsBelow bound visit count (between front back .outermost) memory := by
  intro rounds
  obtain ⟨hd, hm⟩ := counts_le forward counts rounds front back .outermost memory
  have hzero : Nesting.outermost.depth = 0 := rfl
  omega

end Scanner

end BindingCompiler
