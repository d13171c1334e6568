import BindingCompiler.Proofs.CodeCharacters
import BindingCompiler.Proofs.Progress
import BindingCompiler.Proofs.Separators

/-!
The brackets of a chain. The count that decides whether a separator is enclosed depends on the
characters of code alone. Where no bracket closes that is not open, further brackets around a text
are open all the way through it, so that nothing in it can end a segment.
-/

namespace BindingCompiler.FilterChain

open Nesting

/-- The brackets that are open behind characters of code. -/
def countBrackets (brackets : Nat) (code : Text) : Nat :=
  code.foldl (fun brackets c => countBracket c brackets) brackets

/-- Among characters of code, no bracket closes while none is open. -/
def ClosesOpen : Nat → Text → Prop
  | _, [] => True
  | brackets, c :: code =>
      (c = ')' ∨ c = ']' → brackets ≠ 0) ∧ ClosesOpen (countBracket c brackets) code

instance decidableClosesOpen : (brackets : Nat) → (code : Text) →
    Decidable (ClosesOpen brackets code)
  | _, [] => .isTrue trivial
  | brackets, c :: code =>
      have := decidableClosesOpen (countBracket c brackets) code
      inferInstanceAs (Decidable (_ ∧ _))

theorem closesOpen_append {brackets : Nat} {s t : Text} :
    ClosesOpen brackets (s ++ t) ↔
      ClosesOpen brackets s ∧ ClosesOpen (countBrackets brackets s) t := by
  induction s generalizing brackets with
  | nil => exact (and_iff_right trivial).symm
  | cons c s ih =>
      rw [List.cons_append, ClosesOpen, ClosesOpen, ih, and_assoc]
      rfl

theorem countBracket_add {brackets : Nat} {c : Char} (h : c = ')' ∨ c = ']' → brackets ≠ 0)
    (more : Nat) : countBracket c (brackets + more) = countBracket c brackets + more := by
  rw [countBracket, countBracket]
  split
  · omega
  · split
    · next hclose =>
        have := h hclose
        omega
    · rfl

/-- Brackets around a text are not closed in it. -/
theorem ClosesOpen.enclosed {brackets : Nat} {code : Text} (h : ClosesOpen brackets code)
    (more : Nat) : ClosesOpen (brackets + more) code ∧
      countBrackets (brackets + more) code = countBrackets brackets code + more := by
  induction code generalizing brackets with
  | nil => exact ⟨trivial, rfl⟩
  | cons c code ih =>
      obtain ⟨hc, hcode⟩ := h
      have hcount := countBracket_add hc more
      obtain ⟨hcloses, hbrackets⟩ := ih hcode
      refine ⟨⟨?_, ?_⟩, ?_⟩
      · intro hclose
        have := hc hclose
        omega
      · rw [hcount]
        exact hcloses
      · exact (congrArg (countBrackets · code) hcount).trans hbrackets

/-- The count depends on the characters of code alone. -/
theorem bracketsAfter_eq (n : Nesting) (brackets : Nat) (t : Text) :
    bracketsAfter n brackets t = countBrackets brackets (n.code t) := by
  induction n, t using passage_induction generalizing brackets with
  | nil n => rfl
  | visit n c t within hr ih =>
      rw [bracketsAfter_visit hr, code_visit hr, ih]
      by_cases hw : within.region = .code
      · rw [bracketsAt, if_pos hw, if_pos hw]
        rfl
      · rw [bracketsAt, if_neg hw, if_neg hw]
  | skip n c t next hr ih => rw [bracketsAfter_skip hr, code_skip hr, ih]
  | opening d ops t ih => rw [bracketsAfter_opening, code_opening, ih]

/-- What it is to end at the top, by the characters of code. -/
theorem endsAtTop_iff_code (t : Text) :
    EndsAtTop t ↔ (Scanner.start t).finish.nesting = .outermost ∧
      countBrackets 0 t.codeCharacters = 0 := by
  rw [endsAtTop_iff, bracketsAfter_eq, Text.codeCharacters_eq, Scanner.finish_start,
    Scanner.nesting_between]

theorem closesOpen_visit {n within : Nesting} {brackets : Nat} {c : Char} {t : Text}
    (hr : n.Reads c t.head? (.visit within)) :
    ClosesOpen brackets (n.code (c :: t)) ↔
      (within.region = .code → c = ')' ∨ c = ']' → brackets ≠ 0) ∧
        ClosesOpen (bracketsAt within brackets c) (within.settled.code t) := by
  rw [code_visit hr]
  by_cases hw : within.region = .code
  · rw [if_pos hw, bracketsAt, if_pos hw, ClosesOpen, forall_prop_of_true hw]
  · rw [if_neg hw, bracketsAt, if_neg hw, forall_prop_of_false hw, true_and]

/-- From a place on, the scan of a chain meets no closing bracket of code while it counts none as
open. -/
def ClosesOnlyOpen (s : Scanner) (progress : Progress) : Prop :=
  ∀ shown p, s.Shows visitSegments progress shown p → shown.inCode = true →
    shown.here? = some ')' ∨ shown.here? = some ']' → p.brackets ≠ 0

theorem closesOnlyOpen_visit {n within : Nesting} {c : Char} {front t : Text}
    {progress next : Progress} (hr : n.Reads c t.head? (.visit within))
    (hv : visitSegments (.between front (c :: t) within) progress = .next next) :
    ClosesOnlyOpen (.between front (c :: t) n) progress ↔
      (within.region = .code → c = ')' ∨ c = ']' → progress.brackets ≠ 0) ∧
        ClosesOnlyOpen (.between (front ++ [c]) t within.settled) next := by
  have hhere : (within.region = .code → c = ')' ∨ c = ']' → progress.brackets ≠ 0) ↔
      ((Scanner.between front (c :: t) within).inCode = true →
        (Scanner.between front (c :: t) within).here? = some ')' ∨
          (Scanner.between front (c :: t) within).here? = some ']' → progress.brackets ≠ 0) := by
    simp only [Scanner.inCode_eq_true_iff, Scanner.nesting_between, Scanner.here?_between,
      List.head?_cons, Option.some.injEq]
  rw [hhere, ClosesOnlyOpen]
  simp only [Scanner.shows_visit_iff hr hv]
  constructor
  · intro h
    exact ⟨h _ _ (.inl ⟨rfl, rfl⟩), fun shown p hshows => h shown p (.inr hshows)⟩
  · intro h shown p hshows
    cases hshows with
    | inl hshows =>
        obtain ⟨rfl, rfl⟩ := hshows
        exact h.1
    | inr hshows => exact h.2 shown p hshows

private theorem closesOnlyOpen_between (n : Nesting) (brackets : Nat) (before seen t : Text)
    (segments : List Segment) (hb : before.getLast? ≠ some '|') :
    ClosesOnlyOpen (.between (before ++ seen) t n) ⟨brackets, before.byteLength, segments⟩ ↔
      ClosesOpen brackets (n.code t) := by
  induction n, t using passage_induction generalizing brackets before seen segments with
  | nil n => exact iff_of_true (fun _ _ h => absurd h Scanner.not_shows_nil) trivial
  | visit n c t within hr ih =>
      have hstep := visitSegments_between within brackets before seen t c segments hb
      rw [closesOpen_visit hr]
      by_cases hc : Completes within brackets seen c
      · obtain ⟨hnext, hlen⟩ := hc.behind (before ++ seen)
        rw [if_pos hc, ← hlen] at hstep
        rw [closesOnlyOpen_visit hr hstep]
        have hrest := ih (bracketsAt within brackets c) (before ++ seen ++ [c]) []
          (⟨before.byteLength, seen.dropLast⟩ :: segments) hnext
        rw [List.append_nil] at hrest
        rw [hrest]
      · rw [if_neg hc] at hstep
        rw [closesOnlyOpen_visit hr hstep, List.append_assoc, ih _ _ _ _ hb]
  | skip n c t next hr ih =>
      have hrest := ih brackets before (seen ++ [c]) segments hb
      rw [← List.append_assoc] at hrest
      rw [ClosesOnlyOpen, code_skip hr, ← hrest, ClosesOnlyOpen]
      simp only [Scanner.shows_skip_iff hr]
  | opening d ops t ih =>
      have hrest := ih brackets before (seen ++ ['$', '{']) segments hb
      rw [← List.append_assoc] at hrest
      rw [ClosesOnlyOpen, code_opening, ← hrest, ClosesOnlyOpen]
      simp only [Scanner.shows_opening_iff]

/-- The brackets that the scan meets are those among the characters of code. -/
theorem closesOnlyOpen_iff (e : Text) :
    ClosesOnlyOpen (.start e) ⟨0, 0, []⟩ ↔ ClosesOpen 0 (outermost.code e) := by
  rw [Scanner.start_between]
  exact closesOnlyOpen_between .outermost 0 [] [] e [] nofun

end BindingCompiler.FilterChain
