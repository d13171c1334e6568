import BindingCompiler.Text.Basic

/-!
The boundaries nearest to an offset. An offset past the end is nearest to the end.
-/

namespace BindingCompiler.Text

/-- The last boundary that is not behind an offset. -/
def floorBoundary : Text → Nat → Nat
  | [], _ => 0
  | c :: t, offset =>
      if c.utf8Size ≤ offset then c.utf8Size + floorBoundary t (offset - c.utf8Size) else 0

/-- The first boundary that is not in front of an offset. -/
def ceilBoundary : Text → Nat → Nat
  | [], _ => 0
  | c :: t, offset =>
      if offset = 0 then 0 else c.utf8Size + ceilBoundary t (offset - c.utf8Size)

theorem floorBoundary_le (t : Text) (offset : Nat) : t.floorBoundary offset ≤ offset := by
  induction t generalizing offset with
  | nil => exact Nat.zero_le _
  | cons c t ih =>
      simp only [floorBoundary]
      split
      · have := ih (offset - c.utf8Size)
        omega
      · exact Nat.zero_le _

theorem le_ceilBoundary (t : Text) (offset : Nat) (h : offset ≤ t.byteLength) :
    offset ≤ t.ceilBoundary offset := by
  induction t generalizing offset with
  | nil => exact h
  | cons c t ih =>
      simp only [ceilBoundary]
      split
      · omega
      · have := ih (offset - c.utf8Size) (by simp only [byteLength] at h; omega)
        omega

end BindingCompiler.Text
