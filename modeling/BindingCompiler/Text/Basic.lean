/-!
Text as a list of characters whose offsets count bytes of its UTF-8 form. A text is cut between
characters only: an offset inside a character or past the end has no cut. What a text holds from
an offset on is a `Remainder`, which exists at every offset.
-/

namespace BindingCompiler

/-- A text is its characters in order. -/
abbrev Text := List Char

namespace Text

/-- The number of bytes in the UTF-8 form. -/
def byteLength : Text → Nat
  | [] => 0
  | c :: t => c.utf8Size + byteLength t

def bytes (t : Text) : List UInt8 :=
  t.flatMap String.utf8EncodeChar

/-- The byte at an offset, and 0 past the end. -/
def byteAt (t : Text) (offset : Nat) : UInt8 :=
  t.bytes[offset]?.getD 0

/-- The two parts of a text on either side of an offset. -/
def cut? : Text → Nat → Option (Text × Text)
  | t, 0 => some ([], t)
  | [], _ + 1 => none
  | c :: t, n + 1 =>
      if c.utf8Size ≤ n + 1 then
        (cut? t (n + 1 - c.utf8Size)).map fun (front, back) => (c :: front, back)
      else
        none

/-- The part of a text from an offset to its end. -/
def rest? : Text → Nat → Option Text
  | t, 0 => some t
  | [], _ + 1 => none
  | c :: t, n + 1 => if c.utf8Size ≤ n + 1 then rest? t (n + 1 - c.utf8Size) else none

def slice? (t : Text) (start stop : Nat) : Option Text :=
  if start ≤ stop then
    (t.rest? start).bind fun rest => (rest.cut? (stop - start)).map (·.1)
  else
    none

/-- An offset at which the text can be cut. -/
def IsBoundary (t : Text) (offset : Nat) : Prop :=
  ∃ front back, t = front ++ back ∧ front.byteLength = offset

theorem byteLength_append (s t : Text) :
    byteLength (s ++ t) = s.byteLength + t.byteLength := by
  induction s with
  | nil => simp [byteLength]
  | cons c s ih =>
      simp only [List.cons_append, byteLength, ih]
      omega

theorem length_bytes (t : Text) : t.bytes.length = t.byteLength := by
  induction t with
  | nil => rfl
  | cons c t ih =>
      simp only [bytes, List.flatMap_cons, List.length_append, String.length_utf8EncodeChar,
        byteLength]
      exact congrArg _ ih

theorem cut?_eq_some_iff (t : Text) (n : Nat) (front back : Text) :
    t.cut? n = some (front, back) ↔ t = front ++ back ∧ front.byteLength = n := by
  induction t generalizing n front with
  | nil => cases n <;> cases front <;> simp [cut?, byteLength, eq_comm]
  | cons c t ih =>
      have hc := Char.utf8Size_pos c
      cases n with
      | zero =>
          cases front with
          | nil => simp [cut?, byteLength, eq_comm]
          | cons d front =>
              have hd := Char.utf8Size_pos d
              simp only [cut?, Option.some.injEq, Prod.mk.injEq, List.nil_eq, byteLength]
              constructor
              · rintro ⟨h, -⟩
                cases h
              · rintro ⟨-, h⟩
                omega
      | succ n =>
          cases front with
          | nil =>
              simp only [cut?, byteLength]
              split <;> simp
          | cons d front =>
              simp only [cut?, byteLength, List.cons_append, List.cons.injEq]
              by_cases hn : c.utf8Size ≤ n + 1
              · simp only [hn, if_true, Option.map_eq_some_iff, Prod.exists, Prod.mk.injEq,
                  List.cons.injEq]
                constructor
                · rintro ⟨f, b, h, ⟨rfl, rfl⟩, rfl⟩
                  obtain ⟨rfl, h⟩ := (ih _ _).1 h
                  exact ⟨⟨rfl, rfl⟩, by omega⟩
                · rintro ⟨⟨rfl, rfl⟩, h⟩
                  exact ⟨front, back, (ih _ _).2 ⟨rfl, by omega⟩, ⟨rfl, rfl⟩, rfl⟩
              · simp only [hn, if_false, reduceCtorEq, false_iff]
                rintro ⟨⟨rfl, -⟩, h⟩
                omega

theorem rest?_eq_cut? (t : Text) (n : Nat) : t.rest? n = (t.cut? n).map (·.2) := by
  induction t generalizing n with
  | nil => cases n <;> rfl
  | cons c t ih =>
      cases n with
      | zero => rfl
      | succ n =>
          simp only [rest?, cut?, ih]
          split
          · rw [Option.map_map]
            rfl
          · rfl

theorem isBoundary_iff (t : Text) (offset : Nat) :
    t.IsBoundary offset ↔ (t.cut? offset).isSome := by
  rw [Option.isSome_iff_exists]
  constructor
  · rintro ⟨front, back, h⟩
    exact ⟨(front, back), (cut?_eq_some_iff ..).2 h⟩
  · rintro ⟨⟨front, back⟩, h⟩
    exact ⟨front, back, (cut?_eq_some_iff ..).1 h⟩

instance (t : Text) (offset : Nat) : Decidable (t.IsBoundary offset) :=
  decidable_of_iff _ (isBoundary_iff t offset).symm

end Text

/-- What a text holds from some offset on: the bytes left over from a character that the offset
cuts, then whole characters. -/
structure Remainder where
  /-- How many bytes of a cut character come first. -/
  leftover : Nat
  /-- The characters after them. -/
  chars : Text

def Text.onward : Text → Nat → Remainder
  | t, 0 => ⟨0, t⟩
  | [], _ + 1 => ⟨0, []⟩
  | c :: t, n + 1 =>
      if c.utf8Size ≤ n + 1 then onward t (n + 1 - c.utf8Size)
      else ⟨c.utf8Size - (n + 1), t⟩

namespace Remainder

def drop (r : Remainder) (n : Nat) : Remainder :=
  if n < r.leftover then ⟨r.leftover - n, r.chars⟩ else r.chars.onward (n - r.leftover)

def isEmpty (r : Remainder) : Bool :=
  r.leftover == 0 && r.chars.isEmpty

/-- The character that begins here, if one does. -/
def head? (r : Remainder) : Option Char :=
  if r.leftover = 0 then r.chars.head? else none

def second? (r : Remainder) : Option Char :=
  if r.leftover = 0 then r.chars.tail.head? else none

end Remainder

theorem Text.onward_zero (t : Text) : t.onward 0 = ⟨0, t⟩ := by
  cases t <;> rfl

/-- Going on in two steps is going on in one. -/
theorem Text.onward_add (t : Text) (m n : Nat) : t.onward (m + n) = (t.onward m).drop n := by
  induction t generalizing m with
  | nil => cases m <;> cases n <;> rfl
  | cons c t ih =>
      cases m with
      | zero => simp [Text.onward_zero, Remainder.drop]
      | succ m =>
          have hm : m + 1 + n = m + n + 1 := by omega
          simp only [hm, Text.onward]
          by_cases h : c.utf8Size ≤ m + 1
          · have h' : c.utf8Size ≤ m + n + 1 := by omega
            have hs : m + n + 1 - c.utf8Size = m + 1 - c.utf8Size + n := by omega
            simp only [h, h', if_true, hs, ih]
          · simp only [h, if_false, Remainder.drop]
            by_cases h' : c.utf8Size ≤ m + n + 1
            · have hn : ¬ n < c.utf8Size - (m + 1) := by omega
              have hs : n - (c.utf8Size - (m + 1)) = m + n + 1 - c.utf8Size := by omega
              simp only [h', hn, if_true, if_false, hs]
            · have hn : n < c.utf8Size - (m + 1) := by omega
              have hs : c.utf8Size - (m + 1) - n = c.utf8Size - (m + n + 1) := by omega
              simp only [h', hn, if_true, if_false, hs]

end BindingCompiler
