import BindingCompiler.Nesting

/-!
A scanner is a place in a text together with the nesting of that place. It keeps what lies ahead,
so that a step does not look the place up again; that this is what the text holds there is part of
the type.
-/

namespace BindingCompiler

/-- A place in a text. -/
structure Scanner where
  source : Text
  position : Nat
  nesting : Nesting
  /-- The offset at which a scan was asked to go on behind the next visited character. -/
  pending : Option Nat
  /-- What the text holds from the place on. -/
  ahead : Remainder
  ahead_eq : ahead = source.onward position := by rfl

namespace Scanner

/-- What lies ahead is settled by the place, so it need not be compared. -/
theorem eq_of_place {s t : Scanner} (source : s.source = t.source)
    (position : s.position = t.position) (nesting : s.nesting = t.nesting)
    (pending : s.pending = t.pending) : s = t := by
  obtain ⟨_, _, _, _, _, hs⟩ := s
  obtain ⟨_, _, _, _, _, ht⟩ := t
  cases source
  cases position
  cases nesting
  cases pending
  cases hs
  cases ht
  rfl

/-- A place in code, no further than the end of the text. -/
def startAt (source : Text) (position : Nat) : Scanner where
  source := source
  position := min position source.byteLength
  nesting := .outermost
  pending := none
  ahead := source.onward (min position source.byteLength)

def start (source : Text) : Scanner :=
  startAt source 0

def atEnd (s : Scanner) : Bool :=
  s.ahead.isEmpty

/-- The character at the place, unless the place is the end or inside a character. -/
def here? (s : Scanner) : Option Char :=
  s.ahead.head?

def next? (s : Scanner) : Option Char :=
  s.ahead.second?

/-- The one-byte character in front of the place. -/
def before? (s : Scanner) : Option Char :=
  if s.position = 0 then none else (s.source.onward (s.position - 1)).head?

def inCode (s : Scanner) : Bool :=
  !s.nesting.region.isString

/-- The number of bytes of the character at the place; a byte inside a character stands alone. -/
def width (s : Scanner) : Nat :=
  match s.here? with
  | some c => c.utf8Size
  | none => 1

def skip (s : Scanner) (bytes : Nat) : Scanner :=
  { s with
    position := s.position + bytes
    ahead := s.ahead.drop bytes
    ahead_eq := by rw [s.ahead_eq, Text.onward_add] }

def moveTo (s : Scanner) (position : Nat) : Scanner :=
  { s with
    position := position
    ahead := s.source.onward position
    ahead_eq := rfl }

/-- Step over the character at the place without reading it. -/
def advance (s : Scanner) : Scanner :=
  if s.atEnd then s else s.skip s.width

/-- Ask the scan to go on at another offset, no further than the end of the text. -/
def resumeAt (s : Scanner) (position : Nat) : Scanner :=
  { s with pending := some (min position s.source.byteLength) }

/-- Leave the character at the place behind once it was visited. -/
def proceed (s : Scanner) : Scanner :=
  let settled := { s with nesting := s.nesting.settled, pending := none }
  match s.pending with
  | some position => settled.moveTo position
  | none => settled.skip s.width

end Scanner

end BindingCompiler
