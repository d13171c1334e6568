import BindingCompiler.Text.Blank

/-!
Where a character of an expression stands: in code, in a quoted string, or in the literal part of a
template literal, and inside which open braces and interpolations. A nesting is the state of an
automaton that reads one character at a time; `Nesting.read` says whether the character is to be
visited or only moves the automaton on.
-/

namespace BindingCompiler

/-- The marks that delimit a quoted string. -/
inductive Quote where
  | single
  | double
  deriving DecidableEq, Repr

namespace Quote

def mark : Quote → Char
  | single => '\x27'
  | double => '\x22'

def ofMark? (c : Char) : Option Quote :=
  if c = single.mark then some single
  else if c = double.mark then some double
  else none

end Quote

/-- The mark that delimits a template literal. -/
def templateMark : Char := '\x60'

/-- The kinds of text in an expression. A string is `escaping` when its last character was a
backslash that makes the next one plain content. -/
inductive Region where
  | code
  | quoted (quote : Quote) (escaping : Bool)
  | template (escaping : Bool)
  deriving DecidableEq, Repr

namespace Region

def isString : Region → Bool
  | code => false
  | quoted _ _ | template _ => true

def isEscaping : Region → Bool
  | code => false
  | quoted _ escaping | template escaping => escaping

def delimiter? : Region → Option Char
  | code => none
  | quoted quote _ => some quote.mark
  | template _ => some templateMark

/-- The same region once an escaped character is behind. -/
def settled : Region → Region
  | code => code
  | quoted quote _ => quoted quote false
  | template _ => template false

end Region

/-- The position of a character among strings, braces and interpolations. -/
structure Nesting where
  region : Region
  /-- How many braces of code are open. A brace that closes nothing leaves it at zero. -/
  depth : Nat
  /-- For each open interpolation, innermost first, how many braces were open before it. -/
  openings : List Nat
  deriving DecidableEq, Repr

/-- What reading a character comes to. -/
inductive Reading where
  /-- The bytes carry structure or nothing at all: go on behind them with another nesting. -/
  | skip (width : Nat) (after : Nesting)
  /-- The character is content, and stands in this nesting. -/
  | visit (within : Nesting)
  deriving DecidableEq, Repr

namespace Nesting

/-- Code that nothing encloses. -/
def outermost : Nesting := ⟨.code, 0, []⟩

/-- A closing brace of code ends the innermost interpolation when it brings the count of open
braces back to what it was before. Any other closing brace is content. -/
def readClosingBrace (n : Nesting) : Reading :=
  match n.openings with
  | opening :: outer =>
      if opening = n.depth - 1 then
        .skip 1 ⟨.template false, n.depth - 1, outer⟩
      else
        .visit { n with depth := n.depth - 1 }
  | [] => .visit { n with depth := n.depth - 1 }

/-- In code, the marks that begin a string and the blanks are not content. -/
def readCode (n : Nesting) (c : Char) : Reading :=
  match Quote.ofMark? c with
  | some quote => .skip 1 { n with region := .quoted quote false }
  | none =>
      if c = templateMark then .skip 1 { n with region := .template false }
      else if c = '{' then .visit { n with depth := n.depth + 1 }
      else if c = '}' then n.readClosingBrace
      else if isCodeBlank c then .skip 1 n
      else .visit n

/-- In a quoted string, its own mark ends it and a backslash makes the next character plain. -/
def readQuoted (n : Nesting) (quote : Quote) (c : Char) : Reading :=
  if c = quote.mark then .skip 1 { n with region := .code }
  else if c = '\\' then .skip 1 { n with region := .quoted quote true }
  else .visit n

/-- In a template literal, a dollar sign and a brace open an interpolation, the mark of the
literal ends it, and a backslash makes the next character plain. -/
def readTemplate (n : Nesting) (c : Char) (next : Option Char) : Reading :=
  if c = '$' ∧ next = some '{' then .skip 2 ⟨.code, n.depth + 1, n.depth :: n.openings⟩
  else if c = templateMark then .skip 1 { n with region := .code }
  else if c = '\\' then .skip 1 { n with region := .template true }
  else .visit n

/-- Read the character `here` that `next` follows. A byte inside a character, for which `here` is
`none`, is content everywhere. -/
def read (n : Nesting) (here next : Option Char) : Reading :=
  match here, n.region with
  | none, _ => .visit n
  | some c, .code => n.readCode c
  | some c, .quoted quote false => n.readQuoted quote c
  | some c, .template false => n.readTemplate c next
  | some _, .quoted _ true => .visit n
  | some _, .template true => .visit n

def settled (n : Nesting) : Nesting :=
  { n with region := n.region.settled }

end Nesting

end BindingCompiler
