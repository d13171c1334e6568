import BindingCompiler.Nesting

/-!
The regions of a text by recursive descent: code at the top, quoted strings, template literals, and
code in interpolations. A region is read from its first character and hands over to its parent what
follows it, so nothing is shared between regions but the text. In particular an interpolation
counts the braces opened inside it on its own.
-/

namespace BindingCompiler.Regions

/-- A content character, and the number of interpolations around it. -/
structure Content where
  offset : Nat
  inCode : Bool
  escaped : Bool
  enclosing : Nat
  deriving DecidableEq, Repr

/-- How a region ends: closed, with the text behind it, or with the text, in that region or in one
further inside. -/
inductive Ending (limit : Nat) where
  | closed (offset : Nat) (rest : Text) (shorter : rest.length ≤ limit)
  | ended (region : Region) (enclosing : Nat)

/-- The content of a region and of all regions inside, and how the region ends. -/
structure Part (limit : Nat) where
  content : List Content
  ending : Ending limit

/-- The content of a whole text, and where the text ends. -/
structure Outline where
  content : List Content
  region : Region
  enclosing : Nat
  deriving DecidableEq, Repr

def Ending.widen {m n : Nat} (h : m ≤ n) : Ending m → Ending n
  | closed offset rest shorter => closed offset rest (Nat.le_trans shorter h)
  | ended region enclosing => ended region enclosing

namespace Part

variable {m n : Nat}

def closed (offset : Nat) (rest : Text) (shorter : rest.length ≤ n) : Part n :=
  ⟨[], .closed offset rest shorter⟩

def ended (region : Region) (enclosing : Nat) : Part n :=
  ⟨[], .ended region enclosing⟩

def widen (p : Part m) (h : m ≤ n) : Part n :=
  ⟨p.content, p.ending.widen h⟩

/-- A character in front of what the rest of its region comes to. -/
def behind (p : Part m) (c : Content) (h : m ≤ n) : Part n :=
  ⟨c :: p.content, p.ending.widen h⟩

/-- A region inside another, and the rest of the other one when it is closed. -/
def andThen (p : Part m) (go : Nat → (rest : Text) → rest.length ≤ m → Part n) : Part n :=
  match p.ending with
  | .ended region enclosing => ⟨p.content, .ended region enclosing⟩
  | .closed offset rest shorter =>
      let q := go offset rest shorter
      ⟨p.content ++ q.content, q.ending⟩

/-- A region at the top, and the rest of the text when it is closed. -/
def finish (p : Part m) (go : Nat → (rest : Text) → rest.length ≤ m → Outline) : Outline :=
  match p.ending with
  | .ended region enclosing => ⟨p.content, region, enclosing⟩
  | .closed offset rest shorter =>
      let q := go offset rest shorter
      { q with content := p.content ++ q.content }

end Part

section Lengths

variable {rest t : Text}

theorem length_le_cons (c : Char) (t : Text) : t.length ≤ (c :: t).length :=
  Nat.le_succ _

theorem length_le_cons_cons (c d : Char) (t : Text) : t.length ≤ (c :: d :: t).length :=
  Nat.le_trans (length_le_cons d t) (length_le_cons c (d :: t))

theorem le_length_cons (c : Char) (h : rest.length ≤ t.length) : rest.length ≤ (c :: t).length :=
  Nat.le_trans h (length_le_cons c t)

theorem le_length_of_tail (c : Char) (h : rest.length ≤ t.tail.length) :
    rest.length ≤ (c :: t).length := by
  simp only [List.length_tail, List.length_cons] at h ⊢
  omega

end Lengths

/-- A quoted string, up to its own mark. -/
def quoted (quote : Quote) (enclosing offset : Nat) : (t : Text) → Part t.length
  | [] => .ended (.quoted quote false) enclosing
  | c :: t =>
      if c = quote.mark then
        .closed (offset + 1) t (length_le_cons c t)
      else if c = '\\' then
        match t with
        | [] => .ended (.quoted quote true) enclosing
        | d :: t =>
            (quoted quote enclosing (offset + 1 + d.utf8Size) t).behind
              ⟨offset + 1, false, true, enclosing⟩ (length_le_cons_cons c d t)
      else
        (quoted quote enclosing (offset + c.utf8Size) t).behind
          ⟨offset, false, false, enclosing⟩ (length_le_cons c t)

mutual

/-- A template literal, up to its mark. -/
def template (enclosing offset : Nat) : (t : Text) → Part t.length
  | [] => .ended (.template false) enclosing
  | c :: t =>
      if c = templateMark then
        .closed (offset + 1) t (length_le_cons c t)
      else if c = '\\' then
        match t with
        | [] => .ended (.template true) enclosing
        | d :: t =>
            (template enclosing (offset + 1 + d.utf8Size) t).behind
              ⟨offset + 1, false, true, enclosing⟩ (length_le_cons_cons c d t)
      else if c = '$' ∧ t.head? = some '{' then
        (interpolation (enclosing + 1) 0 (offset + 2) t.tail).andThen fun offset rest shorter =>
          (template enclosing offset rest).widen (le_length_of_tail c shorter)
      else
        (template enclosing (offset + c.utf8Size) t).behind
          ⟨offset, false, false, enclosing⟩ (length_le_cons c t)
termination_by t => t.length
decreasing_by all_goals simp_all only [List.length_cons, List.length_tail]; omega

/-- Code in an interpolation that has so many braces open, up to the brace that closes it. -/
def interpolation (enclosing braces offset : Nat) : (t : Text) → Part t.length
  | [] => .ended .code enclosing
  | c :: t =>
      match Quote.ofMark? c with
      | some quote =>
          (quoted quote enclosing (offset + 1) t).andThen fun offset rest shorter =>
            (interpolation enclosing braces offset rest).widen (le_length_cons c shorter)
      | none =>
          if c = templateMark then
            (template enclosing (offset + 1) t).andThen fun offset rest shorter =>
              (interpolation enclosing braces offset rest).widen (le_length_cons c shorter)
          else if c = '{' then
            (interpolation enclosing (braces + 1) (offset + 1) t).behind
              ⟨offset, true, false, enclosing⟩ (length_le_cons c t)
          else if c = '}' then
            match braces with
            | 0 => .closed (offset + 1) t (length_le_cons c t)
            | braces + 1 =>
                (interpolation enclosing braces (offset + 1) t).behind
                  ⟨offset, true, false, enclosing⟩ (length_le_cons c t)
          else if isCodeBlank c then
            (interpolation enclosing braces (offset + 1) t).widen (length_le_cons c t)
          else
            (interpolation enclosing braces (offset + c.utf8Size) t).behind
              ⟨offset, true, false, enclosing⟩ (length_le_cons c t)
termination_by t => t.length
decreasing_by all_goals simp only [List.length_cons]; omega

end

/-- Code at the top, where braces mean nothing. -/
def code (offset : Nat) : Text → Outline
  | [] => ⟨[], .code, 0⟩
  | c :: t =>
      match Quote.ofMark? c with
      | some quote =>
          (quoted quote 0 (offset + 1) t).finish fun offset rest _ => code offset rest
      | none =>
          if c = templateMark then
            (template 0 (offset + 1) t).finish fun offset rest _ => code offset rest
          else if isCodeBlank c then
            code (offset + 1) t
          else
            let rest := code (offset + c.utf8Size) t
            { rest with content := ⟨offset, true, false, 0⟩ :: rest.content }
termination_by t => t.length
decreasing_by all_goals simp only [List.length_cons]; omega

end BindingCompiler.Regions
