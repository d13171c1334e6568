import BindingCompiler.Text.Basic

/-!
The names of the runtime functions that compiled code calls, and the text of such calls.
-/

namespace BindingCompiler

/-- The functions that compiled code calls. -/
structure Pragmas where
  /-- Wraps the expression of a template tag. -/
  template : Text := "__$n".toList
  /-- Applies a filter. -/
  filter : Text := "$filter".toList
  /-- Invokes a stateful method. -/
  method : Text := "$commit".toList
  deriving DecidableEq, Repr

inductive PragmaRole where
  | template
  | filter
  | method
  deriving DecidableEq, Repr

namespace Pragmas

/-- The function in a role. -/
def name (p : Pragmas) : PragmaRole → Text
  | .template => p.template
  | .filter => p.filter
  | .method => p.method

/-- The same functions but for the one in this role. -/
def set (p : Pragmas) (role : PragmaRole) (name : Text) : Pragmas :=
  match role with
  | .template => { p with template := name }
  | .filter => { p with filter := name }
  | .method => { p with method := name }

@[simp]
theorem name_set (p : Pragmas) (role other : PragmaRole) (name : Text) :
    (p.set role name).name other = if other = role then name else p.name other := by
  cases role <;> cases other <;> rfl

/-- The functions are those in the roles. -/
theorem ext_name {p q : Pragmas} (h : ∀ role, p.name role = q.name role) : p = q := by
  obtain ⟨_, _, _⟩ := p
  obtain ⟨_, _, _⟩ := q
  cases h .template
  cases h .filter
  cases h .method
  rfl

end Pragmas

/-- What follows the name in a call: the operands, then the end of the call. -/
def operandsText : List Text → Text
  | [] => [')']
  | operand :: operands => ',' :: ' ' :: operand ++ operandsText operands

/-- The text of a call that passes a name in quotes, then operands. -/
def callByName (function name : Text) (operands : List Text) : Text :=
  function ++ '(' :: '\x27' :: name ++ '\x27' :: operandsText operands

end BindingCompiler
