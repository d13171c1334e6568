import BindingCompiler.FilterChain

/-!
Template text. Tags in double braces hold expressions; the text around them is literal. A template
becomes a sum of template literals for the text and pragma calls for the tags.
-/

namespace BindingCompiler

namespace TemplateText

def tagOpening : Text := ['{', '{']

/-- The text in front of the first tag, if there is a tag. -/
def beforeTag? : Text → Option Text
  | [] => none
  | c :: t => if tagOpening.isPrefixOf (c :: t) then some [] else (beforeTag? t).map (c :: ·)

/-- Counts the open braces of code and stops at the first brace of the two that close the tag. -/
def visitTag : Visitor Nat Failure :=
  Visitor.onCode fun s depth =>
    match s.here?, depth with
    | some '{', _ => .next (depth + 1)
    | some '}', 0 => .fail .stuck depth
    | some '}', 1 =>
        if s.next? = some '}' then .stop 0
        else .fail (.found .unterminatedTag (s.position + 1)) 0
    | some '}', d + 2 => .next (d + 1)
    | _, _ => .next depth

/-- The offset at which the expression of a tag ends that begins at another offset. -/
def tagEnd (template : Text) (start : Nat) : Except Failure Nat :=
  match (Scanner.startAt template start).scan visitTag 1 with
  | .stopped s _ => .ok s.position
  | .atEnd _ _ => .error (.found .unterminatedTag template.byteLength)
  | .failed _ _ failure => .error failure
  | .unfinished _ _ => .error .stuck

/-- Literal text between the marks of a template literal: a backslash goes in front of backslashes,
of the marks, and of the dollar signs that would open an interpolation. -/
def escapeLiteral : Text → Text
  | [] => []
  | c :: t =>
      if c = '\\' ∨ c = templateMark ∨ (c = '$' ∧ t.head? = some '{') then
        '\\' :: c :: escapeLiteral t
      else
        c :: escapeLiteral t

/-- The pieces for literal text: one template literal, or none for no text. -/
def literalPieces (text : Text) : List Text :=
  if text.isEmpty then [] else [templateMark :: escapeLiteral text ++ [templateMark]]

/-- The call for a tag whose expression lies between two offsets. -/
def tagCall (pragmas : Pragmas) (template : Text) (start stop : Nat) : Except Failure Text := do
  let some expression := template.slice? start stop | throw .stuck
  if expression.isAllBlank then
    match stop with
    | 0 => throw .stuck
    | last + 1 => throw (.found .missingExpression last)
  let offset := start + expression.indent
  let compiled ← (FilterChain.compile expression.trim pragmas.filter).mapError
    (·.map fun problem => (problem.shift offset).withinTag)
  return pragmas.template ++ '(' :: compiled ++ [')']

/-- The pieces of a template in order. What follows a tag is a shorter template of its own. -/
def pieces (pragmas : Pragmas) (template : Text) : Except Failure (List Text) :=
  match beforeTag? template with
  | none => .ok (literalPieces template)
  | some before => do
      let start := before.byteLength + tagOpening.byteLength
      let stop ← tagEnd template start
      let call ← tagCall pragmas template start stop
      let behind := stop + 2
      let some rest := template.rest? behind | throw .stuck
      if _ : rest.length < template.length then
        let others ← (pieces pragmas rest).mapError (·.map (·.shift behind))
        return literalPieces before ++ call :: others
      else
        throw .stuck
termination_by template.length

/-- The expression that computes the text of a template. -/
def compile (pragmas : Pragmas) (template : Text) : Except Failure Text :=
  (pieces pragmas template).map (List.intercalate " + ".toList)

end TemplateText

end BindingCompiler
