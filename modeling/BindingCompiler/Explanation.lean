import BindingCompiler.Problem

/-!
The explanations of the codes, each a page of Markdown.
-/

namespace BindingCompiler.Code

/-- The lines of the page for a code. -/
def page : Code → List String
  | nameStart =>
      ["# G0001: Invalid start character in a name",
        "",
        "A filter or stateful method name starts with a digit or with `$`.",
        "",
        "```",
        "value |> 2upper",
        "#$save()",
        "```",
        "",
        "Names may contain letters, digits, `_` and `$`, but must not begin with a",
        "digit or `$`. Rename the filter or method:",
        "",
        "```",
        "value |> upper2",
        "#save()",
        "```"]
  | nameCharacter =>
      ["# G0002: Invalid character in a name",
        "",
        "A character that cannot appear in a name was found before the argument",
        "list.",
        "",
        "```",
        "value |> trim-start",
        "#save + 1",
        "```",
        "",
        "A stateful method reference must either end the expression or be followed",
        "by `(`. Filter names are limited to letters, digits, `_` and `$`."]
  | missingName =>
      ["# G0003: Argument list without a name",
        "",
        "An argument list `( ... )` appears directly after `|>` or `#`.",
        "",
        "```",
        "value |> (10)",
        "#()",
        "```",
        "",
        "Write the filter or method name before the parentheses."]
  | openArguments =>
      ["# G0004: Unclosed argument list",
        "",
        "The `(` opening the arguments of a filter or stateful method is never",
        "matched by a `)`.",
        "",
        "```",
        "value |> truncate(10",
        "#save(item",
        "```",
        "",
        "Parentheses inside strings and template literals do not count. Close the",
        "argument list."]
  | missingFilter =>
      ["# G0005: Missing filter expression",
        "",
        "A `|>` separator is not followed by a filter.",
        "",
        "```",
        "value |>",
        "value |> |> upper",
        "```",
        "",
        "Remove the separator or name the filter to apply."]
  | missingExpression =>
      ["# G0006: Missing template expression",
        "",
        "An interpolation tag contains nothing but whitespace.",
        "",
        "```",
        "Hello, \x7b\x7b \x7d\x7d!",
        "```",
        "",
        "Put an expression between `\x7b\x7b` and `\x7d\x7d`, or remove the tag."]
  | openTag =>
      ["# G0007: Unterminated template interpolation",
        "",
        "An interpolation opened with `\x7b\x7b` is not closed by `\x7d\x7d`.",
        "",
        "```",
        "Hello, \x7b\x7b name \x7d!",
        "Hello, \x7b\x7b name",
        "```",
        "",
        "Braces inside the expression must be balanced; the tag ends at the first",
        "`\x7d` that brings the nesting back to zero, and it must be followed",
        "immediately by a second `\x7d`."]
  | trailingText =>
      ["# G0008: Text after a filter's argument list",
        "",
        "A filter call is followed by more text before the next `|>` or the end of",
        "the expression.",
        "",
        "```",
        "value |> truncate(10) + 1",
        "```",
        "",
        "Everything after the closing `)` would be dropped. Move the extra",
        "operation into the base expression, or apply it with another filter."]

/-- What a code means, with examples. -/
def explanation (code : Code) : Text :=
  Text.ofLines code.page

end BindingCompiler.Code
