import BindingCompiler.Proofs.Enclosure

/-!
Literal text of a template. A scan of the template literal that is written for a text meets the
characters of the text, in order and as string content only, and leaves the literal at its last
mark. A template without a tag is nothing but such a literal.
-/

namespace BindingCompiler

/-- The content character that a scanner was shown for, and whether it is one of code. -/
def Scanner.content (s : Scanner) : Bool × Option Char :=
  (s.inCode, s.here?)

/-- The content characters of a text, in the order in which a scan of the whole text shows them. -/
def Text.content (t : Text) : List (Bool × Option Char) :=
  ((Scanner.start t).scan
    (.observing fun s seen => seen ++ [s.content] : Visitor (List (Bool × Option Char)) Empty)
    []).memory

theorem Text.content_eq (t : Text) :
    t.content = (Nesting.outermost.shown [] t).map Scanner.content := by
  rw [content, Scanner.scan_start (Visitor.quiet_observing _), Visitor.watch_listing,
    List.nil_append]
  rfl

/-- What a scan shows that meets the text as the content of a string. -/
def Text.stringContent (t : Text) : List (Bool × Option Char) :=
  t.map fun c => (false, some c)

namespace TemplateText

open Nesting

theorem content_template {d : Nat} {ops : List Nat} {escaping : Bool} {front t : Text} {c : Char} :
    (Scanner.between front (c :: t) ⟨.template escaping, d, ops⟩).content = (false, some c) := rfl

/-- Escaped text shows what it stands for. -/
theorem shown_escapeLiteral (d : Nat) (ops : List Nat) (front t : Text) {rest : Text}
    (hrest : rest.head? ≠ some '{') :
    (shown ⟨.template false, d, ops⟩ front (escapeLiteral t ++ rest)).map Scanner.content =
      t.stringContent ++
        (shown ⟨.template false, d, ops⟩ (front ++ escapeLiteral t) rest).map Scanner.content := by
  induction t generalizing front with
  | nil => rw [escapeLiteral, List.append_nil]; rfl
  | cons c t ih =>
      have hcons : Text.stringContent (c :: t) = (false, some c) :: Text.stringContent t := rfl
      cases escapeLiteral_cases d ops c t hrest with
      | inl h =>
          have hnext := ih (front ++ ['\\'] ++ [c])
          rw [h, List.cons_append, shown_skip .escapeTemplate, List.cons_append,
            shown_visit .escapedTemplate, List.map_cons, content_template, hcons]
          simp only [List.append_assoc] at hnext ⊢
          exact congrArg _ hnext
      | inr h =>
          have hnext := ih (front ++ [c])
          rw [h.1, List.cons_append, shown_visit h.2, List.map_cons, content_template, hcons]
          simp only [List.append_assoc] at hnext ⊢
          exact congrArg _ hnext

section Literals

variable {t : Text}

theorem literalPieces_of_ne_nil (h : t ≠ []) :
    literalPieces t = [templateMark :: escapeLiteral t ++ [templateMark]] := by
  rw [literalPieces_eq, if_neg h]

private theorem reads_opening (next : Option Char) :
    outermost.Reads templateMark next (.skip 1 ⟨.template false, 0, []⟩) :=
  .openTemplate

theorem content_literal (t : Text) :
    Text.content (templateMark :: escapeLiteral t ++ [templateMark]) = t.stringContent := by
  have hlast : shown ⟨.template false, 0, []⟩ ([] ++ [templateMark] ++ escapeLiteral t)
      [templateMark] = [] := shown_skip .closeTemplate
  rw [Text.content_eq, List.cons_append, shown_skip (reads_opening _),
    shown_escapeLiteral 0 [] _ t (by decide), hlast, List.map_nil, List.append_nil]

/-- In front of its last mark the literal is read as literal text of one template literal. -/
theorem pass?_literal (t : Text) :
    outermost.pass? (templateMark :: escapeLiteral t) = some ⟨.template false, 0, []⟩ := by
  have hinside := @pass?_escapeLiteral 0 [] t [] nofun
  rw [List.append_nil] at hinside
  rw [pass?_skip (reads_opening _) nofun]
  exact hinside

/-- The last mark of the literal is the one that closes it. -/
theorem reaches_last_mark (t : Text) :
    (Scanner.start (templateMark :: escapeLiteral t ++ [templateMark])).Reaches
        (.between (templateMark :: escapeLiteral t) [templateMark] ⟨.template false, 0, []⟩) ∧
      (Scanner.between (templateMark :: escapeLiteral t) [templateMark]
          ⟨.template false, 0, []⟩).round =
        .between (templateMark :: escapeLiteral t ++ [templateMark]) [] outermost := by
  have hafter := after_of_pass? (pass?_literal t)
  have hcut : Cut outermost (templateMark :: escapeLiteral t) [templateMark] :=
    cut_of_head (fun _ => by decide)
  refine ⟨?_, Scanner.round_skip .closeTemplate⟩
  have hreach := Scanner.reaches_cut hcut []
  rw [hafter] at hreach
  rw [Scanner.start_between]
  exact hreach

theorem finish_literal (t : Text) :
    (Scanner.start (templateMark :: escapeLiteral t ++ [templateMark])).finish =
      .between (templateMark :: escapeLiteral t ++ [templateMark]) [] outermost := by
  have hcut : Cut outermost (templateMark :: escapeLiteral t) [templateMark] :=
    cut_of_head (fun _ => by decide)
  have hlast : after ⟨.template false, 0, []⟩ [templateMark] = outermost :=
    after_skip .closeTemplate
  rw [Scanner.finish_start, hcut.after_append, after_of_pass? (pass?_literal t), hlast]

/-- A text without the opening of a tag is literal text all the way. -/
theorem pieces_of_no_tag (pragmas : Pragmas) (h : ¬ tagOpening <:+: t) :
    pieces pragmas t = .ok (literalPieces t) := by
  have hnone : beforeTag? t = none := by
    cases hb : beforeTag? t with
    | none => rfl
    | some before =>
        obtain ⟨back, rfl⟩ := exists_of_beforeTag? hb
        exact absurd ⟨before, back, List.append_assoc ..⟩ h
  rw [pieces.eq_def]
  simp only [hnone]

end Literals

/-- The literal that is written for a text shows a scan the text and nothing of it as code, and the
scan ends behind the mark that closes the literal, at the top of code. A template without a tag is
that literal, or empty if the template is. -/
theorem literal_shows_text (pragmas : Pragmas) (t : Text) :
    (t ≠ [] →
      ∃ inner, literalPieces t = [inner ++ [templateMark]] ∧
        Text.content (inner ++ [templateMark]) = t.stringContent ∧
        (Scanner.start (inner ++ [templateMark])).finish =
          .between (inner ++ [templateMark]) [] outermost ∧
        (Scanner.start (inner ++ [templateMark])).Reaches
          (.between inner [templateMark] ⟨.template false, 0, []⟩) ∧
        (Scanner.between inner [templateMark] ⟨.template false, 0, []⟩).round =
          (Scanner.start (inner ++ [templateMark])).finish) ∧
    (¬ tagOpening <:+: t →
      ∃ out, compile pragmas t = .ok out ∧ (out = [] ↔ t = []) ∧
        out.content = t.stringContent) := by
  refine ⟨?_, ?_⟩
  · intro ht
    obtain ⟨hreach, hround⟩ := reaches_last_mark t
    exact ⟨templateMark :: escapeLiteral t, literalPieces_of_ne_nil ht, content_literal t,
      finish_literal t, hreach, hround.trans (finish_literal t).symm⟩
  · intro hnone
    have hcompile : compile pragmas t = .ok (List.intercalate " + ".toList (literalPieces t)) :=
      compile_eq_ok_iff.mpr ⟨_, pieces_of_no_tag pragmas hnone, rfl⟩
    refine ⟨_, hcompile, ?_⟩
    by_cases ht : t = []
    · subst ht
      exact ⟨iff_of_true rfl rfl, rfl⟩
    · rw [literalPieces_of_ne_nil ht, List.intercalate_singleton]
      exact ⟨iff_of_false nofun ht, content_literal t⟩

/-- The marks of template literals, and what would open an interpolation if it were not escaped. -/
theorem literal_shows_text_marks :
    "\x60\\$\x7b\u00e9$".toList ≠ [] ∧ ¬ tagOpening <:+: "\x60\\$\x7b\u00e9$".toList ∧
    (∃ inner, literalPieces "\x60\\$\x7b\u00e9$".toList = [inner ++ [templateMark]] ∧
      Text.content (inner ++ [templateMark]) = Text.stringContent "\x60\\$\x7b\u00e9$".toList) ∧
    compile {} "\x60\\$\x7b\u00e9$".toList = .ok "\x60\\\x60\\\\\\$\x7b\u00e9$\x60".toList ∧
    Text.content "\x60\\\x60\\\\\\$\x7b\u00e9$\x60".toList =
      Text.stringContent "\x60\\$\x7b\u00e9$".toList := by
  have hne : "\x60\\$\x7b\u00e9$".toList ≠ [] := by decide
  have hnone : ¬ tagOpening <:+: "\x60\\$\x7b\u00e9$".toList := by decide
  have hout : compile {} "\x60\\$\x7b\u00e9$".toList =
      .ok "\x60\\\x60\\\\\\$\x7b\u00e9$\x60".toList := by
    rw [compile, pieces.eq_def]
    rfl
  obtain ⟨hliteral, htemplate⟩ := literal_shows_text {} "\x60\\$\x7b\u00e9$".toList
  obtain ⟨inner, hpieces, hcontent, -⟩ := hliteral hne
  obtain ⟨out, hcompile, -, hread⟩ := htemplate hnone
  cases hout.symm.trans hcompile
  exact ⟨hne, hnone, ⟨inner, hpieces, hcontent⟩, hout, hread⟩

end TemplateText

end BindingCompiler
