import BindingCompiler.Compiler
import BindingCompiler.Proofs.Enclosure

/-!
The scopes of an evaluator whose body is balanced. The source of the function opens four braces in
front of the body and closes them behind it; the body is read inside them all the way and leaves
them as they were.
-/

namespace BindingCompiler

open Nesting

/-- Inside so many braces, a text that closes none of them is read below all of them. -/
theorem Scanner.le_depth_of_reaches {n m : Nesting} {mid rest front : Text} {braces : Nat}
    {outer : List Nat} {s : Scanner} (cut : Cut n mid rest) (hpass : n.pass? mid = some m)
    (ho : ∀ o ∈ outer, o < braces)
    (h : (between front (mid ++ rest) (n.inside braces outer)).Reaches s)
    (hs : s.position ≤ Text.byteLength (front ++ mid)) : braces ≤ s.nesting.depth := by
  induction cut generalizing front with
  | here =>
      obtain ⟨mid, rest, -, -, rfl⟩ := exists_cut_of_reaches h
      have hnil : mid = [] := by
        rw [position_between, Text.byteLength_append, List.append_nil] at hs
        exact Text.byteLength_eq_zero_iff.mp (by omega)
      rw [hnil]
      exact Nat.le_add_left _ _
  | @visit n within c mid rest hr _ ih =>
      by_cases hu : n.Unmatched c
      · simp [pass?_unmatched hu] at hpass
      · rw [pass?_visit hr.visit_in_front hu] at hpass
        cases (reaches_visit (hr.inside_visit hu ho)).mp h with
        | inl h =>
            rw [h]
            exact Nat.le_add_left _ _
        | inr h => exact ih hpass h (by rwa [List.append_assoc])
  | @skip n next c mid rest hr _ ih =>
      by_cases hu : n.Unmatched c
      · simp [pass?_unmatched hu] at hpass
      · rw [pass?_skip hr.skip_in_front hu] at hpass
        cases (reaches_skip (hr.inside_skip hu)).mp h with
        | inl h =>
            rw [h]
            exact Nat.le_add_left _ _
        | inr h => exact ih hpass h (by rwa [List.append_assoc])
  | @opening d ops mid rest _ ih =>
      cases reaches_opening.mp h with
      | inl h =>
          rw [h]
          exact Nat.le_add_left _ _
      | inr h =>
          have hnext : (between (front ++ ['$', '{']) (mid ++ rest)
              (inside ⟨.code, d + 1, d :: ops⟩ braces outer)).Reaches s := by
            rw [inside_opened]
            exact h
          exact ih hpass hnext (by rwa [List.append_assoc])

theorem isInert_parameterName (role : Text) (hr : ∀ c ∈ role, IsInert c) (compiler : Nat) :
    ∀ c ∈ parameterName role compiler, IsInert c := by
  intro c hc
  have hunder : ∀ c ∈ "__".toList, IsInert c := isInert_of_all (by decide)
  simp only [parameterName, List.mem_append, List.mem_cons] at hc
  rcases hc with ((hc | hc) | rfl | hc) | hc
  · exact hunder c hc
  · exact hr c hc
  · decide
  · have hdigit := Nat.isDigit_of_mem_toDigits (by decide) (by decide) hc
    exact isInert_of_isNameChar (by simp [isNameChar, Char.isAlphanum, hdigit])
  · exact hunder c hc

namespace Evaluator

/-- What the source of the function holds in front of the body. -/
def opening (e : Evaluator) : Text :=
  "function (".toList ++ List.intercalate ", ".toList e.parameters ++ ") \x7b".toList ++
    ("with (this) \x7bwith (state) \x7bwith (".toList ++ e.localsName ++ ") \x7b".toList)

def closing : Text :=
  "\x7d\x7d\x7d".toList ++ "\x7d".toList

section Nested

variable {function parameters opened scopes locals : Text}

private theorem nested_append (body close last : Text) :
    function ++ parameters ++ opened ++ (scopes ++ locals ++ opened ++ body ++ close) ++ last =
      function ++ parameters ++ opened ++ (scopes ++ locals ++ opened) ++
        (body ++ (close ++ last)) := by
  simp only [List.append_assoc]

private theorem pass?_nested (hf : Text.Balanced function) (hp : Text.Balanced parameters)
    (hone : pass? ⟨.code, 0, []⟩ opened = some ⟨.code, 1, []⟩)
    (hthree : pass? ⟨.code, 1, []⟩ scopes = some ⟨.code, 3, []⟩)
    (hl : ∀ c ∈ locals, IsInert c)
    (hfour : pass? ⟨.code, 3, []⟩ opened = some ⟨.code, 4, []⟩) :
    outermost.pass? (function ++ parameters ++ opened ++ (scopes ++ locals ++ opened)) =
      some ⟨.code, 4, []⟩ := by
  have houter := (Text.balanced_iff _).mp (hf.append hp)
  have hfunction := (pass?_append_of_code houter rfl).trans hone
  have hscopes := (pass?_append_of_code hthree rfl).trans (pass?_inert rfl hl)
  have hinner := (pass?_append_of_code hscopes rfl).trans hfour
  exact (pass?_append_of_code hfunction rfl).trans hinner

end Nested

theorem source_eq (e : Evaluator) : e.source = e.opening ++ (e.body ++ closing) :=
  nested_append ..

private theorem isInert_localsName (e : Evaluator) : ∀ c ∈ e.localsName, IsInert c :=
  isInert_parameterName "locals".toList (isInert_of_all (by decide)) e.compiler

private theorem isInert_restName (e : Evaluator) : ∀ c ∈ e.restName, IsInert c :=
  isInert_parameterName "args".toList (isInert_of_all (by decide)) e.compiler

private theorem balanced_parameters (e : Evaluator) :
    Text.Balanced (List.intercalate ", ".toList e.parameters) := by
  have hcomma : Text.Balanced ", ".toList := by decide
  have hdots : Text.Balanced "...".toList := by decide
  refine hcomma.join ?_
  intro p hp
  cases hp with
  | head => exact Text.balanced_of_inert (isInert_localsName e)
  | tail _ hp =>
      rw [List.mem_singleton.mp hp]
      exact hdots.append (Text.balanced_of_inert (isInert_restName e))

theorem pass?_opening (e : Evaluator) : outermost.pass? e.opening = some ⟨.code, 4, []⟩ := by
  have hone : pass? ⟨.code, 0, []⟩ ") \x7b".toList = some ⟨.code, 1, []⟩ := by decide +kernel
  have hthree : pass? ⟨.code, 1, []⟩ "with (this) \x7bwith (state) \x7bwith (".toList =
      some ⟨.code, 3, []⟩ := by decide +kernel
  have hfour : pass? ⟨.code, 3, []⟩ ") \x7b".toList = some ⟨.code, 4, []⟩ := by decide +kernel
  have hfunction : Text.Balanced "function (".toList := by decide +kernel
  exact pass?_nested hfunction (balanced_parameters e) hone hthree (isInert_localsName e) hfour

/-- The body is read inside the four braces in front of it, from code to code, and the braces behind
it close those and nothing else. -/
structure Enclosed (e : Evaluator) : Prop where
  source : e.source = e.opening ++ (e.body ++ closing)
  entered : (Scanner.start e.source).Reaches
    (.between e.opening (e.body ++ closing) ⟨.code, 4, []⟩)
  within : ∀ s, (Scanner.start e.source).Reaches s → e.opening.byteLength ≤ s.position →
    s.position ≤ Text.byteLength (e.opening ++ e.body) → 4 ≤ s.nesting.depth
  left : (Scanner.start e.source).Reaches
    (.between (e.opening ++ e.body) closing ⟨.code, 4, []⟩)
  balanced : e.source.Balanced

theorem enclosed_of_balanced {e : Evaluator} (h : e.body.Balanced) : e.Enclosed := by
  have hopening := pass?_opening e
  have hinside : outermost.inside 4 [] = ⟨.code, 4, []⟩ := inside_outermost 4 []
  have hbody := (Text.balanced_iff _).mp h
  have hnone : ∀ o ∈ ([] : List Nat), o < 4 := nofun
  have hbelow : pass? ⟨.code, 4, []⟩ e.body = some ⟨.code, 4, []⟩ := by
    rw [← hinside]
    exact pass?_inside hbody hnone
  -- Both ends of the body are in code, where texts can be cut.
  have hleft : outermost.pass? (e.opening ++ e.body) = some ⟨.code, 4, []⟩ :=
    (pass?_append_of_code hopening rfl).trans hbelow
  have hfront : Cut outermost e.opening (e.body ++ closing) :=
    cut_of_code (by rw [after_of_pass? hopening])
  have hback : Cut outermost (e.opening ++ e.body) closing :=
    cut_of_code (by rw [after_of_pass? hleft])
  have hstart : Scanner.start e.source =
      .between [] (e.opening ++ (e.body ++ closing)) outermost := by
    rw [source_eq, Scanner.start_between]
  refine ⟨source_eq e, ?_, ?_, ?_, ?_⟩
  · have hreach := Scanner.reaches_cut hfront []
    rwa [after_of_pass? hopening, ← hstart] at hreach
  · intro s hs hge hle
    rw [hstart] at hs
    cases Scanner.reaches_across hfront hs with
    | inl hlt => exact absurd hlt (Nat.not_lt.mpr hge)
    | inr hs =>
        rw [after_of_pass? hopening, ← hinside] at hs
        have hcut : Cut outermost e.body closing :=
          cut_of_code (by rw [after_of_pass? hbody]; rfl)
        exact Scanner.le_depth_of_reaches hcut hbody hnone hs hle
  · have hreach := Scanner.reaches_cut hback []
    rwa [after_of_pass? hleft, List.append_assoc, ← hstart] at hreach
  · rw [Text.balanced_iff, source_eq, ← List.append_assoc, pass?_append_of_code hleft rfl]
    decide

end Evaluator

theorem body_evaluatorFor (c : Compiler) (body : Text) :
    (c.evaluatorFor body).2.2.body = body := by
  simp only [Compiler.evaluatorFor]
  split
  · next hfind =>
      have hfound := List.find?_some hfind
      exact beq_iff_eq.mp hfound
  · rfl

/-- Whatever a template holds, its compiled text is balanced and stays inside the scopes of its
evaluator. -/
theorem compiled_template_enclosed (c : Compiler) (template : Text)
    (hT : ∀ ch ∈ c.pragmas.template, isNameChar ch = true)
    (hF : ∀ ch ∈ c.pragmas.filter, isNameChar ch = true) :
    (∀ out, TemplateText.compile c.pragmas template = .ok out → out.Balanced) ∧
    ∀ c' slot evaluator, c.compile (.source .template) template = (c', .ok (slot, evaluator)) →
      evaluator.Enclosed := by
  have hbalanced : ∀ out, TemplateText.compile c.pragmas template = .ok out → out.Balanced :=
    fun out h => TemplateText.balanced_of_compile (fun ch hc => isInert_of_isNameChar (hT ch hc))
      (fun ch hc => isInert_of_isNameChar (hF ch hc)) h
  refine ⟨hbalanced, ?_⟩
  intro c' slot evaluator h
  apply Evaluator.enclosed_of_balanced
  cases hout : TemplateText.compile c.pragmas template with
  | error failure =>
      simp only [Compiler.compile, Compiler.bodyFor, hout, Except.map] at h
      cases h
  | ok out =>
      simp only [Compiler.compile, Compiler.bodyFor, hout, Except.map] at h
      have hbody : evaluator.body = getterBody out := by
        have hentry := Except.ok.inj (Prod.mk.inj h).2
        rw [← body_evaluatorFor c (getterBody out), hentry]
      have hreturn : Text.Balanced "return ".toList := by decide +kernel
      rw [hbody]
      exact hreturn.append (hbalanced out hout)

/-- Literal text that looks like the end of its literal and of the function around it. -/
theorem compiled_template_enclosed_marks :
    (∀ ch ∈ (Pragmas.template {}), isNameChar ch = true) ∧
    (∀ ch ∈ (Pragmas.filter {}), isNameChar ch = true) ∧
    ∃ c : Compiler, ∃ evaluator : Evaluator,
      Compiler.compile ⟨7, {}, []⟩ (.source .template) "\x60\x7d\x7b\x7b n \x7d\x7d".toList =
        (c, .ok (0, evaluator)) ∧
      evaluator.body = "return \x60\\\x60\x7d\x60 + __$n(n)".toList ∧ evaluator.Enclosed := by
  have hT : ∀ ch ∈ (Pragmas.template {}), isNameChar ch = true := List.all_eq_true.mp (by decide)
  have hF : ∀ ch ∈ (Pragmas.filter {}), isNameChar ch = true := List.all_eq_true.mp (by decide)
  have hrest : TemplateText.pieces {} [] = .ok [] := by
    rw [TemplateText.pieces.eq_def]
    rfl
  have hpieces := @TemplateText.pieces_tag {} "\x60\x7d".toList " n ".toList [] (by decide) rfl
  rw [hrest] at hpieces
  have hcompile : TemplateText.compile {} "\x60\x7d\x7b\x7b n \x7d\x7d".toList =
      .ok "\x60\\\x60\x7d\x60 + __$n(n)".toList :=
    congrArg (·.map (List.intercalate " + ".toList)) hpieces
  have hsource : Compiler.compile ⟨7, {}, []⟩ (.source .template)
      "\x60\x7d\x7b\x7b n \x7d\x7d".toList =
        (⟨7, {}, [⟨7, "return \x60\\\x60\x7d\x60 + __$n(n)".toList⟩]⟩,
          .ok (0, ⟨7, "return \x60\\\x60\x7d\x60 + __$n(n)".toList⟩)) := by
    simp only [Compiler.compile, Compiler.bodyFor, hcompile]
    rfl
  exact ⟨hT, hF, _, _, hsource, rfl,
    (compiled_template_enclosed ⟨7, {}, []⟩ _ hT hF).2 _ _ _ hsource⟩

end BindingCompiler
