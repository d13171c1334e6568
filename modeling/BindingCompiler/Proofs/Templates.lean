import BindingCompiler.Proofs.Results
import BindingCompiler.Proofs.Tags

/-!
Templates, tag by tag. The first tag of a template is found and compiled as if it stood alone, and
what follows it as a template of its own; the places of all problems are moved accordingly.
-/

namespace BindingCompiler.TemplateText

theorem exists_of_beforeTag? {t before : Text} (h : beforeTag? t = some before) :
    ∃ back, t = before ++ (tagOpening ++ back) := by
  induction t generalizing before with
  | nil => cases h
  | cons c t ih =>
      rw [beforeTag?] at h
      split at h
      · next hp =>
          cases h
          obtain ⟨back, hback⟩ := List.isPrefixOf_iff_prefix.mp hp
          exact ⟨back, hback.symm⟩
      · obtain ⟨rest, hrest, rfl⟩ := Option.map_eq_some_iff.mp h
        obtain ⟨back, rfl⟩ := ih hrest
        exact ⟨back, rfl⟩

/-- The call for a tag depends on its expression alone, but for the places of problems. -/
theorem tagCall_between (pragmas : Pragmas) (front body back : Text) (hf : front ≠ []) :
    tagCall pragmas (front ++ (body ++ back)) front.byteLength (Text.byteLength (front ++ body)) =
      if body.isAllBlank then
        .error (.found .missingExpression (Text.byteLength (front ++ body) - 1))
      else
        ((FilterChain.compile body.trim pragmas.filter).mapError
          (·.map fun problem => (problem.shift (front.byteLength + body.indent)).withinTag)).map
          fun compiled => pragmas.template ++ '(' :: compiled ++ [')'] := by
  have hslice := Text.slice?_append front body back
  rw [← Text.byteLength_append] at hslice
  obtain ⟨last, hstop⟩ : ∃ last, Text.byteLength (front ++ body) = last + 1 := by
    have hpos : front.byteLength ≠ 0 := mt Text.byteLength_eq_zero_iff.mp hf
    exact ⟨Text.byteLength (front ++ body) - 1, by rw [Text.byteLength_append]; omega⟩
  rw [hstop] at hslice ⊢
  simp only [tagCall, hslice]
  cases body.isAllBlank with
  | true => rfl
  | false =>
      rw [if_neg Bool.false_ne_true, if_neg Bool.false_ne_true]
      cases FilterChain.compile body.trim pragmas.filter <;> rfl

theorem length_behind_tag (before body rest : Text) :
    rest.length < (before ++ (tagOpening ++ (body ++ (tagClosing ++ rest)))).length := by
  simp only [List.length_append, tagOpening, List.length_cons]
  omega

/-- A template is the text in front of its first tag, the call for the tag, and the pieces of the
template behind it. -/
theorem pieces_tag (pragmas : Pragmas) {before body rest : Text} (hbody : body.Balanced)
    (hb : beforeTag? (before ++ (tagOpening ++ (body ++ (tagClosing ++ rest)))) = some before) :
    pieces pragmas (before ++ (tagOpening ++ (body ++ (tagClosing ++ rest)))) =
      (if body.isAllBlank then
        .error (.found .missingExpression (before.byteLength + body.byteLength + 1))
      else
        ((FilterChain.compile body.trim pragmas.filter).mapError
          (·.map fun problem =>
            (problem.shift (before.byteLength + 2 + body.indent)).withinTag)) >>= fun compiled =>
        ((pieces pragmas rest).mapError
          (·.map (·.shift (before.byteLength + body.byteLength + 4)))) >>= fun others =>
        .ok (literalPieces before ++ (pragmas.template ++ '(' :: compiled ++ [')']) :: others)) := by
  -- The places of the tag, in the offsets that the search for its end and the call work with.
  have hopen : Text.byteLength (before ++ tagOpening) = before.byteLength + 2 :=
    Text.byteLength_append ..
  have hstop : Text.byteLength (before ++ tagOpening ++ body) =
      before.byteLength + 2 + body.byteLength := by
    rw [Text.byteLength_append, hopen]
  have hstart : before.byteLength + tagOpening.byteLength = before.byteLength + 2 := rfl
  have hend := tagEnd_eq_ok (before ++ tagOpening) rest hbody
  have hcall := tagCall_between pragmas (before ++ tagOpening) body (tagClosing ++ rest)
    (by simp [tagOpening])
  have hrest := Text.rest?_append (before ++ tagOpening ++ body ++ tagClosing) rest
  have hbehind : Text.byteLength (before ++ tagOpening ++ body ++ tagClosing) =
      before.byteLength + 2 + body.byteLength + 2 := by
    rw [Text.byteLength_append, hstop]
    rfl
  rw [hbehind] at hrest
  rw [hstop, hopen] at hend hcall
  rw [List.append_assoc before tagOpening] at hend hcall
  simp only [List.append_assoc] at hrest
  have hlast : before.byteLength + 2 + body.byteLength - 1 =
      before.byteLength + body.byteLength + 1 := by omega
  have hfour : before.byteLength + 2 + body.byteLength + 2 =
      before.byteLength + body.byteLength + 4 := by omega
  rw [pieces.eq_def]
  simp only [hb, hstart, hend, ok_bind, hcall, hrest, length_behind_tag, dif_pos]
  rw [hlast, hfour]
  cases body.isAllBlank with
  | true => rfl
  | false => cases FilterChain.compile body.trim pragmas.filter <;> rfl

/-- Every template is taken apart at its first tag, if it has one. -/
theorem pieces_cases {pragmas : Pragmas} {t : Text} {parts : List Text}
    (h : pieces pragmas t = .ok parts) :
    parts = literalPieces t ∨
      ∃ before body rest compiled others,
        t = before ++ (tagOpening ++ (body ++ (tagClosing ++ rest))) ∧ body.Balanced ∧
        FilterChain.compile body.trim pragmas.filter = .ok compiled ∧
        pieces pragmas rest = .ok others ∧
        parts = literalPieces before ++ (pragmas.template ++ '(' :: compiled ++ [')']) :: others := by
  cases hb : beforeTag? t with
  | none =>
      rw [pieces.eq_def] at h
      simp only [hb] at h
      cases h
      exact .inl rfl
  | some before =>
      obtain ⟨back, rfl⟩ := exists_of_beforeTag? hb
      have hstop : ∃ stop, tagEnd (before ++ (tagOpening ++ back))
          (Text.byteLength (before ++ tagOpening)) = .ok stop := by
        rw [pieces.eq_def] at h
        simp only [hb] at h
        obtain ⟨stop, hstop, -⟩ := exists_of_bind_eq_ok h
        rw [Text.byteLength_append]
        exact ⟨stop, hstop⟩
      obtain ⟨stop, hstop⟩ := hstop
      rw [← List.append_assoc] at hstop
      obtain ⟨body, rest, rfl, hbody, -⟩ := exists_body_of_tagEnd hstop
      rw [pieces_tag pragmas hbody hb] at h
      split at h
      · cases h
      · obtain ⟨compiled, hcompiled, h⟩ := exists_of_bind_eq_ok h
        obtain ⟨others, hothers, h⟩ := exists_of_bind_eq_ok h
        cases h
        exact .inr ⟨before, body, rest, compiled, others, rfl, hbody,
          eq_ok_of_mapError_eq_ok hcompiled, eq_ok_of_mapError_eq_ok hothers, rfl⟩

theorem literalPieces_eq (t : Text) :
    literalPieces t = if t = [] then [] else [templateMark :: escapeLiteral t ++ [templateMark]] := by
  cases t <;> rfl

theorem compile_eq_error_iff {pragmas : Pragmas} {t : Text} {failure : Failure} :
    compile pragmas t = .error failure ↔ pieces pragmas t = .error failure := by
  rw [compile]
  cases pieces pragmas t with
  | error f =>
      exact ⟨fun h => congrArg Except.error (Except.error.inj h),
        fun h => congrArg Except.error (Except.error.inj h)⟩
  | ok parts => exact iff_of_false nofun nofun

theorem compile_eq_ok_iff {pragmas : Pragmas} {t out : Text} :
    compile pragmas t = .ok out ↔
      ∃ parts, pieces pragmas t = .ok parts ∧ List.intercalate " + ".toList parts = out := by
  rw [compile]
  cases pieces pragmas t with
  | error f => exact iff_of_false nofun nofun
  | ok parts =>
      constructor
      · intro h
        exact ⟨parts, rfl, Except.ok.inj h⟩
      · intro h
        obtain ⟨others, hothers, h⟩ := h
        cases hothers
        exact congrArg Except.ok h

end BindingCompiler.TemplateText
