import BindingCompiler.Proofs.Evidence

/-!
Problems at boundaries. A problem is placed where a character begins or ends, with one exception:
a tag that holds nothing but blanks is reported at its last byte, and the last blank may take more
than one.
-/

namespace BindingCompiler

/-- No text is cut inside a character. -/
theorem Text.not_isBoundary_inside {front back : Text} {c : Char} {offset : Nat}
    (behind : front.byteLength < offset) (before : offset < front.byteLength + c.utf8Size) :
    ¬ Text.IsBoundary (front ++ c :: back) offset := by
  rintro ⟨left, right, h, rfl⟩
  cases List.append_eq_append_iff.mp h with
  | inl hl =>
      obtain ⟨more, rfl, hmore⟩ := hl
      rw [byteLength_append] at behind before
      cases more with
      | nil => exact Nat.lt_irrefl _ behind
      | cons d more =>
          cases hmore
          rw [byteLength] at before
          omega
  | inr hr =>
      obtain ⟨more, rfl, -⟩ := hr
      rw [byteLength_append] at behind
      omega

/-- What a text shows is found where it can be cut, but for an expression that is missing. -/
theorem Cause.Evident.isBoundary {t : Text} {cause : Cause} {position : Nat}
    (h : cause.Evident t position) (hc : cause ≠ .missingExpression) : t.IsBoundary position := by
  cases h with
  | @invalidStart kind front c back split => exact ⟨front, c :: back, split, rfl⟩
  | @invalidCharacter kind front c back split => exact ⟨front, c :: back, split, rfl⟩
  | @unclosedArguments kind front back split => exact ⟨front, '(' :: back, split, rfl⟩
  | @missingFilterName front back split => exact ⟨front, '(' :: back, split, rfl⟩
  | @missingMethodName front blanks back split =>
      exact ⟨front ++ [MethodCall.marker], blanks ++ back, by simp [split],
        Text.byteLength_append ..⟩
  | @trailingText kind front blanks c back split =>
      exact ⟨front ++ ')' :: blanks, c :: back, by simp [split], rfl⟩
  | @missingFilter front back split =>
      exact ⟨front ++ FilterChain.separator, back, by simp [split], Text.byteLength_append ..⟩
  | missingExpression => exact absurd rfl hc
  | unterminatedAtEnd => exact ⟨t, [], (List.append_nil t).symm, rfl⟩
  | @unterminatedBehind front back split =>
      exact ⟨front ++ ['}'], back, by simp [split], Text.byteLength_append ..⟩

/-- The cause of a failure, if the text is at fault. -/
def Failure.cause? : Failure → Option Cause
  | .problem p => some p.cause
  | .stuck => none

/-- The place from which a problem is seen does not change its cause. -/
theorem Failure.cause?_shift (failure : Failure) (bytes : Nat) :
    (failure.map (·.shift bytes)).cause? = failure.cause? := by
  cases failure <;> rfl

/-- A reference that cannot be read is at fault itself. -/
theorem Reference.kind?_of_byHeader {kind : ReferenceKind} {t : Text} {failure : Failure}
    (h : byHeader kind t = .error failure) :
    ∃ cause, failure.cause? = some cause ∧ cause.kind? = some kind := by
  rw [byHeader] at h
  split at h
  · cases h
    exact ⟨_, rfl, rfl⟩
  · generalize t.takeWhile isHeaderChar = header at h
    generalize t.dropWhile isHeaderChar = rest at h
    cases rest with
    | nil =>
        rw [endHeader] at h
        split at h
        · cases h
          exact ⟨_, rfl, rfl⟩
        · cases h
    | cons c rest =>
        rw [endHeader] at h
        split at h
        · cases h
          exact ⟨_, rfl, rfl⟩
        · split at h
          · cases h
            exact ⟨_, rfl, rfl⟩
          · split at h
            · cases h
              exact ⟨_, rfl, rfl⟩
            · cases h

namespace FilterChain

variable {pragma value : Text} {segment : Segment} {failure : Failure}

theorem cause_of_apply (h : apply pragma value segment = .error failure) :
    ∃ cause, failure.cause? = some cause ∧
      (cause = .missingFilter ∨ cause.kind? = some .filter) := by
  by_cases hne : segment.text.trim = []
  · rw [apply_of_trim_eq_nil hne] at h
    cases h
    exact ⟨_, rfl, .inl rfl⟩
  · cases hread : Reference.read .filter segment.text.trim 0 with
    | error place =>
        rw [apply_of_read_error hne hread] at h
        cases h
        rw [Reference.read_start] at hread
        obtain ⟨cause, hcause, hkind⟩ := Reference.kind?_of_byHeader hread
        exact ⟨cause, by rw [Failure.cause?_shift, hcause], .inr hkind⟩
    | ok r =>
        obtain ⟨-, rest, hrest⟩ := rest_of_read hread
        rw [apply_of_read hread hrest] at h
        split at h
        · cases h
        · cases h
          exact ⟨_, rfl, .inr rfl⟩

/-- What is wrong with a chain is wrong with one of its filters. -/
theorem cause_of_compile {e : Text} (h : compile e pragma = .error failure) :
    ∃ cause, failure.cause? = some cause ∧
      (cause = .missingFilter ∨ cause.kind? = some .filter) := by
  rw [compile, split_eq, ok_bind] at h
  split at h
  · cases h
  · obtain ⟨segment, -, value, happly⟩ := exists_of_foldlM_error h
    exact cause_of_apply happly

end FilterChain

/-- What is wrong with an expression is wrong with one of its references to methods. -/
theorem MethodCall.Expands.cause {pragma : Text} {n : Nesting} {t : Text}
    {result : Except Failure Text} (h : Expands pragma n t result) {failure : Failure}
    (hfailure : result = .error failure) :
    ∃ cause, failure.cause? = some cause ∧ cause.kind? = some .method := by
  induction h generalizing failure with
  | unmarked => cases hfailure
  | unread first read =>
      cases hfailure
      rw [Failure.cause?_shift]
      exact Reference.kind?_of_byHeader read
  | refused first read inside called ih =>
      cases hfailure
      obtain ⟨a, inner, ha, hinner, rfl⟩ := exists_of_call_error called
      rw [Failure.cause?_shift, Failure.cause?_shift]
      exact ih a ha hinner
  | @replaced n front used rest r text result first read stop inside called behind _ ih =>
      cases result with
      | ok others => cases hfailure
      | error inner =>
          cases hfailure
          rw [Failure.cause?_shift]
          exact ih rfl

namespace TemplateText

/-- An expression is missing in a tag that holds nothing but blanks, and the problem is placed at
the last byte in front of the braces that close the tag. -/
theorem exists_blank_tag {pragmas : Pragmas} {t : Text} {p : Problem}
    (h : pieces pragmas t = .error (.problem p)) (hc : p.cause = .missingExpression) :
    ∃ before body rest, t = before ++ (tagOpening ++ (body ++ (tagClosing ++ rest))) ∧
      body.isAllBlank = true ∧
      p.position + 1 = Text.byteLength (before ++ (tagOpening ++ body)) := by
  have hmarks : tagOpening.byteLength = 2 ∧ tagClosing.byteLength = 2 := ⟨rfl, rfl⟩
  cases hb : beforeTag? t with
  | none =>
      rw [pieces.eq_def] at h
      simp only [hb] at h
      cases h
  | some before =>
      obtain ⟨back, rfl⟩ := exists_of_beforeTag? hb
      cases hstop : tagEnd (before ++ tagOpening ++ back)
          (Text.byteLength (before ++ tagOpening)) with
      | error place =>
          have hend := tagEnd_error_cases hstop
          rw [List.append_assoc, Text.byteLength_append] at hstop
          rw [pieces.eq_def] at h
          simp only [hb, hstop] at h
          cases h
          rcases hend with hend | ⟨_, _, _, _, hend⟩
          all_goals
            cases hend
            cases hc
      | ok stop =>
          obtain ⟨body, rest, rfl, hbody, -⟩ := exists_body_of_tagEnd hstop
          rw [pieces_tag pragmas hbody hb] at h
          split at h
          · next hblank =>
              cases h
              refine ⟨before, body, rest, rfl, hblank, ?_⟩
              simp only [Text.byteLength_append, hmarks]
              omega
          · cases hcompile : FilterChain.compile body.trim pragmas.filter with
            | error inner =>
                rw [hcompile] at h
                obtain ⟨cause, hcause, hkind⟩ := FilterChain.cause_of_compile hcompile
                cases inner with
                | stuck => cases hcause
                | problem q =>
                    cases h
                    cases hcause
                    have hq : q.cause = .missingExpression := hc
                    rw [hq] at hkind
                    rcases hkind with hkind | hkind
                    all_goals cases hkind
            | ok compiled =>
                rw [hcompile, ok_mapError, ok_bind] at h
                cases hothers : pieces pragmas rest with
                | ok others =>
                    rw [hothers] at h
                    cases h
                | error inner =>
                    rw [hothers] at h
                    cases inner with
                    | stuck => cases h
                    | problem q =>
                        cases h
                        -- The tag stands in the shorter template behind this one.
                        have hshorter := length_behind_tag before body rest
                        obtain ⟨front, blanks, others, rfl, hblank, hplace⟩ :=
                          exists_blank_tag hothers hc
                        refine ⟨before ++ (tagOpening ++ (body ++ (tagClosing ++ front))), blanks,
                          others, by simp only [List.append_assoc], hblank, ?_⟩
                        simp only [Problem.shift, Text.byteLength_append, hmarks] at hplace ⊢
                        omega
  termination_by t.length

/-- The problem is that a tag holds nothing but blanks, and the last of them takes more than one
byte. -/
def EndsInWideBlank (t : Text) (p : Problem) : Prop :=
  p.cause = .missingExpression ∧ ∃ (before blanks rest : Text) (last : Char),
    t = before ++ (tagOpening ++ (blanks ++ last :: (tagClosing ++ rest))) ∧
    (∀ c ∈ blanks, isBlank c = true) ∧ isBlank last = true ∧ 1 < last.utf8Size ∧
    p.position + 1 = Text.byteLength (before ++ (tagOpening ++ (blanks ++ [last])))

theorem isBoundary_iff_of_pieces {pragmas : Pragmas} {t : Text} {p : Problem}
    (h : pieces pragmas t = .error (.problem p)) :
    t.IsBoundary p.position ↔ ¬ EndsInWideBlank t p := by
  have hshown : p.cause.Evident t p.position := evident_of_pieces h
  constructor
  · rintro hboundary ⟨-, before, blanks, rest, last, rfl, -, -, hwide, hplace⟩
    have hsource : before ++ (tagOpening ++ (blanks ++ last :: (tagClosing ++ rest))) =
        before ++ (tagOpening ++ blanks) ++ last :: (tagClosing ++ rest) := by simp
    rw [hsource] at hboundary
    simp only [← List.append_assoc, Text.byteLength_append _ [last],
      Text.byteLength_singleton] at hplace
    simp only [← List.append_assoc] at hboundary
    exact Text.not_isBoundary_inside (by omega) (by omega) hboundary
  · intro hnarrow
    by_cases hc : p.cause = .missingExpression
    · obtain ⟨before, body, rest, rfl, hblank, hplace⟩ := exists_blank_tag h hc
      rcases body.eq_nil_or_concat with rfl | ⟨blanks, last, rfl⟩
      · -- The brace in front of the place is the second one that opens the tag.
        refine ⟨before ++ ['{'], '{' :: (tagClosing ++ rest), by simp [tagOpening], ?_⟩
        have hopen : Text.byteLength (tagOpening ++ []) = 2 := rfl
        rw [Text.byteLength_append, hopen] at hplace
        rw [Text.byteLength_append]
        exact (Nat.succ.inj hplace).symm
      · rw [List.concat_eq_append] at hblank hplace ⊢
        have hall := List.all_eq_true.mp hblank
        by_cases hwide : 1 < last.utf8Size
        · refine absurd ⟨hc, before, blanks, rest, last, by simp, ?_, ?_, hwide, hplace⟩ hnarrow
          · exact fun c hmem => hall c (List.mem_append_left _ hmem)
          · exact hall last (by simp)
        · have hone := last.utf8Size_pos
          refine ⟨before ++ (tagOpening ++ blanks), last :: (tagClosing ++ rest), by simp, ?_⟩
          simp only [Text.byteLength_append, Text.byteLength_singleton] at hplace ⊢
          omega
    · exact hshown.isBoundary hc

end TemplateText

/-- Every problem of a chain or of an expression is placed where the text can be cut, and so is
every problem of a template but that of a tag whose last blank takes more than one byte. -/
theorem problem_at_boundary (pragmas : Pragmas) (t : Text) :
    (∀ failure, FilterChain.compile t pragmas.filter = .error failure ∨
        MethodCall.expand t pragmas.method = .error failure →
      ∃ problem, failure = .problem problem ∧ t.IsBoundary problem.position) ∧
    ∀ failure, TemplateText.compile pragmas t = .error failure →
      ∃ problem, failure = .problem problem ∧
        (t.IsBoundary problem.position ↔ ¬ TemplateText.EndsInWideBlank t problem) := by
  refine ⟨?_, ?_⟩
  · have hplace {failure : Failure} {cause : Cause} (hshown : failure.Evident t)
        (hcause : failure.cause? = some cause) (hc : cause ≠ .missingExpression) :
        ∃ problem, failure = .problem problem ∧ t.IsBoundary problem.position := by
      cases failure with
      | stuck => cases hcause
      | problem p =>
          cases hcause
          exact ⟨p, rfl, Cause.Evident.isBoundary hshown hc⟩
    rintro failure (h | h)
    · have hshown := FilterChain.evident_of_compile h []
      rw [List.append_nil] at hshown
      obtain ⟨cause, hcause, hkind⟩ := FilterChain.cause_of_compile h
      refine hplace hshown hcause ?_
      rintro rfl
      rcases hkind with hkind | hkind
      all_goals cases hkind
    · have hexpands := MethodCall.expands_expand t pragmas.method
      rw [h] at hexpands
      obtain ⟨cause, hcause, hkind⟩ := hexpands.cause rfl
      refine hplace (MethodCall.evident_of_expand h) hcause ?_
      rintro rfl
      cases hkind
  · intro failure h
    have hpieces := TemplateText.compile_eq_error_iff.mp h
    cases failure with
    | stuck => exact absurd (TemplateText.evident_of_pieces hpieces) id
    | problem p => exact ⟨p, rfl, TemplateText.isBoundary_iff_of_pieces hpieces⟩

/-- A filter is missing behind characters of two bytes, and a tag holds only a blank of two
bytes. -/
theorem problem_at_boundary_wide :
    FilterChain.compile "\u00e9|>\u00a0".toList (Pragmas.filter {}) =
      .error (.problem ⟨.missingFilter, 4, false⟩) ∧
    Text.IsBoundary "\u00e9|>\u00a0".toList 4 ∧
    TemplateText.compile {} "\u00e9\x7b\x7b\u00a0\x7d\x7d".toList =
      .error (.problem ⟨.missingExpression, 5, false⟩) ∧
    ¬ Text.IsBoundary "\u00e9\x7b\x7b\u00a0\x7d\x7d".toList 5 := by
  have hfilter : FilterChain.compile "\u00e9|>\u00a0".toList (Pragmas.filter {}) =
      .error (.problem ⟨.missingFilter, 4, false⟩) := rfl
  have htag : TemplateText.compile {} "\u00e9\x7b\x7b\u00a0\x7d\x7d".toList =
      .error (.problem ⟨.missingExpression, 5, false⟩) := by
    rw [TemplateText.compile, TemplateText.pieces.eq_def]
    rfl
  obtain ⟨_, hproblem, hplace⟩ := (problem_at_boundary {} _).1 _ (.inl hfilter)
  cases hproblem
  obtain ⟨_, hproblem, hiff⟩ := (problem_at_boundary {} _).2 _ htag
  cases hproblem
  refine ⟨hfilter, hplace, htag, fun h => hiff.mp h ⟨rfl, ['\u00e9'], [], [], '\u00a0', rfl, ?_⟩⟩
  exact ⟨List.forall_mem_nil _, rfl, by decide, rfl⟩

/-- A tag whose only blank takes two bytes is reported inside that blank. -/
theorem problem_inside_blank :
    TemplateText.compile {} "\x7b\x7b\u00a0\x7d\x7d".toList =
      .error (.problem ⟨.missingExpression, 3, false⟩) ∧
    ¬ Text.IsBoundary "\x7b\x7b\u00a0\x7d\x7d".toList 3 := by
  refine ⟨?_, by decide⟩
  rw [TemplateText.compile, TemplateText.pieces.eq_def]
  rfl

end BindingCompiler
