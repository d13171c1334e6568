import BindingCompiler.Proofs.Chains
import BindingCompiler.Proofs.Expansion
import BindingCompiler.Proofs.Templates

/-!
The places of problems. Whatever the pass that finds a problem, and however deep in arguments,
filters and tags it is found, the text that was compiled shows at the place of the problem what its
cause says.
-/

namespace BindingCompiler

/-- The text shows what a cause says at an offset. -/
inductive Cause.Evident (t : Text) : Cause → Nat → Prop where
  | invalidStart {kind front c back} (split : t = front ++ c :: back)
      (start : cannotStartName c = true) : Evident t (.invalidStart kind) (Text.byteLength front)
  | invalidCharacter {kind front c back} (split : t = front ++ c :: back)
      (name : isNameChar c = false) (blank : isCodeBlank c = false) (opening : c ≠ '(') :
      Evident t (.invalidCharacter kind) (Text.byteLength front)
  | unclosedArguments {kind front back} (split : t = front ++ '(' :: back) :
      Evident t (.unclosedArguments kind) (Text.byteLength front)
  | missingFilterName {front back} (split : t = front ++ '(' :: back) :
      Evident t (.missingName .filter) (Text.byteLength front)
  /-- The name is missed behind a marker. The arguments that the marker stands in may end there, and
  so may the text. -/
  | missingMethodName {front blanks back}
      (split : t = front ++ MethodCall.marker :: (blanks ++ back))
      (blank : ∀ c ∈ blanks, isCodeBlank c = true) (next : ∀ c ∈ back.head?, c = '(' ∨ c = ')') :
      Evident t (.missingName .method) (Text.byteLength front + 1)
  | trailingText {kind front blanks c back} (split : t = front ++ ')' :: (blanks ++ c :: back))
      (blank : ∀ c ∈ blanks, isBlank c = true) (full : isBlank c = false) :
      Evident t (.trailingText kind) (Text.byteLength (front ++ ')' :: blanks))
  | missingFilter {front back} (split : t = front ++ (FilterChain.separator ++ back)) :
      Evident t .missingFilter (Text.byteLength front + 2)
  | missingExpression {front back position} (split : t = front ++ (TemplateText.tagClosing ++ back))
      (place : Text.byteLength front = position + 1) : Evident t .missingExpression position
  | unterminatedAtEnd : Evident t .unterminatedTag (Text.byteLength t)
  | unterminatedBehind {front back} (split : t = front ++ '}' :: back)
      (next : back.head? ≠ some '}') : Evident t .unterminatedTag (Text.byteLength front + 1)

theorem Cause.Evident.le_byteLength {t : Text} {cause : Cause} {position : Nat}
    (h : cause.Evident t position) : position ≤ t.byteLength := by
  have hmarker : MethodCall.marker.utf8Size = 1 := rfl
  have hbrace : Char.utf8Size '}' = 1 := rfl
  have hseparator : FilterChain.separator.byteLength = 2 := rfl
  cases h with
  | unterminatedAtEnd => exact Nat.le_refl _
  | invalidStart split | invalidCharacter split | unclosedArguments split
  | missingFilterName split | missingMethodName split | trailingText split | missingFilter split
  | missingExpression split | unterminatedBehind split =>
      rw [split]
      simp only [Text.byteLength_append, Text.byteLength, hmarker, hbrace, hseparator]
      omega

/-- What a text shows it shows behind any other text, that much further on. -/
theorem Cause.Evident.behind {t : Text} {cause : Cause} {position : Nat}
    (h : cause.Evident t position) (before : Text) :
    cause.Evident (before ++ t) (position + before.byteLength) := by
  have hplace (front : Text) : front.byteLength + before.byteLength =
      Text.byteLength (before ++ front) := by
    rw [Text.byteLength_append, Nat.add_comm]
  cases h with
  | @invalidStart kind front c back split start =>
      rw [hplace, split, ← List.append_assoc]
      exact .invalidStart rfl start
  | @invalidCharacter kind front c back split name blank opening =>
      rw [hplace, split, ← List.append_assoc]
      exact .invalidCharacter rfl name blank opening
  | @unclosedArguments kind front back split =>
      rw [hplace, split, ← List.append_assoc]
      exact .unclosedArguments rfl
  | @missingFilterName front back split =>
      rw [hplace, split, ← List.append_assoc]
      exact .missingFilterName rfl
  | @missingMethodName front blanks back split blank next =>
      rw [Nat.add_right_comm, hplace, split, ← List.append_assoc]
      exact .missingMethodName rfl blank next
  | @trailingText kind front blanks c back split blank full =>
      rw [hplace, ← List.append_assoc, split, ← List.append_assoc]
      exact .trailingText rfl blank full
  | @missingFilter front back split =>
      rw [Nat.add_right_comm, hplace, split, ← List.append_assoc]
      exact .missingFilter rfl
  | @missingExpression front back position split place =>
      refine .missingExpression (by rw [split, ← List.append_assoc]) ?_
      rw [Text.byteLength_append, place]
      omega
  | unterminatedAtEnd =>
      rw [hplace]
      exact .unterminatedAtEnd
  | @unterminatedBehind front back split next =>
      rw [Nat.add_right_comm, hplace, split, ← List.append_assoc]
      exact .unterminatedBehind rfl next

/-- A failure is the text's own, and the text shows its problem. -/
def Failure.Evident (t : Text) : Failure → Prop
  | .problem p => p.cause.Evident t p.position
  | .stuck => False

theorem Failure.Evident.behind {t : Text} {failure : Failure} (h : failure.Evident t)
    (before : Text) : (failure.map (·.shift before.byteLength)).Evident (before ++ t) := by
  cases failure with
  | problem p => exact Cause.Evident.behind h before
  | stuck => exact h

theorem Failure.Evident.withinTag {t : Text} {failure : Failure} (h : failure.Evident t) :
    (failure.map (·.withinTag)).Evident t := by
  cases failure with
  | problem p => exact h
  | stuck => exact h

namespace Reference

/-- Why a reference cannot be read shows in its text, whatever follows it, unless all that is wrong
is that its name is missing. -/
theorem evident_of_byHeader {kind : ReferenceKind} {t : Text} {failure : Failure}
    (h : byHeader kind t = .error failure) :
    (∀ back, failure.Evident (t ++ back)) ∨
      failure = .found (.missingName kind) 0 ∧ ∃ blanks rest : Text, t = blanks ++ rest ∧
        (∀ c ∈ blanks, isCodeBlank c = true) ∧ ∀ c ∈ rest.head?, c = '(' := by
  have hsplit : t.takeWhile isHeaderChar ++ t.dropWhile isHeaderChar = t :=
    List.takeWhile_append_dropWhile
  have hheader := isNameText_takeWhile t
  have hend := List.head?_dropWhile_not isHeaderChar t
  rw [byHeader] at h
  split at h
  · next hstart =>
      have ht := Text.takeWhile_append_trimStart t
      cases htrim : t.trimStart with
      | nil =>
          rw [htrim] at hstart
          cases hstart
      | cons c others =>
          rw [htrim] at hstart ht
          cases h
          have hback (back : Text) :
              t ++ back = t.takeWhile isBlank ++ c :: (others ++ back) :=
            (congrArg (· ++ back) ht.symm).trans (List.append_assoc ..)
          exact .inl fun back => .invalidStart (hback back) hstart
  · generalize t.takeWhile isHeaderChar = header at h hsplit hheader
    generalize t.dropWhile isHeaderChar = rest at h hsplit hend
    subst hsplit
    have hblanks (hb : Text.isAllBlank header = true) : ∀ c ∈ header, isCodeBlank c = true := by
      intro c hc
      cases hheader c hc with
      | inr h => exact h
      | inl h =>
          have hfull := isBlank_eq_false_of_isNameChar h
          rw [List.all_eq_true.mp hb c hc] at hfull
          cases hfull
    cases rest with
    | nil =>
        rw [endHeader] at h
        split at h
        · next hb =>
            cases h
            exact .inr ⟨rfl, header, [], rfl, hblanks hb, fun c hc => by cases hc⟩
        · cases h
    | cons c rest =>
        by_cases hc : c = '('
        · subst hc
          rw [endHeader_opening] at h
          split at h
          · next hb =>
              cases h
              exact .inr ⟨rfl, header, '(' :: rest, rfl, hblanks hb, fun c hc => by cases hc; rfl⟩
          · split at h
            · cases h
              exact .inl fun back => .unclosedArguments (List.append_assoc ..)
            · cases h
        · rw [endHeader, if_pos hc] at h
          cases h
          have hother : isHeaderChar c = false := hend
          rw [isHeaderChar, Bool.or_eq_false_iff] at hother
          exact .inl fun back => .invalidCharacter (List.append_assoc ..) hother.1 hother.2 hc

end Reference

namespace FilterChain

variable {pragma value : Text} {segment : Segment} {failure : Failure}

/-- A filter without blanks around it misses its name in front of a parenthesis. -/
theorem evident_of_read {t : Text} (hne : t.trim ≠ [])
    (h : Reference.read .filter t.trim 0 = .error failure) (back : Text) :
    failure.Evident (t.trim ++ back) := by
  rw [Reference.read_start] at h
  cases Reference.evident_of_byHeader h with
  | inl hshown => exact hshown back
  | inr hunnamed =>
      obtain ⟨rfl, blanks, rest, ht, hblanks, hrest⟩ := hunnamed
      have hhead := Text.isBlank_head?_trim t
      rw [ht] at hne hhead ⊢
      cases blanks with
      | cons c blanks =>
          have hblank := isBlank_of_isCodeBlank (hblanks c (List.mem_cons_self ..))
          rw [hhead c rfl] at hblank
          cases hblank
      | nil =>
          cases rest with
          | nil => exact absurd rfl hne
          | cons c rest =>
              cases hrest c rfl
              exact @Cause.Evident.missingFilterName _ [] (rest ++ back) rfl

/-- Text behind the arguments of a filter follows their parenthesis. -/
theorem evident_of_trailing {t rest : Text} {r : Reference} (h : Reference.read .filter t 0 = .ok r)
    (hrest : t.rest? r.stop = some rest) (hfull : rest.isAllBlank = false) (back : Text) :
    Cause.Evident (t ++ back) (.trailingText .filter) (r.stop + rest.indent) := by
  have hlies : r.Lies [] t := Reference.lies_of_read h
  cases hlies with
  | bare name =>
      have hend := Text.rest?_append t []
      rw [List.append_nil] at hend
      have hnil : rest = [] := Option.some.inj (hrest.symm.trans hend)
      rw [hnil] at hfull
      cases hfull
  | @applied front args behind name code =>
      cases (Reference.rest?_applied [] front args behind).symm.trans hrest
      obtain ⟨blanks, c, others, rfl, hblanks, hc⟩ := Text.exists_of_not_isAllBlank hfull
      have hpar : Char.utf8Size '(' = 1 ∧ Char.utf8Size ')' = 1 := ⟨rfl, rfl⟩
      have hplace : Text.byteLength ([] ++ front) + 1 + args.byteLength + 1 +
          Text.indent (blanks ++ c :: others) =
            Text.byteLength (front ++ '(' :: args ++ ')' :: blanks) := by
        rw [Text.indent_append hblanks hc]
        simp only [List.nil_append, Text.byteLength_append, Text.byteLength, hpar]
        omega
      have hsource : front ++ '(' :: (args ++ ')' :: (blanks ++ c :: others)) ++ back =
          front ++ '(' :: args ++ ')' :: (blanks ++ c :: (others ++ back)) := by simp
      rw [hplace]
      exact .trailingText hsource (List.all_eq_true.mp hblanks) hc

/-- What is wrong with a filter shows in it, or in the separator in front of it. -/
theorem evident_of_apply (before back : Text)
    (hstart : segment.start = Text.byteLength (before ++ separator))
    (h : apply pragma value segment = .error failure) :
    failure.Evident (before ++ (separator ++ (segment.text ++ back))) := by
  obtain ⟨lead, trail, htext, hlead, -, -⟩ := Text.exists_trim segment.text
  have hsource : before ++ (separator ++ (segment.text ++ back)) =
      before ++ separator ++ lead ++ (segment.text.trim ++ (trail ++ back)) := by
    conv => lhs; rw [htext]
    simp only [List.append_assoc]
  have hplace : Text.byteLength (before ++ separator ++ lead) =
      segment.start + segment.text.indent := by
    rw [Text.byteLength_append, ← hstart, hlead]
  by_cases hne : segment.text.trim = []
  · rw [apply_of_trim_eq_nil hne] at h
    cases h
    rw [hstart, Text.byteLength_append]
    exact Cause.Evident.missingFilter rfl
  · cases hread : Reference.read .filter segment.text.trim 0 with
    | error place =>
        rw [apply_of_read_error hne hread] at h
        cases h
        rw [hsource, ← hplace]
        exact (evident_of_read hne hread (trail ++ back)).behind _
    | ok r =>
        obtain ⟨-, rest, hrest⟩ := rest_of_read hread
        rw [apply_of_read hread hrest] at h
        cases hblank : rest.isAllBlank with
        | true =>
            rw [hblank, if_pos rfl] at h
            cases h
        | false =>
            rw [hblank, if_neg Bool.false_ne_true] at h
            cases h
            have hshown := (evident_of_trailing hread hrest hblank (trail ++ back)).behind
              (before ++ separator ++ lead)
            rw [← hsource, hplace, Nat.add_comm, ← Nat.add_assoc] at hshown
            exact hshown

/-- Every segment but the first stands behind a separator. -/
theorem exists_of_mem_filters {base : Text} {filters : List Text} {start : Nat}
    (h : segment ∈ placed (start + base.byteLength + separator.byteLength) filters) :
    ∃ before back : Text,
      List.intercalate separator (base :: filters) =
        before ++ (separator ++ (segment.text ++ back)) ∧
      segment.start = start + Text.byteLength (before ++ separator) := by
  induction filters generalizing base start with
  | nil => cases h
  | cons t ts ih =>
      rw [List.intercalate_cons_cons]
      cases h with
      | head =>
          obtain ⟨back, hback⟩ := exists_behind_first t ts
          refine ⟨base, back, by rw [hback, List.append_assoc], ?_⟩
          rw [Text.byteLength_append, Nat.add_assoc]
      | tail _ h =>
          obtain ⟨before, back, hsource, hplace⟩ := ih h
          refine ⟨base ++ separator ++ before, back, by simp only [hsource, List.append_assoc], ?_⟩
          rw [hplace]
          simp only [Text.byteLength_append]
          omega

/-- The failure of a fold is that of one of its steps. -/
theorem exists_of_foldlM_error {value : Text} {segments : List Segment}
    (h : segments.foldlM (apply pragma) value = .error failure) :
    ∃ segment ∈ segments, ∃ value, apply pragma value segment = .error failure := by
  obtain ⟨before, segment, after, last, rfl, -, happly⟩ := foldlM_eq_error_iff.mp h
  exact ⟨segment, List.mem_append_right before (List.mem_cons_self ..), last, happly⟩

/-- What is wrong with a chain shows in its text, whatever follows it. -/
theorem evident_of_compile {e : Text} (h : compile e pragma = .error failure) (back : Text) :
    failure.Evident (e ++ back) := by
  have he := intercalate_texts e
  rw [compile, split_eq, ok_bind] at h
  cases htexts : texts .outermost 0 [] e with
  | nil => exact absurd htexts (texts_ne_nil e)
  | cons base filters =>
      rw [htexts] at h he
      obtain ⟨segment, hmem, value, happly⟩ := exists_of_foldlM_error h
      obtain ⟨before, others, hsource, hplace⟩ := exists_of_mem_filters hmem
      rw [Nat.zero_add] at hplace
      have hshown := evident_of_apply before (others ++ back) hplace happly
      rw [← he, hsource]
      simp only [List.append_assoc]
      exact hshown

end FilterChain

namespace MethodCall

theorem exists_of_call_error {expand : Text → Except Failure Text} {pragma : Text} {r : Reference}
    {failure : Failure} (h : call expand pragma r = .error failure) :
    ∃ a inner, r.arguments = some a ∧ expand a.text = .error inner ∧
      failure = inner.map (·.shift a.start) := by
  rw [call] at h
  split at h
  · cases h
  · next a ha =>
      split at h
      · cases h
      · split at h
        · cases h
        · next inner hinner =>
            cases h
            exact ⟨a, inner, ha, hinner, rfl⟩

/-- What is wrong with an expression shows in it, or in the parenthesis at which it ends. -/
theorem Expands.evident {pragma : Text} {n : Nesting} {t : Text} {result : Except Failure Text}
    (h : Expands pragma n t result) {failure : Failure} (hfailure : result = .error failure)
    (back : Text) (hback : ∀ c ∈ back.head?, c = ')') : failure.Evident (t ++ back) := by
  -- The marker stands right in front of what is read behind it.
  have hplace (front : Text) :
      Text.byteLength (front ++ [marker]) = front.byteLength + 1 := Text.byteLength_append ..
  have hsource (front mid back : Text) :
      front ++ marker :: mid ++ back = front ++ [marker] ++ (mid ++ back) := by simp
  induction h generalizing failure back with
  | unmarked => cases hfailure
  | @unread n front mid place first read =>
      cases hfailure
      rw [hsource, ← hplace]
      cases Reference.evident_of_byHeader read with
      | inl hshown => exact (hshown back).behind _
      | inr hunnamed =>
          obtain ⟨rfl, blanks, rest, rfl, hblanks, hrest⟩ := hunnamed
          have hnext : ∀ c ∈ (rest ++ back).head?, c = '(' ∨ c = ')' := by
            intro c hc
            cases rest with
            | nil => exact .inr (hback c hc)
            | cons d rest => exact .inl (hrest c hc)
          have hshown : Cause.Evident (front ++ marker :: (blanks ++ (rest ++ back)))
              (.missingName .method) (front.byteLength + 1) :=
            .missingMethodName rfl hblanks hnext
          rw [← hplace, ← Nat.zero_add (Text.byteLength _)] at hshown
          simp only [List.append_assoc]
          exact hshown
  | @refused n front mid r place first read inside called ih =>
      cases hfailure
      obtain ⟨a, inner, ha, hinner, rfl⟩ := exists_of_call_error called
      cases Reference.lies_of_byHeader read with
      | bare => cases ha
      | @applied name args rest _ _ =>
          cases ha
          -- The arguments end at their parenthesis, and the marker and the name stand in front.
          have hinside := ih _ rfl hinner (')' :: (rest ++ back)) fun c hc => by cases hc; rfl
          have hshown := hinside.behind (name ++ ['('])
          have hopen : Text.byteLength (name ++ ['(']) = Text.byteLength ([] ++ name) + 1 :=
            Text.byteLength_append ..
          have hmid : name ++ '(' :: (args ++ ')' :: rest) ++ back =
              name ++ ['('] ++ (args ++ ')' :: (rest ++ back)) := by simp
          rw [hopen] at hshown
          rw [hsource, ← hplace, hmid]
          exact hshown.behind _
  | @replaced n front used rest r text result first read stop inside called behind _ ih =>
      cases result with
      | ok others => cases hfailure
      | error inner =>
          cases hfailure
          have hmid : front ++ marker :: (used ++ rest) ++ back =
              front ++ marker :: used ++ (rest ++ back) := by simp
          rw [hmid]
          exact (ih rfl back hback).behind _

theorem evident_of_expand {e pragma : Text} {failure : Failure}
    (h : expand e pragma = .error failure) : failure.Evident e := by
  have hexpands := expands_expand e pragma
  rw [h] at hexpands
  have hshown := hexpands.evident rfl [] nofun
  rwa [List.append_nil] at hshown

end MethodCall

namespace TemplateText

theorem evident_of_tagEnd {front t : Text} {failure : Failure}
    (h : tagEnd (front ++ t) front.byteLength = .error failure) : failure.Evident (front ++ t) := by
  cases tagEnd_error_cases h with
  | inl hend =>
      rw [hend]
      exact Cause.Evident.unterminatedAtEnd
  | inr hbrace =>
      obtain ⟨body, rest, rfl, hnext, rfl⟩ := hbrace
      rw [← List.append_assoc]
      exact Cause.Evident.unterminatedBehind rfl hnext

/-- What is wrong with the expression of a tag shows in the template. -/
theorem evident_of_tag (before rest : Text) {body filter : Text} {failure : Failure}
    (h : FilterChain.compile body.trim filter = .error failure) :
    (failure.map fun problem =>
        (problem.shift (before.byteLength + 2 + body.indent)).withinTag).Evident
      (before ++ (tagOpening ++ (body ++ (tagClosing ++ rest)))) := by
  obtain ⟨lead, trail, hbody, hlead, -, -⟩ := Text.exists_trim body
  have hsource : before ++ (tagOpening ++ (body ++ (tagClosing ++ rest))) =
      before ++ tagOpening ++ lead ++ (body.trim ++ (trail ++ (tagClosing ++ rest))) := by
    conv => lhs; rw [hbody]
    simp only [List.append_assoc]
  have hplace : Text.byteLength (before ++ tagOpening ++ lead) =
      before.byteLength + 2 + body.indent := by
    rw [Text.byteLength_append, Text.byteLength_append, hlead]
    rfl
  have hshown := ((FilterChain.evident_of_compile h (trail ++ (tagClosing ++ rest))).behind
    (before ++ tagOpening ++ lead)).withinTag
  rw [hplace, ← hsource] at hshown
  cases failure <;> exact hshown

/-- What is wrong with a template shows in its text. -/
theorem evident_of_pieces {pragmas : Pragmas} {t : Text} {failure : Failure}
    (h : pieces pragmas t = .error failure) : failure.Evident t := by
  cases hb : beforeTag? t with
  | none =>
      rw [pieces.eq_def] at h
      simp only [hb] at h
      cases h
  | some before =>
      obtain ⟨back, rfl⟩ := exists_of_beforeTag? hb
      cases hstop : tagEnd (before ++ tagOpening ++ back)
          (Text.byteLength (before ++ tagOpening)) with
      | error place =>
          have hshown := evident_of_tagEnd hstop
          rw [List.append_assoc] at hshown
          rw [List.append_assoc, Text.byteLength_append] at hstop
          rw [pieces.eq_def] at h
          simp only [hb, hstop] at h
          cases h
          exact hshown
      | ok stop =>
          obtain ⟨body, rest, rfl, hbody, -⟩ := exists_body_of_tagEnd hstop
          have hmarks : tagOpening.byteLength = 2 ∧ tagClosing.byteLength = 2 := ⟨rfl, rfl⟩
          rw [pieces_tag pragmas hbody hb] at h
          split at h
          · cases h
            have hsource : before ++ (tagOpening ++ (body ++ (tagClosing ++ rest))) =
                before ++ tagOpening ++ body ++ (tagClosing ++ rest) := by simp
            refine Cause.Evident.missingExpression hsource ?_
            simp only [Text.byteLength_append, hmarks]
            omega
          · cases hcompile : FilterChain.compile body.trim pragmas.filter with
            | error inner =>
                rw [hcompile] at h
                cases h
                exact evident_of_tag before rest hcompile
            | ok compiled =>
                rw [hcompile, ok_mapError, ok_bind] at h
                cases hothers : pieces pragmas rest with
                | ok others =>
                    rw [hothers] at h
                    cases h
                | error inner =>
                    rw [hothers] at h
                    cases h
                    -- What follows the tag is a shorter template.
                    have hshorter := length_behind_tag before body rest
                    have hsource : before ++ (tagOpening ++ (body ++ (tagClosing ++ rest))) =
                        before ++ tagOpening ++ body ++ tagClosing ++ rest := by simp
                    have hplace : before.byteLength + body.byteLength + 4 =
                        Text.byteLength (before ++ tagOpening ++ body ++ tagClosing) := by
                      simp only [Text.byteLength_append, hmarks]
                      omega
                    rw [hsource, hplace]
                    exact (evident_of_pieces hothers).behind _
  termination_by t.length

end TemplateText

theorem Failure.evident_of_pass {pragmas : Pragmas} {t : Text} {failure : Failure}
    (h : FilterChain.compile t pragmas.filter = .error failure ∨
      MethodCall.expand t pragmas.method = .error failure ∨
      TemplateText.compile pragmas t = .error failure) : failure.Evident t := by
  rcases h with h | h | h
  · have hfilter := FilterChain.evident_of_compile h []
    rwa [List.append_nil] at hfilter
  · have hexpands := MethodCall.expands_expand t pragmas.method
    rw [h] at hexpands
    have hmethod := hexpands.evident rfl [] nofun
    rwa [List.append_nil] at hmethod
  · exact TemplateText.evident_of_pieces (TemplateText.compile_eq_error_iff.mp h)

/-- Every failure of a pass is a problem of the text, at a place that shows it. -/
theorem problem_evident {pragmas : Pragmas} {t : Text} {failure : Failure}
    (h : FilterChain.compile t pragmas.filter = .error failure ∨
      MethodCall.expand t pragmas.method = .error failure ∨
      TemplateText.compile pragmas t = .error failure) :
    ∃ problem, failure = .problem problem ∧ problem.position ≤ t.byteLength ∧
      problem.cause.Evident t problem.position := by
  have hshown := Failure.evident_of_pass h
  cases failure with
  | stuck => exact absurd hshown id
  | problem p => exact ⟨p, rfl, hshown.le_byteLength, hshown⟩

theorem problem_evident_digit :
    TemplateText.compile {} "\x7b\x7b x|> 1st \x7d\x7d".toList =
      .error (.problem ⟨.invalidStart .filter, 7, true⟩) ∧
    Cause.Evident "\x7b\x7b x|> 1st \x7d\x7d".toList (.invalidStart .filter) 7 := by
  have hcompile : TemplateText.compile {} "\x7b\x7b x|> 1st \x7d\x7d".toList =
      .error (.problem ⟨.invalidStart .filter, 7, true⟩) := by
    rw [TemplateText.compile, TemplateText.pieces.eq_def]
    rfl
  obtain ⟨problem, hproblem, -, hshown⟩ := problem_evident (.inr (.inr hcompile))
  cases hproblem
  exact ⟨hcompile, hshown⟩

end BindingCompiler
