import BindingCompiler.Proofs.Evidence
import BindingCompiler.Proofs.Fixpoints
import BindingCompiler.Proofs.Judgements

/-!
The names that references are read with and that calls pass in quotes. Blanks of code end no name,
so the words of a header are taken for one name together. A name is an identifier exactly when its
header has one word.
-/

namespace BindingCompiler

/-- Where each of two texts goes as far as its characters are of one kind, the joined texts are cut
alike. -/
theorem Text.append_inj_of_stops {p : Char → Bool} {s s' t t' : Text} (h : s ++ t = s' ++ t')
    (hs : ∀ c ∈ s, p c = true) (hs' : ∀ c ∈ s', p c = true) (ht : ∀ c ∈ t.head?, p c = false)
    (ht' : ∀ c ∈ t'.head?, p c = false) : s = s' ∧ t = t' := by
  have take {s t : Text} (hs : ∀ c ∈ s, p c = true) (ht : ∀ c ∈ t.head?, p c = false) :
      (s ++ t).takeWhile p = s := by
    rw [List.takeWhile_append_of_pos hs]
    cases t with
    | nil => exact List.append_nil s
    | cons c t => rw [List.takeWhile_cons_of_neg (by simp [ht c rfl]), List.append_nil]
  have hsame : s = s' := by
    have heq := congrArg (List.takeWhile p) h
    rwa [take hs ht, take hs' ht'] at heq
  subst hsame
  exact ⟨rfl, List.append_cancel_left h⟩

namespace Reference

/-- No second word stands behind the first one that a text begins with. -/
def OneWord (t : Text) : Prop :=
  ∀ (lead word gap : Text) (c : Char) (back : Text), t = lead ++ (word ++ (gap ++ c :: back)) →
    (∀ d ∈ lead, isCodeBlank d = true) → word ≠ [] → (∀ d ∈ word, isNameChar d = true) →
    gap ≠ [] → (∀ d ∈ gap, isCodeBlank d = true) → isNameChar c = false

/-- What is known of the name with which a reference was read from a text. -/
structure Named (t name : Text) : Prop where
  /-- It stands in front of an argument list or the end, with blanks around it. -/
  stands : ∃ lead trail rest : Text, t = lead ++ (name ++ (trail ++ rest)) ∧
    (∀ c ∈ lead, isCodeBlank c = true) ∧ (∀ c ∈ trail, isCodeBlank c = true) ∧
    ∀ c ∈ rest.head?, c = '('
  characters : IsNameText name
  full : name ≠ []
  first : ∀ c ∈ name.head?, isNameChar c = true ∧ cannotStartName c = false
  last : ∀ c ∈ name.getLast?, isNameChar c = true
  identifier : name.IsIdentifier ↔ OneWord t

section Words

variable {header rest lead name trail : Text} {c : Char}

theorem isNameChar_of_isHeaderChar (h : isHeaderChar c = true) (hc : isBlank c = false) :
    isNameChar c = true := by
  rw [isHeaderChar, Bool.or_eq_true] at h
  cases h with
  | inl h => exact h
  | inr h =>
      rw [isBlank_of_isCodeBlank h] at hc
      cases hc

theorem isCodeBlank_of_isHeaderChar (h : isHeaderChar c = true) (hc : isNameChar c = false) :
    isCodeBlank c = true := by
  rw [isHeaderChar, hc, Bool.false_or] at h
  exact h

theorem isNameChar_eq_false_of_isBlank (h : isBlank c = true) : isNameChar c = false := by
  cases hc : isNameChar c with
  | false => rfl
  | true =>
      rw [isBlank_eq_false_of_isNameChar hc] at h
      cases h

theorem isNameChar_eq_false_of_isCodeBlank (h : isCodeBlank c = true) : isNameChar c = false :=
  isNameChar_eq_false_of_isBlank (isBlank_of_isCodeBlank h)

theorem isCodeBlank_eq_false_of_isNameChar (h : isNameChar c = true) : isCodeBlank c = false := by
  cases hc : isCodeBlank c with
  | false => rfl
  | true =>
      rw [isNameChar_eq_false_of_isCodeBlank hc] at h
      cases h

/-- A text that goes on with characters of one kind has such a character next. -/
private theorem next_of_forall {p : Char → Prop} {s t : Text} (hs : ∀ c ∈ s, p c)
    (hne : s ≠ []) : ∀ c ∈ (s ++ t).head?, p c := by
  obtain ⟨d, s, rfl⟩ := List.exists_cons_of_ne_nil hne
  rintro _ ⟨⟩
  exact hs d (List.mem_cons_self ..)

/-- Behind an identifier, a header holds nothing but blanks. -/
private theorem oneWord_of_isIdentifier (hname : name.IsIdentifier)
    (hlead : ∀ c ∈ lead, isCodeBlank c = true) (htrail : ∀ c ∈ trail, isCodeBlank c = true)
    (hrest : ∀ c ∈ rest.head?, isHeaderChar c = false) :
    OneWord (lead ++ (name ++ (trail ++ rest))) := by
  intro lead' word gap d back hsplit hlead' hword hwordChars hgap hgapBlank
  have hother : ∀ c ∈ rest.head?, isNameChar c = false ∧ isCodeBlank c = false := by
    intro e he
    have hheader := hrest e he
    rwa [isHeaderChar, Bool.or_eq_false_iff] at hheader
  have htrailNext : ∀ c ∈ (trail ++ rest).head?, isNameChar c = false := by
    by_cases hnil : trail = []
    · rw [hnil]
      exact fun e he => (hother e he).1
    · exact next_of_forall (fun e he => isNameChar_eq_false_of_isCodeBlank (htrail e he)) hnil
  obtain ⟨rfl, hwords⟩ := Text.append_inj_of_stops hsplit hlead hlead'
    (next_of_forall (fun e he => isCodeBlank_eq_false_of_isNameChar (hname.chars e he)) hname.nonempty)
    (next_of_forall (fun e he => isCodeBlank_eq_false_of_isNameChar (hwordChars e he)) hword)
  obtain ⟨rfl, hgaps⟩ := Text.append_inj_of_stops hwords hname.chars hwordChars htrailNext
    (next_of_forall (fun e he => isNameChar_eq_false_of_isCodeBlank (hgapBlank e he)) hgap)
  cases hd : isNameChar d with
  | false => rfl
  | true =>
      have hnext : ∀ c ∈ (d :: back).head?, isCodeBlank c = false := by
        rintro _ ⟨⟩
        exact isCodeBlank_eq_false_of_isNameChar hd
      obtain ⟨-, rfl⟩ := Text.append_inj_of_stops hgaps htrail hgapBlank
        (fun e he => (hother e he).2) hnext
      rw [(hother d rfl).1] at hd
      cases hd

/-- A name that begins and ends with name characters and is no identifier has a second word. -/
private theorem exists_second_word (hname : IsNameText name)
    (hfirst : ∀ c ∈ name.head?, isNameChar c = true)
    (hlast : ∀ c ∈ name.getLast?, isNameChar c = true)
    (hother : ¬ ∀ c ∈ name, isNameChar c = true) :
    ∃ (word gap : Text) (c : Char) (back : Text), name = word ++ (gap ++ c :: back) ∧ word ≠ [] ∧
      (∀ d ∈ word, isNameChar d = true) ∧ gap ≠ [] ∧ (∀ d ∈ gap, isCodeBlank d = true) ∧
      isNameChar c = true := by
  obtain ⟨word, behind, rfl, hword, hstop⟩ := Text.exists_run isNameChar name
  have hbehind : behind ≠ [] := by
    rintro rfl
    rw [List.append_nil] at hother
    exact hother hword
  have hwordNe : word ≠ [] := by
    rintro rfl
    obtain ⟨d, more, rfl⟩ := List.exists_cons_of_ne_nil hbehind
    have hd := hstop d rfl
    rw [hfirst d rfl] at hd
    cases hd
  obtain ⟨gap, rest, rfl, hgap, hgapStop⟩ := Text.exists_run isCodeBlank behind
  cases rest with
  | nil =>
      -- The name would end with a blank.
      rw [List.append_nil] at hbehind hlast
      have hend : (word ++ gap).getLast? = some (gap.getLast hbehind) := by
        rw [List.getLast?_append, List.getLast?_eq_some_getLast hbehind, Option.some_or]
      have hblank := isNameChar_eq_false_of_isCodeBlank (hgap _ (List.getLast_mem hbehind))
      rw [hlast _ hend] at hblank
      cases hblank
  | cons c back =>
      have hc := hgapStop c rfl
      have hcName : isNameChar c = true := by
        have hheader := (isNameText_iff _).mp hname c (by simp)
        rwa [isHeaderChar, hc, Bool.or_false] at hheader
      refine ⟨word, gap, c, back, rfl, hwordNe, hword, ?_, hgap, hcName⟩
      rintro rfl
      rw [hstop c rfl] at hcName
      cases hcName

/-- The name of a reference is its header without the blanks around it. -/
theorem named_trim (starts : MayStart (header ++ rest)) (hheader : IsNameText header)
    (full : header.isAllBlank = false) (hrest : ∀ c ∈ rest.head?, c = '(') :
    Named (header ++ rest) header.trim := by
  have hheadBlank := header.isBlank_head?_trim
  have hlastBlank := header.isBlank_getLast?_trim
  obtain ⟨lead, trail, hsplit, -, hlead, htrail⟩ := header.exists_trim
  generalize header.trim = name at hheadBlank hlastBlank hsplit
  subst hsplit
  have hchars := (isNameText_iff _).mp hheader
  have hblank {d : Char} (hmem : d ∈ lead ++ (name ++ trail)) (hd : isBlank d = true) :
      isCodeBlank d = true :=
    isCodeBlank_of_isHeaderChar (hchars d hmem) (isNameChar_eq_false_of_isBlank hd)
  have hleadCode : ∀ d ∈ lead, isCodeBlank d = true :=
    fun d hd => hblank (List.mem_append_left _ hd) (hlead d hd)
  have htrailCode : ∀ d ∈ trail, isCodeBlank d = true :=
    fun d hd => hblank (List.mem_append_right _ (List.mem_append_right _ hd)) (htrail d hd)
  have hname : IsNameText name :=
    fun d hd => hheader d (List.mem_append_right _ (List.mem_append_left _ hd))
  have hedge {d : Char} (hd : d ∈ name) (hfull : isBlank d = false) : isNameChar d = true :=
    isNameChar_of_isHeaderChar ((isNameText_iff _).mp hname d hd) hfull
  have hfirst : ∀ d ∈ name.head?, isNameChar d = true ∧ cannotStartName d = false := by
    intro d hd
    have hfull := hheadBlank d hd
    refine ⟨hedge (List.mem_of_head? hd) hfull, ?_⟩
    obtain ⟨more, rfl⟩ := List.head?_eq_some_iff.mp hd
    exact starts lead d (more ++ (trail ++ rest)) (by simp) (List.all_eq_true.mpr hlead) hfull
  have hlast : ∀ d ∈ name.getLast?, isNameChar d = true :=
    fun d hd => hedge (List.mem_of_getLast? hd) (hlastBlank d hd)
  have hne : name ≠ [] := by
    rintro rfl
    have hall : Text.isAllBlank (lead ++ ([] ++ trail)) = true := by
      rw [Text.isAllBlank, List.all_append, List.all_append, List.all_eq_true.mpr hlead,
        List.all_eq_true.mpr htrail]
      rfl
    rw [hall] at full
    cases full
  refine ⟨⟨lead, trail, rest, by simp, hleadCode, htrailCode, hrest⟩, hname, hne, hfirst, hlast,
    ?_, ?_⟩
  · intro hident
    rw [List.append_assoc, List.append_assoc]
    exact oneWord_of_isIdentifier hident hleadCode htrailCode
      fun d hd => hrest d hd ▸ isHeaderChar_opening
  · intro hone
    refine ⟨hne, ?_, fun d hd => (hfirst d hd).2⟩
    apply Classical.byContradiction
    intro hother
    obtain ⟨word, gap, d, back, rfl, hword, hwordChars, hgap, hgapBlank, hd⟩ :=
      exists_second_word hname (fun d hd => (hfirst d hd).1) hlast hother
    have hno := hone lead word gap d (back ++ (trail ++ rest)) (by simp) hleadCode hword hwordChars
      hgap hgapBlank
    rw [hd] at hno
    cases hno

end Words

section Readings

variable {kind : ReferenceKind} {before t : Text} {r : Reference}

theorem named_of_read (h : read kind (before ++ t) before.byteLength = .ok r) : Named t r.name := by
  have hjudges := judges_read kind before t
  rw [h] at hjudges
  generalize hresult : Except.ok r = result at hjudges
  cases hjudges with
  | invalidStart | invalidCharacter | missingName | unclosedArguments => cases hresult
  | bare starts name full =>
      cases hresult
      rw [← List.append_nil t] at starts
      have hnamed := named_trim starts name full nofun
      rwa [List.append_nil] at hnamed
  | applied starts name full inside =>
      cases hresult
      exact named_trim starts name full fun d hd => by cases hd; rfl

theorem named_of_byHeader (h : byHeader kind t = .ok r) : Named t r.name :=
  @named_of_read kind [] t r ((read_start kind t).trans h)

/-- What stands behind an identifier and is neither a blank, a name character nor an opening
parenthesis is no part of a reference. -/
theorem read_behind_identifier (kind : ReferenceKind) (before : Text) {lead word gap back : Text}
    {c : Char} (hlead : ∀ d ∈ lead, isCodeBlank d = true) (hword : word.IsIdentifier)
    (hgap : ∀ d ∈ gap, isCodeBlank d = true) (other : isHeaderChar c = false) (opening : c ≠ '(') :
    read kind (before ++ (lead ++ (word ++ gap) ++ c :: back)) before.byteLength =
      .error (.found (.invalidCharacter kind)
        (Text.byteLength (before ++ (lead ++ (word ++ gap))))) := by
  refine (Judges.invalidCharacter ?_ ?_ other opening).read_eq
  · obtain ⟨hne, hchars, hstart⟩ := hword
    obtain ⟨d, word, rfl⟩ := List.exists_cons_of_ne_nil hne
    rw [List.append_assoc]
    refine mayStart_of_head (List.all_eq_true.mpr fun e he => isBlank_of_isCodeBlank (hlead e he))
      (isBlank_eq_false_of_isNameChar (hchars d (List.mem_cons_self ..))) (hstart d rfl)
  · intro d hd
    rcases List.mem_append.mp hd with hd | hd
    · exact .inr (hlead d hd)
    · rcases List.mem_append.mp hd with hd | hd
      · exact .inl (hword.chars d hd)
      · exact .inr (hgap d hd)

end Readings

end Reference

namespace FilterChain

/-- A value is passed through the filters of segments, one call around the other, and each call
quotes the name that was read in its segment. -/
inductive Passed (pragma : Text) : Text → List Segment → Text → Prop where
  | done {value} : Passed pragma value [] value
  | filter {value segment segments name operands out}
      (named : Reference.Named segment.text.trim name)
      (behind : Passed pragma (callByName pragma name (value :: operands)) segments out) :
      Passed pragma value (segment :: segments) out

variable {pragma value out : Text} {segment : Segment} {segments : List Segment}

theorem exists_of_apply_ok (h : apply pragma value segment = .ok out) :
    ∃ name operands, Reference.Named segment.text.trim name ∧
      out = callByName pragma name (value :: operands) := by
  obtain ⟨r, rest, hread, -, -, rfl⟩ := exists_read_of_apply h
  rw [Reference.read_start] at hread
  exact ⟨r.name, _, Reference.named_of_byHeader hread, rfl⟩

theorem passed_of_foldlM (h : segments.foldlM (apply pragma) value = .ok out) :
    Passed pragma value segments out := by
  induction segments generalizing value with
  | nil =>
      cases h
      exact .done
  | cons segment segments ih =>
      rw [List.foldlM_cons] at h
      obtain ⟨next, hnext, h⟩ := exists_of_bind_eq_ok h
      obtain ⟨name, operands, named, rfl⟩ := exists_of_apply_ok hnext
      exact .filter named (ih h)

theorem exists_passed {e : Text} (h : compile e pragma = .ok out) :
    ∃ base filters, split e = .ok (base :: filters) ∧ Passed pragma base.text.trim filters out := by
  rw [compile] at h
  obtain ⟨segments, hsplit, h⟩ := exists_of_bind_eq_ok h
  cases segments with
  | nil =>
      rw [split_eq] at hsplit
      cases htexts : texts .outermost 0 [] e with
      | nil => exact absurd htexts (texts_ne_nil e)
      | cons base filters =>
          rw [htexts] at hsplit
          cases hsplit
  | cons base filters => exact ⟨base, filters, hsplit, passed_of_foldlM h⟩

end FilterChain

namespace MethodCall

/-- An expression is taken over but for the references behind its markers. Each of them has become a
call that quotes the name that was read there, and so has each in its arguments. -/
inductive Rewritten (pragma : Text) : Nesting → Text → Text → Prop where
  | copied {n t} (unmarked : marker ∉ n.code t) : Rewritten pragma n t t
  | call {n front used rest name args operands out} (first : Unmarked n front)
      (named : Reference.Named (used ++ rest) name)
      (arguments : operands = [] ∨ ∃ header : Text, used = header ++ '(' :: (args ++ [')']))
      (inside : ∀ operand ∈ operands, Rewritten pragma .outermost args operand)
      (behind : Rewritten pragma (n.after front) rest out) :
      Rewritten pragma n (front ++ marker :: (used ++ rest))
        (front ++ callByName pragma name operands ++ out)

theorem Expands.rewritten {pragma t out : Text} {n : Nesting} {result : Except Failure Text}
    (h : Expands pragma n t result) (hout : result = .ok out) : Rewritten pragma n t out := by
  induction h generalizing out with
  | unmarked none =>
      cases hout
      exact .copied none
  | unread => cases hout
  | refused => cases hout
  | @replaced n front used rest r text result first read stop inside called behind ihInside ih =>
      obtain ⟨others, hothers, rfl⟩ := exists_of_continued_eq_ok hout
      obtain ⟨operands, rfl, hoperands⟩ := exists_of_call_ok called
      have named := Reference.named_of_byHeader read
      rcases (Reference.lies_of_byHeader read).used_cases stop with
        ⟨hnone, -⟩ | ⟨header, args, hargs, hused, -, -⟩
      · have hnil : operands = [] := by
          refine List.eq_nil_iff_forall_not_mem.mpr fun operand hmem => ?_
          obtain ⟨a, ha, -⟩ := hoperands operand hmem
          rw [hnone] at ha
          cases ha
        subst hnil
        exact @Rewritten.call _ _ _ _ _ _ [] _ _ first named (.inl rfl) nofun (ih hothers)
      · refine .call first named (.inr ⟨header, hused⟩) ?_ (ih hothers)
        intro operand hmem
        obtain ⟨a, ha, hexpand⟩ := hoperands operand hmem
        cases hargs.symm.trans ha
        exact ihInside _ ha hexpand

end MethodCall

/-- The name with which a reference is read from a text, and those that are called by when the text
is an expression with filters or methods. -/
theorem names_of_references (kind : ReferenceKind) (before t pragma : Text) :
    (∀ r, Reference.read kind (before ++ t) before.byteLength = .ok r →
      Reference.Named t r.name) ∧
    (∀ (lead word gap : Text) (c : Char) (back : Text), t = lead ++ (word ++ gap) ++ c :: back →
      (∀ d ∈ lead, isCodeBlank d = true) → word.IsIdentifier → (∀ d ∈ gap, isCodeBlank d = true) →
      Reference.isHeaderChar c = false → c ≠ '(' →
      Reference.read kind (before ++ t) before.byteLength =
        .error (.found (.invalidCharacter kind)
          (Text.byteLength (before ++ (lead ++ (word ++ gap)))))) ∧
    (∀ out, FilterChain.compile t pragma = .ok out →
      ∃ base filters, FilterChain.split t = .ok (base :: filters) ∧
        FilterChain.Passed pragma base.text.trim filters out) ∧
    ∀ out, MethodCall.expand t pragma = .ok out → MethodCall.Rewritten pragma .outermost t out := by
  refine ⟨fun r => Reference.named_of_read, ?_, fun out => FilterChain.exists_passed, ?_⟩
  · rintro lead word gap c back rfl hlead hword hgap other opening
    exact Reference.read_behind_identifier kind before hlead hword hgap other opening
  · exact fun out h => (MethodCall.expands_expand t pragma).rewritten h

theorem names_of_references_save :
    Reference.read .method "#save(x)".toList 1 = .ok ⟨"save".toList, some ⟨"x".toList, 6⟩, 8⟩ ∧
    Reference.Named "save(x)".toList "save".toList ∧
    Reference.read .method "#save + x".toList 1 =
      .error (.found (.invalidCharacter .method) 6) := by
  have hread : Reference.read .method "#save(x)".toList 1 =
      .ok ⟨"save".toList, some ⟨"x".toList, 6⟩, 8⟩ :=
    Reference.read_eq .method ['#'] "save(x)".toList
  obtain ⟨named, -⟩ := names_of_references .method ['#'] "save(x)".toList []
  obtain ⟨-, rejected, -⟩ := names_of_references .method ['#'] "save + x".toList []
  refine ⟨hread, named _ hread, ?_⟩
  exact rejected [] "save".toList [' '] '+' " x".toList rfl nofun (by decide)
    (List.all_eq_true.mp (by decide)) (by decide) (by decide)

/-- Two words with a blank between them are taken for one name. -/
theorem two_words_one_name :
    Reference.read .method "#save x".toList 1 = .ok ⟨"save x".toList, none, 7⟩ ∧
    ¬ Text.IsIdentifier "save x".toList ∧
    MethodCall.expand "#save x".toList "$commit".toList = .ok "$commit(\x27save x\x27)".toList := by
  have hread : Reference.byHeader .method "save x".toList = .ok ⟨"save x".toList, none, 6⟩ := rfl
  have hrest : MethodCall.Expands "$commit".toList .outermost [] (.ok []) := .unmarked (by decide)
  refine ⟨Reference.read_eq .method ['#'] "save x".toList, by decide, ?_⟩
  exact MethodCall.expand_eq_of_expands
    (@MethodCall.Expands.of_read _ .outermost _ [] "save x".toList [] _ ⟨rfl, by decide⟩ hread rfl
      hrest)

end BindingCompiler
