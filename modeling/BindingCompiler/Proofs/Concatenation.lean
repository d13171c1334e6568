import BindingCompiler.Proofs.Expansion

/-!
Expressions taken apart at a reference. When no interpolation is open in front of a marker, the
arguments behind it and the rest of the expression are expanded as expressions of their own: the
braces that are still open there have no effect on what follows.
-/

namespace BindingCompiler

namespace Nesting

/-- Braces that are open around code, but no interpolation with them, change nothing of how a text
is read. Of those braces some may be closed behind it. -/
theorem exists_inside_after (n : Nesting) (t : Text) (hn : n.WellFormed) (braces : Nat) :
    ∃ left, (n.inside braces []).after t = (n.after t).inside left [] ∧
      (n.inside braces []).code t = n.code t := by
  induction n, t using passage_induction generalizing braces with
  | nil n => exact ⟨braces, rfl, rfl⟩
  | visit n c t within hr ih =>
      have hlater := hr.wellFormed_visit hn
      by_cases hu : n.Unmatched c
      · -- A brace that closes nothing closes one of those around.
        obtain ⟨hcode, hdepth, rfl⟩ := hu
        cases eq_outermost_of_depth hn hcode hdepth
        have hwithin : within = outermost := Reading.visit.inj hr.read_eq.symm
        subst hwithin
        have hclose : Reads ⟨.code, braces, []⟩ '}' t.head? (.visit ⟨.code, braces - 1, []⟩) :=
          .closeBrace nofun
        obtain ⟨left, hafter, hshown⟩ := ih hlater (braces - 1)
        rw [show outermost.settled = outermost from rfl, inside_outermost] at hafter hshown
        refine ⟨left, ?_, ?_⟩
        · rw [inside_outermost, after_visit hclose, after_visit hr]
          exact hafter
        · rw [inside_outermost, code_visit hclose, code_visit hr]
          exact congrArg ('}' :: ·) hshown
      · have hinside : Reads (n.inside braces []) c t.head? (.visit (within.inside braces [])) :=
          hr.inside_visit hu nofun
        obtain ⟨left, hafter, hshown⟩ := ih hlater braces
        refine ⟨left, ?_, ?_⟩
        · rw [after_visit hinside, after_visit hr, settled_inside, hafter]
        · rw [code_visit hinside, code_visit hr, settled_inside, hshown]
          rfl
  | skip n c t next hr ih =>
      have hinside : Reads (n.inside braces []) c t.head? (.skip 1 (next.inside braces [])) :=
        hr.inside_skip (hr.matched_of_skip hn)
      obtain ⟨left, hafter, hshown⟩ := ih (hr.wellFormed_skip hn) braces
      refine ⟨left, ?_, ?_⟩
      · rw [after_skip hinside, after_skip hr, hafter]
      · rw [code_skip hinside, code_skip hr, hshown]
  | opening d ops t ih =>
      have hlater := Reads.openInterpolation.wellFormed_skip hn
      obtain ⟨left, hafter, hshown⟩ := ih hlater braces
      rw [inside_opened] at hafter hshown
      exact ⟨left, hafter, code_opening.trans (hshown.trans code_opening.symm)⟩

end Nesting

/-- A text that may stand between the parentheses of a reference: its scan ends in code, and the
parentheses of code in it match. -/
structure Text.IsArgumentText (t : Text) : Prop where
  code : (Scanner.start t).finish.inCode = true
  nested : ∀ front, front <+: t.codeCharacters → front.count ')' ≤ front.count '('
  closed : t.codeCharacters.count ')' = t.codeCharacters.count '('

instance (t : Text) : Decidable t.IsArgumentText :=
  decidable_of_iff ((Scanner.start t).finish.inCode = true ∧
      (∀ k < t.codeCharacters.length + 1,
        (t.codeCharacters.take k).count ')' ≤ (t.codeCharacters.take k).count '(') ∧
      t.codeCharacters.count ')' = t.codeCharacters.count '(')
    ⟨fun h => ⟨h.1, fun front hf => List.prefix_iff_eq_take.mp hf ▸
        h.2.1 front.length (Nat.lt_succ_of_le hf.length_le), h.2.2⟩,
      fun h => ⟨h.code, fun _ _ => h.nested _ (List.take_prefix ..), h.closed⟩⟩

theorem Scanner.inCode_finish_start (t : Text) :
    (start t).finish.inCode = true ↔ (Nesting.outermost.after t).region = .code := by
  rw [finish_start, inCode_eq_true_iff, nesting_between]

namespace Reference

open Nesting

/-- The parentheses of a text match, but for so many opening ones in front of it that it closes. -/
structure Matching (depth : Nat) (t : Text) : Prop where
  nested : ∀ front, front <+: t → front.count ')' ≤ depth + front.count '('
  closed : t.count ')' = depth + t.count '('

theorem matching_nil_iff {depth : Nat} : Matching depth [] ↔ depth = 0 := by
  constructor
  · intro h
    exact h.closed.symm
  · intro h
    subst h
    refine ⟨?_, rfl⟩
    intro front hf
    rw [List.prefix_nil.mp hf]
    exact Nat.le_refl _

/-- The count of open parentheses accounts for a character of code that closes one of them or
none. -/
theorem matching_cons_iff {within : Nesting} {depth : Nat} {c : Char} {t : Text}
    (hw : within.region = .code) (hopen : ¬ (c = ')' ∧ depth = 0)) :
    Matching depth (c :: t) ↔ Matching (parenthesesAt within depth c) t := by
  have hcount (front : Text) : depth + (c :: front).count '(' + front.count ')' =
      parenthesesAt within depth c + front.count '(' + (c :: front).count ')' := by
    rw [parenthesesAt, if_pos hw]
    by_cases ho : c = '('
    · subst ho
      rw [if_pos rfl, List.count_cons_self, List.count_cons_of_ne (by decide)]
      omega
    · rw [if_neg ho, List.count_cons_of_ne ho]
      by_cases hc : c = ')'
      · have hpos : depth ≠ 0 := fun hz => hopen ⟨hc, hz⟩
        subst hc
        rw [if_pos rfl, List.count_cons_self]
        omega
      · rw [if_neg hc, List.count_cons_of_ne hc]
  constructor
  · intro h
    refine ⟨?_, ?_⟩
    · intro front hf
      have hcons := h.nested (c :: front) ((List.prefix_cons_inj c).mpr hf)
      have hfront := hcount front
      omega
    · have hclosed := h.closed
      have hall := hcount t
      omega
  · intro h
    refine ⟨?_, ?_⟩
    · intro front hf
      cases front with
      | nil => exact Nat.zero_le _
      | cons d front =>
          obtain ⟨rfl, hrest⟩ := List.cons_prefix_cons.mp hf
          have hcons := h.nested front hrest
          have hfront := hcount front
          omega
    · have hclosed := h.closed
      have hall := hcount t
      omega

/-- Parentheses that match within a text are passed over in the search for one more. -/
theorem enclosed?_of_matching {n : Nesting} {args back rest : Text} (cut : Cut n args back)
    (hback : back = ')' :: rest) (hcode : (n.after args).region = .code) {depth : Nat}
    (h : Matching depth (n.code args)) : enclosed? n depth (args ++ back) = some args := by
  induction cut generalizing depth with
  | @here n back =>
      have hdepth : depth = 0 := matching_nil_iff.mp h
      have hr : n.Reads ')' rest.head? (.visit n) := by
        obtain ⟨region, d, ops⟩ := n
        cases hcode
        exact .plain (by decide)
      rw [hback, List.nil_append, enclosed?_visit hr, if_pos ⟨hcode, rfl, hdepth⟩]
  | @visit n within c mid back hr _ ih =>
      rw [after_visit hr.visit_in_front] at hcode
      rw [code_visit hr.visit_in_front] at h
      by_cases hw : within.region = .code
      · rw [if_pos hw] at h
        have hopen : ¬ (c = ')' ∧ depth = 0) := by
          intro hc
          obtain ⟨rfl, rfl⟩ := hc
          have hone := h.nested [')'] (List.prefix_append [')'] _)
          exact absurd hone (by decide)
        rw [List.cons_append, enclosed?_visit hr, if_neg fun hc => hopen hc.2,
          ih hback hcode ((matching_cons_iff hw hopen).mp h)]
        rfl
      · rw [if_neg hw] at h
        have hsame : parenthesesAt within depth c = depth := if_neg hw
        rw [List.cons_append, enclosed?_visit hr, if_neg fun hc => hw hc.1, hsame,
          ih hback hcode h]
        rfl
  | @skip n next c mid back hr _ ih =>
      rw [after_skip hr.skip_in_front] at hcode
      rw [code_skip hr.skip_in_front] at h
      rw [List.cons_append, enclosed?_skip hr, ih hback hcode h]
      rfl
  | opening _ ih =>
      rw [code_opening] at h
      rw [List.cons_append, List.cons_append, enclosed?_opening, ih hback hcode h]
      rfl

theorem isArgumentText_iff (t : Text) :
    t.IsArgumentText ↔ (outermost.after t).region = .code ∧ Matching 0 (outermost.code t) := by
  rw [← Scanner.inCode_finish_start, ← Text.codeCharacters_eq]
  have hsum (s : Text) : 0 + s.count '(' = s.count '(' := Nat.zero_add _
  constructor
  · intro h
    exact ⟨h.code, by simpa only [hsum] using h.nested, by rw [hsum]; exact h.closed⟩
  · intro h
    exact ⟨h.1, by simpa only [hsum] using h.2.nested, by rw [← hsum]; exact h.2.closed⟩

/-- A reference is read up to the end of its arguments, whatever follows them. -/
theorem byHeader_applied (kind : ReferenceKind) {name args : Text} (rest : Text)
    (hname : name.IsIdentifier) (hargs : args.IsArgumentText) :
    byHeader kind (name ++ '(' :: (args ++ ')' :: rest)) =
      .ok ⟨name, some ⟨args, name.byteLength + 1⟩,
        name.byteLength + 1 + args.byteLength + 1⟩ := by
  obtain ⟨hne, hchars, hstart⟩ := hname
  obtain ⟨hcode, hmatching⟩ := (isArgumentText_iff args).mp hargs
  have henclosed : enclosed? .outermost 0 (args ++ ')' :: rest) = some args :=
    enclosed?_of_matching (cut_of_code hcode) rfl hcode hmatching
  have hfull : ∀ c ∈ name, isBlank c = false := fun c hc =>
    isBlank_eq_false_of_isNameChar (hchars c hc)
  have hheader : ∀ c ∈ name, isHeaderChar c = true := fun c hc => by
    rw [isHeaderChar, hchars c hc, Bool.true_or]
  have htake : (name ++ '(' :: (args ++ ')' :: rest)).takeWhile isHeaderChar = name := by
    rw [List.takeWhile_append_of_pos hheader, List.takeWhile_cons_of_neg (by decide),
      List.append_nil]
  have hdrop : (name ++ '(' :: (args ++ ')' :: rest)).dropWhile isHeaderChar =
      '(' :: (args ++ ')' :: rest) := by
    rw [List.dropWhile_append_of_pos hheader, List.dropWhile_cons_of_neg (by decide)]
  obtain ⟨first, others, rfl⟩ := List.exists_cons_of_ne_nil hne
  have hfirst := hfull first (List.mem_cons_self ..)
  have htrimStart : Text.trimStart (first :: others ++ '(' :: (args ++ ')' :: rest)) =
      first :: others ++ '(' :: (args ++ ')' :: rest) :=
    List.dropWhile_cons_of_neg (by simp [hfirst])
  have hany : (first :: others ++ '(' :: (args ++ ')' :: rest)).head?.any cannotStartName =
      false := hstart first rfl
  have hblank : Text.isAllBlank (first :: others) = false := by
    simp [Text.isAllBlank, hfirst]
  rw [byHeader, htrimStart, hany, if_neg Bool.false_ne_true, htake, hdrop, endHeader_opening,
    hblank, if_neg Bool.false_ne_true, henclosed, Text.trim_eq_self hfull]

end Reference

namespace MethodCall

open Nesting

variable {pragma : Text}

/-- What a text expands to does not depend on braces that are left open around it. -/
theorem Expands.inside {n : Nesting} {t : Text} {result : Except Failure Text}
    (h : Expands pragma n t result) (hn : n.WellFormed) (braces : Nat) :
    Expands pragma (n.inside braces []) t result := by
  have unmarked {n : Nesting} {front : Text} (first : Unmarked n front) (hn : n.WellFormed)
      (braces : Nat) : Unmarked (n.inside braces []) front := by
    obtain ⟨left, hafter, hcode⟩ := exists_inside_after n front hn braces
    exact ⟨by rw [hafter]; exact first.1, by rw [hcode]; exact first.2⟩
  induction h generalizing braces with
  | @unmarked n t none =>
      obtain ⟨-, -, hcode⟩ := exists_inside_after n t hn braces
      exact .unmarked (by rwa [hcode])
  | unread first read => exact .unread (unmarked first hn braces) read
  | refused first read inside called => exact .refused (unmarked first hn braces) read inside called
  | @replaced n front used rest r text result first read stop inside called behind _ ih =>
      obtain ⟨left, hafter, -⟩ := exists_inside_after n front hn braces
      refine .replaced (unmarked first hn braces) read stop inside called ?_
      rw [hafter]
      exact ih (wellFormed_after front hn) left

/-- The call for a reference, by its arguments. -/
theorem call_applied (expand : Text → Except Failure Text) (pragma name args : Text)
    (start stop : Nat) :
    call expand pragma ⟨name, some ⟨args, start⟩, stop⟩ =
      if args.isAllBlank then .ok (pragma ++ "(\x27".toList ++ name ++ "\x27)".toList)
      else
        ((expand args).mapError (·.map (·.shift start))).map fun text =>
          pragma ++ "(\x27".toList ++ name ++ "\x27, ".toList ++ text ++ ")".toList := by
  simp only [call]
  split
  · simp [callByName, operandsText]
  · cases expand args with
    | error failure => rfl
    | ok text => exact congrArg Except.ok (by simp [callByName, operandsText])

theorem expand_at_reference (pragma : Text) :
    (∀ t : Text, marker ∉ t.codeCharacters → expand t pragma = .ok t) ∧
    ∀ front name args rest : Text, marker ∉ front.codeCharacters →
      (Scanner.start front).finish.inCode = true →
      (Scanner.start front).finish.nesting.openings = [] →
      name.IsIdentifier → args.IsArgumentText →
      expand (front ++ marker :: (name ++ '(' :: (args ++ ')' :: rest))) pragma = (do
        let call ← (
          if args.isAllBlank then .ok (pragma ++ "(\x27".toList ++ name ++ "\x27)".toList)
          else
            ((expand args pragma).mapError
              (·.map (·.shift (front.byteLength + name.byteLength + 2)))).map fun text =>
                pragma ++ "(\x27".toList ++ name ++ "\x27, ".toList ++ text ++ ")".toList)
        let others ← (expand rest pragma).mapError
          (·.map (·.shift (front.byteLength + name.byteLength + args.byteLength + 3)))
        return front ++ call ++ others) := by
  refine ⟨fun t h => expand_of_unmarked pragma h, ?_⟩
  intro front name args rest hmarker hcode hopen hname hargs
  -- In front of the marker braces may be open, but nothing else.
  have hafter : outermost.after front = outermost.inside (outermost.after front).depth [] := by
    rw [Scanner.inCode_finish_start] at hcode
    rw [Scanner.finish_start, Scanner.nesting_between] at hopen
    rw [inside_outermost, ← hcode, ← hopen]
  have first : Unmarked outermost front := by
    refine ⟨by rw [hafter]; rfl, ?_⟩
    rwa [← Text.codeCharacters_eq]
  have hread := Reference.byHeader_applied .method rest hname hargs
  have hpar : Char.utf8Size '(' = 1 ∧ Char.utf8Size ')' = 1 ∧ marker.utf8Size = 1 :=
    ⟨rfl, rfl, rfl⟩
  have hstop : name.byteLength + 1 + args.byteLength + 1 =
      Text.byteLength (name ++ '(' :: (args ++ [')'])) := by
    simp only [Text.byteLength_append, Text.byteLength, hpar]
    omega
  have hbehind : Text.byteLength (front ++ marker :: (name ++ '(' :: (args ++ [')']))) =
      front.byteLength + name.byteLength + args.byteLength + 3 := by
    simp only [Text.byteLength_append, Text.byteLength, hpar]
    omega
  have hused : name ++ '(' :: (args ++ ')' :: rest) = name ++ '(' :: (args ++ [')']) ++ rest := by
    simp
  have hrest : Expands pragma (outermost.after front) rest (expand rest pragma) := by
    rw [hafter]
    exact (expands_expand rest pragma).inside wellFormed_outermost _
  rw [hused] at hread ⊢
  rw [expand_eq_of_expands (.of_read first hread hstop hrest), call_applied, hbehind]
  cases args.isAllBlank with
  | true =>
      rw [if_pos rfl, if_pos rfl]
      cases expand rest pragma with
      | error failure => rfl
      | ok others => rfl
  | false =>
      rw [if_neg Bool.false_ne_true, if_neg Bool.false_ne_true]
      cases expand args pragma with
      | error failure =>
          have hplace : name.byteLength + 1 + (front.byteLength + 1) =
              front.byteLength + name.byteLength + 2 := by omega
          exact congrArg Except.error ((failure.map_shift_shift ..).trans (by rw [hplace]))
      | ok text =>
          cases expand rest pragma with
          | error failure => rfl
          | ok others => rfl

theorem expand_at_reference_nested :
    marker ∉ Text.codeCharacters "\x7b ".toList ∧
    (Scanner.start "\x7b ".toList).finish.inCode = true ∧
    (Scanner.start "\x7b ".toList).finish.nesting.openings = [] ∧
    Text.IsIdentifier "save".toList ∧ Text.IsArgumentText "#b()".toList ∧
    expand "\x7b #save(#b()) \x7d".toList "$commit".toList =
      .ok "\x7b $commit(\x27save\x27, $commit(\x27b\x27)) \x7d".toList := by
  have hmarker : marker ∉ Text.codeCharacters "\x7b ".toList := by decide
  have hcode : (Scanner.start "\x7b ".toList).finish.inCode = true := by decide
  have hopen : (Scanner.start "\x7b ".toList).finish.nesting.openings = [] := by decide
  have hname : Text.IsIdentifier "save".toList := by decide
  have hargs : Text.IsArgumentText "#b()".toList := by decide
  have hplain := (expand_at_reference "$commit".toList).1
  have hinside : Text.IsIdentifier "b".toList := by decide
  have hinner := (expand_at_reference "$commit".toList).2 [] "b".toList [] [] (by decide)
    (by decide) (by decide) hinside (by decide)
  have houter := (expand_at_reference "$commit".toList).2 "\x7b ".toList "save".toList "#b()".toList
    " \x7d".toList hmarker hcode hopen hname hargs
  rw [hplain [] (by decide)] at hinner
  have hoperand : expand "#b()".toList "$commit".toList = .ok "$commit(\x27b\x27)".toList := hinner
  rw [hoperand, hplain " \x7d".toList (by decide)] at houter
  exact ⟨hmarker, hcode, hopen, hname, hargs, houter⟩

end MethodCall

end BindingCompiler
