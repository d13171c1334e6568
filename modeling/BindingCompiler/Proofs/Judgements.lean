import BindingCompiler.Proofs.References

/-!
What becomes of a reference, judged by its header alone. The first character that is no blank and
the first that may not stand in a header decide it, and no string or interpolation in front of a
parenthesis hides any of them.
-/

namespace BindingCompiler.Reference

/-- The first character of a text that is no blank may begin a name. -/
def MayStart (t : Text) : Prop :=
  ∀ (lead : Text) (c : Char) (back : Text), t = lead ++ c :: back → lead.isAllBlank = true →
    isBlank c = false → cannotStartName c = false

/-- What reading a text behind another one comes to, character by character. A string begins with a
character that may not stand in a header, as everything else does that is no name. -/
inductive Judges (kind : ReferenceKind) (before : Text) :
    Text → Except Failure Reference → Prop where
  | invalidStart {lead c back} (blank : Text.isAllBlank lead = true)
      (start : cannotStartName c = true) :
      Judges kind before (lead ++ c :: back)
        (.error (.found (.invalidStart kind) (Text.byteLength (before ++ lead))))
  | invalidCharacter {header c back} (starts : MayStart (header ++ c :: back))
      (name : IsNameText header) (other : isHeaderChar c = false) (opening : c ≠ '(') :
      Judges kind before (header ++ c :: back)
        (.error (.found (.invalidCharacter kind) (Text.byteLength (before ++ header))))
  | missingName {header rest} (name : IsNameText header) (blank : header.isAllBlank = true)
      (next : ∀ c ∈ rest.head?, c = '(') :
      Judges kind before (header ++ rest) (.error (.found (.missingName kind) before.byteLength))
  | bare {t} (starts : MayStart t) (name : IsNameText t) (full : t.isAllBlank = false) :
      Judges kind before t (.ok ⟨t.trim, none, Text.byteLength (before ++ t)⟩)
  | unclosedArguments {header back} (starts : MayStart (header ++ '(' :: back))
      (name : IsNameText header) (full : header.isAllBlank = false)
      (inside : enclosed? .outermost 0 back = none) :
      Judges kind before (header ++ '(' :: back)
        (.error (.found (.unclosedArguments kind) (Text.byteLength (before ++ header))))
  | applied {header back args} (starts : MayStart (header ++ '(' :: back))
      (name : IsNameText header) (full : header.isAllBlank = false)
      (inside : enclosed? .outermost 0 back = some args) :
      Judges kind before (header ++ '(' :: back)
        (.ok ⟨header.trim, some ⟨args, Text.byteLength (before ++ header) + 1⟩,
          Text.byteLength (before ++ header) + 1 + args.byteLength + 1⟩)

theorem isNameChar_of_cannotStartName {c : Char} (h : cannotStartName c = true) :
    isNameChar c = true := by
  rw [cannotStartName, Bool.or_eq_true] at h
  rw [isNameChar, Char.isAlphanum]
  cases h with
  | inl h => simp [h]
  | inr h => simp [h]

section Starts

variable {lead back t : Text} {c : Char}

theorem trimStart_append (hlead : lead.isAllBlank = true) (hc : isBlank c = false) :
    Text.trimStart (lead ++ c :: back) = c :: back := by
  rw [Text.trimStart, List.dropWhile_append_of_pos (List.all_eq_true.mp hlead)]
  exact List.dropWhile_cons_of_neg (by simp [hc])

theorem trimStart_of_isAllBlank (h : t.isAllBlank = true) : t.trimStart = [] := by
  rw [Text.trimStart, ← List.append_nil t]
  exact List.dropWhile_append_of_pos (List.all_eq_true.mp h)

theorem mayStart_iff : MayStart t ↔ ¬ t.trimStart.head?.any cannotStartName = true := by
  cases hblank : t.isAllBlank with
  | true =>
      rw [trimStart_of_isAllBlank hblank]
      refine ⟨fun _ => Bool.false_ne_true, ?_⟩
      rintro - lead c back rfl - hc
      have hfull := List.all_eq_true.mp hblank c (by simp)
      rw [hc] at hfull
      cases hfull
  | false =>
      obtain ⟨lead, c, back, rfl, hlead, hc⟩ := Text.exists_of_not_isAllBlank hblank
      rw [trimStart_append hlead hc, List.head?_cons, Option.any_some, Bool.not_eq_true]
      refine ⟨fun h => h lead c back rfl hlead hc, ?_⟩
      intro h other d rest hsplit hother hd
      have hsame : Text.trimStart (lead ++ c :: back) = c :: back := trimStart_append hlead hc
      rw [hsplit, trimStart_append hother hd] at hsame
      cases hsame
      exact h

/-- A text that may not start has a first character that says so. -/
theorem exists_of_not_mayStart (h : ¬ MayStart t) :
    ∃ (lead : Text) (c : Char) (back : Text), t = lead ++ c :: back ∧ lead.isAllBlank = true ∧
      cannotStartName c = true := by
  rw [mayStart_iff, Classical.not_not] at h
  cases hblank : t.isAllBlank with
  | true =>
      rw [trimStart_of_isAllBlank hblank] at h
      cases h
  | false =>
      obtain ⟨lead, c, back, rfl, hlead, hc⟩ := Text.exists_of_not_isAllBlank hblank
      rw [trimStart_append hlead hc] at h
      exact ⟨lead, c, back, rfl, hlead, h⟩

theorem mayStart_of_head (hlead : lead.isAllBlank = true) (hc : isBlank c = false)
    (hstart : cannotStartName c = false) : MayStart (lead ++ c :: back) := by
  rw [mayStart_iff, trimStart_append hlead hc, List.head?_cons, Option.any_some, hstart]
  exact Bool.false_ne_true

end Starts

section Headers

variable {kind : ReferenceKind} {before header rest t : Text} {result : Except Failure Reference}

/-- A header ends at the first character that may not stand in one. -/
private theorem byHeader_append (starts : MayStart (header ++ rest)) (name : IsNameText header)
    (other : ∀ c ∈ rest.head?, isHeaderChar c = false) :
    byHeader kind (header ++ rest) = endHeader kind header rest := by
  have hheader := (isNameText_iff header).mp name
  have hstop : rest.takeWhile isHeaderChar = [] ∧ rest.dropWhile isHeaderChar = rest := by
    cases rest with
    | nil => exact ⟨rfl, rfl⟩
    | cons c rest =>
        have hc : ¬ isHeaderChar c = true := by simp [other c rfl]
        exact ⟨List.takeWhile_cons_of_neg hc, List.dropWhile_cons_of_neg hc⟩
  rw [byHeader, if_neg (mayStart_iff.mp starts), List.takeWhile_append_of_pos hheader,
    List.dropWhile_append_of_pos hheader, hstop.1, hstop.2, List.append_nil]

theorem isHeaderChar_opening : isHeaderChar '(' = false := by decide

/-- A judgement is what the reading comes to. -/
theorem Judges.read_eq (h : Judges kind before t result) :
    read kind (before ++ t) before.byteLength = result := by
  have place (front : Text) : front.byteLength + before.byteLength =
      Text.byteLength (before ++ front) := by
    rw [Text.byteLength_append, Nat.add_comm]
  rw [Reference.read_eq]
  cases h with
  | @invalidStart lead c back blank start =>
      have hc := isBlank_eq_false_of_isNameChar (isNameChar_of_cannotStartName start)
      have hstart : (Text.trimStart (lead ++ c :: back)).head?.any cannotStartName = true := by
        rw [trimStart_append blank hc]
        exact start
      rw [byHeader, if_pos hstart, shifted_found, Text.indent_append blank hc, place]
  | @invalidCharacter header c back starts name other opening =>
      rw [byHeader_append starts name (fun d hd => by cases hd; exact other), endHeader,
        if_pos opening, shifted_found, place]
  | @missingName header rest name blank next =>
      have starts : MayStart (header ++ rest) := by
        cases rest with
        | nil =>
            rw [List.append_nil, mayStart_iff, trimStart_of_isAllBlank blank]
            exact Bool.false_ne_true
        | cons c rest =>
            cases next c rfl
            exact mayStart_of_head blank (by decide) (by decide)
      have other : ∀ c ∈ rest.head?, isHeaderChar c = false := fun c hc => next c hc ▸ by decide
      rw [byHeader_append starts name other]
      cases rest with
      | nil => rw [endHeader, if_pos blank, shifted_found, Nat.zero_add]
      | cons c rest =>
          cases next c rfl
          rw [endHeader_opening, if_pos blank, shifted_found, Nat.zero_add]
  | bare starts name full =>
      rw [← List.append_nil t] at starts
      have hend : byHeader kind (t ++ []) = _ :=
        byHeader_append starts name (fun c hc => absurd hc (Option.not_mem_none c))
      rw [List.append_nil, endHeader, if_neg (by simp [full])] at hend
      rw [hend, ← place]
      rfl
  | @unclosedArguments header back starts name full inside =>
      rw [byHeader_append starts name (fun d hd => by cases hd; exact isHeaderChar_opening),
        endHeader_opening, if_neg (by simp [full]), inside]
      dsimp only
      rw [shifted_found, place]
  | @applied header back args starts name full inside =>
      have hopen : Text.byteLength (before ++ header) + 1 =
          header.byteLength + 1 + before.byteLength := by
        rw [← place]
        omega
      have hstop : header.byteLength + 1 + before.byteLength + args.byteLength + 1 =
          header.byteLength + 1 + args.byteLength + 1 + before.byteLength := by
        omega
      rw [byHeader_append starts name (fun d hd => by cases hd; exact isHeaderChar_opening),
        endHeader_opening, if_neg (by simp [full]), inside, hopen, hstop]
      rfl

/-- Every text is judged. -/
theorem exists_judges (kind : ReferenceKind) (before t : Text) :
    ∃ result, Judges kind before t result := by
  by_cases starts : MayStart t
  · obtain ⟨header, rest, rfl, hheader, hend⟩ := Text.exists_run isHeaderChar t
    have name := (isNameText_iff header).mpr hheader
    cases rest with
    | nil =>
        cases hblank : Text.isAllBlank header with
        | true => exact ⟨_, .missingName name hblank nofun⟩
        | false =>
            rw [List.append_nil] at starts ⊢
            exact ⟨_, .bare starts name hblank⟩
    | cons c back =>
        by_cases hc : c = '('
        · subst hc
          cases hblank : Text.isAllBlank header with
          | true => exact ⟨_, .missingName name hblank (fun c hc => by cases hc; rfl)⟩
          | false =>
              cases hinside : enclosed? .outermost 0 back with
              | none => exact ⟨_, .unclosedArguments starts name hblank hinside⟩
              | some args => exact ⟨_, .applied starts name hblank hinside⟩
        · exact ⟨_, .invalidCharacter starts name (hend c rfl) hc⟩
  · obtain ⟨lead, c, back, rfl, hlead, hc⟩ := exists_of_not_mayStart starts
    exact ⟨_, .invalidStart hlead hc⟩

theorem judges_read (kind : ReferenceKind) (before t : Text) :
    Judges kind before t (read kind (before ++ t) before.byteLength) := by
  obtain ⟨result, h⟩ := exists_judges kind before t
  rwa [h.read_eq]

/-- A reading comes to what its header alone is judged to come to, and to nothing else. -/
theorem read_iff_judged (kind : ReferenceKind) (before t : Text)
    (result : Except Failure Reference) :
    read kind (before ++ t) before.byteLength = result ↔ Judges kind before t result := by
  constructor
  · rintro rfl
    exact judges_read kind before t
  · exact Judges.read_eq

end Headers

end BindingCompiler.Reference
