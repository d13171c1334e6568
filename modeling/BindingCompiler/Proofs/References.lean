import BindingCompiler.Proofs.Headers

/-!
Where a reference lies that was read. Its name is made of name characters and blanks of code that
no string interrupts; its arguments end at a parenthesis that a scan of the arguments alone would
also find in code.
-/

namespace BindingCompiler.Reference

def IsNameText (t : Text) : Prop :=
  ∀ c ∈ t, isNameChar c = true ∨ isCodeBlank c = true

/-- The place of a reference in the text behind some other text. -/
inductive Lies (before : Text) : Text → Reference → Prop where
  | bare {t : Text} (name : IsNameText t) :
      Lies before t ⟨t.trim, none, Text.byteLength (before ++ t)⟩
  | applied {front args rest : Text} (name : IsNameText front)
      (code : (Nesting.outermost.after args).region = .code) :
      Lies before (front ++ '(' :: (args ++ ')' :: rest))
        ⟨Text.trim front, some ⟨args, Text.byteLength (before ++ front) + 1⟩,
          Text.byteLength (before ++ front) + 1 + args.byteLength + 1⟩

theorem isNameText_iff (t : Text) : IsNameText t ↔ ∀ c ∈ t, isHeaderChar c = true := by
  simp only [IsNameText, isHeaderChar, Bool.or_eq_true]

theorem isNameText_takeWhile (t : Text) : IsNameText (t.takeWhile isHeaderChar) :=
  (isNameText_iff _).mpr fun c hc => List.all_eq_true.mp List.all_takeWhile c hc

/-- A reference in a text lies in the same place of it when other text comes in front. -/
theorem Lies.shift {t : Text} {r : Reference} (h : Lies [] t r) (before : Text) :
    Lies before t (r.shift before.byteLength) := by
  cases h with
  | bare name =>
      have hlies : Lies before t _ := .bare name
      rw [Text.byteLength_append, Nat.add_comm] at hlies
      exact hlies
  | @applied front args rest name code =>
      have hlies : Lies before (front ++ '(' :: (args ++ ')' :: rest)) _ := .applied name code
      have hopen : Text.byteLength (before ++ front) + 1 =
          Text.byteLength front + 1 + before.byteLength := by
        rw [Text.byteLength_append]
        omega
      have hclose : Text.byteLength front + 1 + before.byteLength + args.byteLength + 1 =
          Text.byteLength front + 1 + args.byteLength + 1 + before.byteLength := by
        omega
      rw [hopen, hclose] at hlies
      exact hlies

theorem lies_of_byHeader {kind : ReferenceKind} {t : Text} {r : Reference}
    (h : byHeader kind t = .ok r) : Lies [] t r := by
  have hsplit : t.takeWhile isHeaderChar ++ t.dropWhile isHeaderChar = t :=
    List.takeWhile_append_dropWhile
  have hname := isNameText_takeWhile t
  rw [byHeader] at h
  split at h
  · cases h
  · generalize t.takeWhile isHeaderChar = header at h hsplit hname
    generalize t.dropWhile isHeaderChar = rest at h hsplit
    subst hsplit
    cases rest with
    | nil =>
        rw [endHeader] at h
        split at h
        · cases h
        · cases h
          rw [List.append_nil]
          exact .bare hname
    | cons c rest =>
        by_cases hc : c = '('
        · subst hc
          rw [endHeader_opening] at h
          split at h
          · cases h
          · split at h
            · cases h
            · next args henclosed =>
                cases h
                obtain ⟨rest, rfl, hcode⟩ := exists_of_enclosed? henclosed
                exact .applied hname hcode
        · rw [endHeader, if_pos hc] at h
          cases h

/-- A reference that was read lies where it says. -/
theorem lies_of_read {kind : ReferenceKind} {before t : Text} {r : Reference}
    (h : read kind (before ++ t) before.byteLength = .ok r) : Lies before t r := by
  rw [read_eq] at h
  cases hr : byHeader kind t with
  | error failure =>
      rw [hr] at h
      cases h
  | ok r =>
      rw [hr] at h
      cases h
      exact (lies_of_byHeader hr).shift before

/-- No reference begins behind the end of the source. -/
theorem read_min (kind : ReferenceKind) (source : Text) (offset : Nat) :
    read kind source offset = read kind source (min offset source.byteLength) := by
  have hplace : Scanner.startAt source offset =
      Scanner.startAt source (min offset source.byteLength) :=
    Scanner.eq_of_place rfl (by simp [Scanner.startAt]) rfl rfl
  rw [read, read, hplace]

theorem read_eq_stuck {kind : ReferenceKind} {source : Text} {offset : Nat}
    (h : ¬ source.IsBoundary (min offset source.byteLength)) :
    read kind source offset = .error .stuck := by
  have hnone : source.cut? (min offset source.byteLength) = none := by
    rwa [Text.isBoundary_iff, Option.not_isSome_iff_eq_none] at h
  simp only [read, Scanner.startAt, Text.rest?_eq_cut?, hnone]
  rfl

/-- A reference can only be read at a place of the source where the text can be cut. -/
theorem exists_lies_of_read {kind : ReferenceKind} {source : Text} {offset : Nat} {r : Reference}
    (h : read kind source offset = .ok r) :
    ∃ before t, source = before ++ t ∧ r.Lies before t := by
  by_cases hplace : source.IsBoundary (min offset source.byteLength)
  · obtain ⟨before, t, rfl, hbefore⟩ := hplace
    rw [read_min, ← hbefore] at h
    exact ⟨before, t, rfl, lies_of_read h⟩
  · rw [read_eq_stuck hplace] at h
    cases h

theorem Lies.length_arguments {before t : Text} {r : Reference} {a : Arguments}
    (h : Lies before t r) (ha : r.arguments = some a) : a.text.length < t.length := by
  cases h with
  | bare => cases ha
  | applied =>
      cases ha
      simp only [List.length_append, List.length_cons]
      omega

theorem Lies.byteLength_arguments {before t : Text} {r : Reference} {a : Arguments}
    (h : Lies before t r) (ha : r.arguments = some a) : a.text.byteLength < t.byteLength := by
  cases h with
  | bare => cases ha
  | applied =>
      cases ha
      have hopen : Char.utf8Size '(' = 1 := rfl
      simp only [Text.byteLength_append, Text.byteLength, hopen]
      omega

/-- What a reference takes up of its text, and what follows it. -/
theorem Lies.exists_used {t : Text} {r : Reference} (h : Lies [] t r) :
    ∃ used rest, t = used ++ rest ∧ r.stop = Text.byteLength used := by
  cases h with
  | bare => exact ⟨t, [], (List.append_nil t).symm, rfl⟩
  | @applied front args rest name code =>
      have hopen : Char.utf8Size '(' = 1 := rfl
      have hclose : Char.utf8Size ')' = 1 := rfl
      refine ⟨front ++ '(' :: (args ++ [')']), rest, by simp, ?_⟩
      simp only [List.nil_append, Text.byteLength_append, Text.byteLength, hopen, hclose]
      omega

theorem rest?_applied (before front args rest : Text) :
    Text.rest? (before ++ (front ++ '(' :: (args ++ ')' :: rest)))
      (Text.byteLength (before ++ front) + 1 + args.byteLength + 1) = some rest := by
  have hend := Text.rest?_append (before ++ (front ++ '(' :: (args ++ [')']))) rest
  have hstop : Text.byteLength (before ++ (front ++ '(' :: (args ++ [')']))) =
      Text.byteLength (before ++ front) + 1 + args.byteLength + 1 := by
    have hopen : Char.utf8Size '(' = 1 := rfl
    have hclose : Char.utf8Size ')' = 1 := rfl
    simp only [Text.byteLength_append, Text.byteLength, hopen, hclose]
    omega
  rw [hstop] at hend
  simpa using hend

theorem Lies.exists_rest {before t : Text} {r : Reference} (h : Lies before t r) :
    ∃ rest, Text.rest? (before ++ t) r.stop = some rest := by
  cases h with
  | bare name =>
      have hend := Text.rest?_append (before ++ t) []
      rw [List.append_nil] at hend
      exact ⟨[], hend⟩
  | @applied front args rest name code => exact ⟨rest, rest?_applied before front args rest⟩

end BindingCompiler.Reference
