import BindingCompiler.Text.Blank

/-!
Cuts of joined texts. Where a text is known as parts joined together, every part is found again at
its offset.
-/

namespace BindingCompiler.Text

theorem length_le_byteLength (t : Text) : t.length ≤ t.byteLength := by
  induction t with
  | nil => exact Nat.le_refl _
  | cons c t ih =>
      have := Char.utf8Size_pos c
      simp only [List.length_cons, byteLength]
      omega

theorem byteLength_singleton (c : Char) : byteLength [c] = c.utf8Size := rfl

theorem onward_append (front back : Text) : onward (front ++ back) front.byteLength = ⟨0, back⟩ := by
  induction front with
  | nil => exact onward_zero back
  | cons c front ih =>
      have hc := Char.utf8Size_pos c
      obtain ⟨k, hk⟩ : ∃ k, c.utf8Size + byteLength front = k + 1 :=
        ⟨c.utf8Size + byteLength front - 1, by omega⟩
      have hle : c.utf8Size ≤ k + 1 := by omega
      have hsub : k + 1 - c.utf8Size = byteLength front := by omega
      simp only [byteLength, List.cons_append, hk, onward, hle, if_true, hsub]
      exact ih

/-- Where a character begins, the text can be cut. -/
theorem exists_of_onward {t : Text} {offset : Nat} {c : Char}
    (h : (t.onward offset).head? = some c) :
    ∃ front back, t = front ++ c :: back ∧ front.byteLength = offset := by
  induction t generalizing offset with
  | nil => cases offset <;> cases h
  | cons d t ih =>
      cases offset with
      | zero =>
          cases h
          exact ⟨[], t, rfl, rfl⟩
      | succ k =>
          rw [onward] at h
          split at h
          · next hle =>
              obtain ⟨front, back, rfl, hlen⟩ := ih h
              exact ⟨d :: front, back, rfl, by rw [byteLength, hlen]; omega⟩
          · next hlt =>
              have hleft : d.utf8Size - (k + 1) ≠ 0 := by omega
              rw [Remainder.head?, if_neg hleft] at h
              cases h

theorem cut?_append (front back : Text) :
    cut? (front ++ back) front.byteLength = some (front, back) :=
  (cut?_eq_some_iff ..).mpr ⟨rfl, rfl⟩

/-- A text is joined from parts of given lengths in one way only. -/
theorem append_inj {front other back rest : Text} (h : front ++ back = other ++ rest)
    (hlen : front.byteLength = other.byteLength) : front = other ∧ back = rest := by
  have hcut := cut?_append front back
  rw [h, hlen, cut?_append] at hcut
  cases hcut
  exact ⟨rfl, rfl⟩

theorem rest?_append (front back : Text) : rest? (front ++ back) front.byteLength = some back := by
  rw [rest?_eq_cut?, cut?_append]
  rfl

theorem slice?_append (front mid back : Text) :
    slice? (front ++ (mid ++ back)) front.byteLength (front.byteLength + mid.byteLength) =
      some mid := by
  simp only [slice?, Nat.le_add_right, if_true, rest?_append, Option.bind_some,
    Nat.add_sub_cancel_left, cut?_append, Option.map_some]

theorem byteLength_eq_zero_iff {t : Text} : t.byteLength = 0 ↔ t = [] := by
  cases t with
  | nil => simp [byteLength]
  | cons c t =>
      have := Char.utf8Size_pos c
      simp only [byteLength, List.cons_ne_nil, iff_false]
      omega

/-- A text begins with a run of characters of one kind, up to the first of another. -/
theorem exists_run (p : Char → Bool) (t : Text) :
    ∃ run rest : Text, t = run ++ rest ∧ (∀ c ∈ run, p c = true) ∧
      ∀ c ∈ rest.head?, p c = false := by
  refine ⟨t.takeWhile p, t.dropWhile p, List.takeWhile_append_dropWhile.symm, ?_, ?_⟩
  · exact fun c hc => List.all_eq_true.mp List.all_takeWhile c hc
  · intro c hc
    have hstop := List.head?_dropWhile_not p t
    rw [hc] at hstop
    exact hstop

/-- The indent goes up to the first character that is not blank. -/
theorem indent_append {front back : Text} {c : Char} (hf : front.isAllBlank = true)
    (hc : isBlank c = false) : indent (front ++ c :: back) = front.byteLength := by
  have hstop : ¬ isBlank c = true := by simp [hc]
  rw [indent, List.takeWhile_append_of_pos (List.all_eq_true.mp hf),
    List.takeWhile_cons_of_neg hstop, List.append_nil]

theorem trim_eq_self_of_edges {t : Text} (hfirst : ∀ c ∈ t.head?, isBlank c = false)
    (hlast : ∀ c ∈ t.getLast?, isBlank c = false) : t.trim = t := by
  have hstart (s : Text) (hs : ∀ c ∈ s.head?, isBlank c = false) : s.dropWhile isBlank = s := by
    cases s with
    | nil => rfl
    | cons c s => exact List.dropWhile_cons_of_neg (by simp [hs c rfl])
  rw [trim, trimStart, hstart t hfirst, trimEnd, hstart t.reverse (by simpa using hlast),
    List.reverse_reverse]

theorem trim_eq_self {t : Text} (h : ∀ c ∈ t, isBlank c = false) : t.trim = t :=
  trim_eq_self_of_edges (fun c hc => h c (List.mem_of_head? hc))
    fun c hc => h c (List.mem_of_getLast? hc)

/-- Trimming leaves out blanks at either end and nothing else. -/
theorem exists_trim (t : Text) :
    ∃ lead trail : Text, t = lead ++ (t.trim ++ trail) ∧ lead.byteLength = t.indent ∧
      (∀ c ∈ lead, isBlank c = true) ∧ ∀ c ∈ trail, isBlank c = true := by
  refine ⟨t.takeWhile isBlank, (t.trimStart.reverse.takeWhile isBlank).reverse, ?_, rfl, ?_, ?_⟩
  · rw [trim, trimEnd, ← List.reverse_append, List.takeWhile_append_dropWhile, List.reverse_reverse,
      takeWhile_append_trimStart]
  · intro c hc
    exact List.all_eq_true.mp List.all_takeWhile c hc
  · intro c hc
    exact List.all_eq_true.mp List.all_takeWhile c (List.mem_reverse.mp hc)

theorem byteLength_trim_le (t : Text) : t.trim.byteLength ≤ t.byteLength := by
  obtain ⟨lead, trail, ht, -⟩ := t.exists_trim
  have hlen := congrArg byteLength ht
  rw [byteLength_append, byteLength_append] at hlen
  omega

/-- A text without the blanks around it does not begin with one. -/
theorem isBlank_head?_trim (t : Text) : ∀ c ∈ t.trim.head?, isBlank c = false := by
  intro c hc
  have hprefix : t.trim <+: t.trimStart := by
    have hsuffix : t.trimStart.reverse.dropWhile isBlank <:+ t.trimStart.reverse :=
      List.dropWhile_suffix _
    exact List.reverse_suffix.mp (by rwa [trim, trimEnd, List.reverse_reverse])
  have hstart := List.head?_dropWhile_not isBlank t
  obtain ⟨rest, hrest⟩ := hprefix
  cases ht : t.trim with
  | nil =>
      rw [ht] at hc
      cases hc
  | cons d s =>
      rw [ht] at hc hrest
      cases hc
      rw [trimStart] at hrest
      rw [← hrest] at hstart
      exact hstart

/-- A text without the blanks around it does not end with one. -/
theorem isBlank_getLast?_trim (t : Text) : ∀ c ∈ t.trim.getLast?, isBlank c = false := by
  intro c hc
  rw [trim, trimEnd, List.getLast?_reverse] at hc
  have hend := List.head?_dropWhile_not isBlank t.trimStart.reverse
  rw [hc] at hend
  exact hend

/-- A text that is not all blank has a first character that is none. -/
theorem exists_of_not_isAllBlank {t : Text} (h : t.isAllBlank = false) :
    ∃ (lead : Text) (c : Char) (back : Text), t = lead ++ c :: back ∧ lead.isAllBlank = true ∧
      isBlank c = false := by
  induction t with
  | nil => cases h
  | cons c t ih =>
      cases hc : isBlank c with
      | false => exact ⟨[], c, t, rfl, rfl, hc⟩
      | true =>
          rw [isAllBlank, List.all_cons, hc, Bool.true_and] at h
          obtain ⟨lead, d, back, rfl, hlead, hd⟩ := ih h
          refine ⟨c :: lead, d, back, rfl, ?_, hd⟩
          rw [isAllBlank, List.all_cons, hc, Bool.true_and]
          exact hlead

end BindingCompiler.Text
