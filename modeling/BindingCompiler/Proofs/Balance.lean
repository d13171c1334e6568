import BindingCompiler.Proofs.Scanning
import BindingCompiler.Reference

/-!
Balanced texts. A scan of a balanced text ends where it began, in code with nothing open, and every
closing brace of code that it meets closes something. Balanced texts may stand next to each other,
be trimmed, and be taken inside braces without any effect on the code around them.
-/

namespace BindingCompiler

/-- A scan of the text meets no closing brace of code while none is open, and ends in code inside
no brace, interpolation or string. -/
structure Text.Balanced (t : Text) : Prop where
  opened : ∀ s, (Scanner.start t).Reaches s → s.inCode → s.here? = some '}' → s.nesting.depth ≠ 0
  closed : (Scanner.start t).finish.nesting = .outermost

namespace Nesting

theorem isInert_of_all {t : Text} (h : t.all (IsInert ·) = true) : ∀ c ∈ t, IsInert c := by
  simpa using h

theorem isInert_of_isBlank {c : Char} (h : isBlank c = true) : IsInert c :=
  isInert_of_class (by decide) h

theorem isInert_of_isNameChar {c : Char} (h : isNameChar c = true) : IsInert c :=
  isInert_of_class (by decide) h

theorem pass?_inert {n : Nesting} {t : Text} (hn : n.region = .code) (ht : ∀ c ∈ t, IsInert c) :
    n.pass? t = some n := by
  induction t with
  | nil => rfl
  | cons c t ih =>
      obtain ⟨region, d, ops⟩ := n
      cases hn
      obtain ⟨hq, hm, ho, hc⟩ := ht c (List.mem_cons_self ..)
      have hu : ¬ Unmatched ⟨.code, d, ops⟩ c := fun h => hc h.2.2
      have hrest := ih fun e he => ht e (List.mem_cons_of_mem _ he)
      cases hb : isCodeBlank c with
      | true => rw [pass?_skip (.blank hb) hu, hrest]
      | false =>
          rw [pass?_visit (.plain ⟨hq, hm, ho, hc, hb⟩) hu]
          exact hrest

/-- The inside of a quoted string runs up to the mark that ends it. -/
theorem pass?_quoted {quote : Quote} {d : Nat} {ops : List Nat} {t rest : Text}
    (ht : ∀ c ∈ t, c ≠ quote.mark ∧ c ≠ '\\') :
    pass? ⟨.quoted quote false, d, ops⟩ (t ++ quote.mark :: rest) = pass? ⟨.code, d, ops⟩ rest := by
  have hu (c : Char) : ¬ Unmatched ⟨.quoted quote false, d, ops⟩ c := fun h => by cases h.1
  induction t with
  | nil => exact pass?_skip .closeQuote (hu _)
  | cons c t ih =>
      obtain ⟨hm, he⟩ := ht c (List.mem_cons_self ..)
      rw [List.cons_append, pass?_visit (.quoted hm he) (hu c)]
      exact ih fun e he => ht e (List.mem_cons_of_mem _ he)

private theorem Reads.not_blank_of_skip {n m : Nesting} {c : Char} {next : Option Char}
    {width : Nat} (h : Reads n c next (.skip width m)) (hn : n.region.isString = true) :
    isBlank c = false := by
  cases h with
  | @closeQuote quote => cases quote <;> decide
  | escapeQuoted | closeTemplate | escapeTemplate | openInterpolation => decide
  | openQuote | openTemplate | closeInterpolation | blank => cases hn

private theorem isString_after_blank (n : Nesting) (t : Text) (hn : n.region.isString = true)
    (ht : ∀ c ∈ t, isBlank c = true) : (n.after t).region.isString = true := by
  induction n, t using passage_induction with
  | nil n => exact hn
  | visit n c t within hr ih =>
      rw [after_visit hr]
      refine ih ?_ fun e he => ht e (List.mem_cons_of_mem _ he)
      rw [isString_settled, hr.region_visit]
      exact hn
  | skip n c t next hr ih =>
      have hc := ht c (List.mem_cons_self ..)
      rw [hr.not_blank_of_skip hn] at hc
      cases hc
  | opening d ops t ih => exact absurd (ht '$' (List.mem_cons_self ..)) (by decide)

/-- Blanks take a nesting nowhere else: those at the end of a text may be left out. -/
theorem eq_outermost_of_after_blank {n : Nesting} {t : Text} (ht : ∀ c ∈ t, isBlank c = true)
    (h : n.after t = outermost) : n = outermost := by
  cases hs : n.region.isString with
  | true =>
      have hend := isString_after_blank n t hs ht
      rw [h] at hend
      cases hend
  | false =>
      have hn := isString_eq_false_iff.mp hs
      rw [after_of_pass? (pass?_inert hn fun c hc => isInert_of_isBlank (ht c hc))] at h
      exact h

theorem cut_of_blank {n : Nesting} {s t : Text} (ht : ∀ c ∈ t, isBlank c = true) : Cut n s t := by
  apply cut_of_head
  intro _ hh
  exact absurd (ht '{' (List.mem_of_head? hh)) (by decide)

private theorem not_unmatched_iff (n : Nesting) (c : Char) (front t : Text) :
    ¬ n.Unmatched c ↔ ((Scanner.between front (c :: t) n).inCode →
      (Scanner.between front (c :: t) n).here? = some '}' → n.depth ≠ 0) := by
  rw [Scanner.inCode_eq_true_iff, Scanner.here?_between, List.head?_cons, Option.some.injEq]
  constructor
  · intro h hcode hc hd
    exact h ⟨hcode, hd, hc⟩
  · intro h hu
    exact h hu.1 hu.2.2 hu.2.1

theorem pass?_eq_some_iff (n : Nesting) (front t : Text) :
    n.pass? t = some (n.after t) ↔
      ∀ s, (Scanner.between front t n).Reaches s → s.inCode → s.here? = some '}' →
        s.nesting.depth ≠ 0 := by
  induction n, t using passage_induction generalizing front with
  | nil n =>
      refine iff_of_true rfl ?_
      intro s hs _ hh
      rw [Scanner.reaches_nil.mp hs] at hh
      cases hh
  | visit n c t within hr ih =>
      by_cases hu : n.Unmatched c
      · refine iff_of_false (by simp [pass?_unmatched hu]) ?_
        intro h
        exact (not_unmatched_iff n c front t).mpr (h _ .refl) hu
      · rw [pass?_visit hr hu, after_visit hr, ih (front ++ [c])]
        simp only [Scanner.reaches_visit hr, forall_eq_or_imp]
        exact (and_iff_right ((not_unmatched_iff n c front t).mp hu)).symm
  | skip n c t next hr ih =>
      by_cases hu : n.Unmatched c
      · refine iff_of_false (by simp [pass?_unmatched hu]) ?_
        intro h
        exact (not_unmatched_iff n c front t).mpr (h _ .refl) hu
      · rw [pass?_skip hr hu, after_skip hr, ih (front ++ [c])]
        simp only [Scanner.reaches_skip hr, forall_eq_or_imp]
        exact (and_iff_right ((not_unmatched_iff n c front t).mp hu)).symm
  | opening d ops t ih =>
      rw [pass?_opening, after_opening, ih (front ++ ['$', '{'])]
      simp only [Scanner.reaches_opening, forall_eq_or_imp]
      refine (and_iff_right ?_).symm
      intro hc
      cases hc

end Nesting

namespace Text

theorem balanced_iff (t : Text) :
    t.Balanced ↔ Nesting.outermost.pass? t = some .outermost := by
  have hp := Nesting.pass?_eq_some_iff .outermost [] t
  rw [← Scanner.start_between] at hp
  have hf : (Scanner.start t).finish.nesting = Nesting.outermost.after t := by
    rw [Scanner.finish_start]
    rfl
  constructor
  · intro h
    rw [hp.mpr h.opened, ← hf, h.closed]
  · intro h
    have ha := Nesting.after_of_pass? h
    exact ⟨hp.mp (by rw [h, ha]), hf.trans ha⟩

instance (t : Text) : Decidable t.Balanced :=
  decidable_of_iff _ (balanced_iff t).symm

theorem balanced_nil : Balanced [] :=
  (balanced_iff _).mpr rfl

theorem Balanced.append {s t : Text} (hs : s.Balanced) (ht : t.Balanced) :
    Balanced (s ++ t) := by
  rw [balanced_iff] at hs ht ⊢
  rw [Nesting.pass?_append_of_code hs rfl, ht]

theorem balanced_of_inert {t : Text} (h : ∀ c ∈ t, Nesting.IsInert c) : t.Balanced :=
  (balanced_iff t).mpr (Nesting.pass?_inert rfl h)

theorem Balanced.join {separator : Text} (hs : separator.Balanced) {parts : List Text}
    (h : ∀ t ∈ parts, Balanced t) : Balanced (List.intercalate separator parts) := by
  induction parts with
  | nil => exact balanced_nil
  | cons t parts ih =>
      cases parts with
      | nil => simpa using h t (List.mem_cons_self ..)
      | cons u parts =>
          rw [List.intercalate_cons_cons]
          have ht := h t (List.mem_cons_self ..)
          exact (ht.append hs).append (ih fun v hv => h v (List.mem_cons_of_mem _ hv))

/-- The parts of a balanced text at a place of code where nothing is open are balanced. -/
theorem Balanced.of_append {s t : Text} (h : Balanced (s ++ t))
    (hs : Nesting.outermost.after s = .outermost) : s.Balanced ∧ t.Balanced := by
  rw [balanced_iff] at h
  have hcut : Nesting.Cut .outermost s t := Nesting.cut_of_code (by rw [hs]; rfl)
  rw [hcut.pass?_append] at h
  obtain ⟨m, hm, ht⟩ := Option.bind_eq_some_iff.mp h
  have : m = .outermost := (Nesting.after_of_pass? hm).symm.trans hs
  subst this
  exact ⟨(balanced_iff s).mpr hm, (balanced_iff t).mpr ht⟩

/-- A balanced text without the blanks at either end is balanced. -/
theorem Balanced.trim {t : Text} (h : t.Balanced) : Balanced t.trim := by
  obtain ⟨lead, trail, ht, -, hl, hr⟩ := exists_trim t
  rw [ht] at h
  have hlead : Nesting.outermost.after lead = .outermost :=
    Nesting.after_of_pass? (Nesting.pass?_inert rfl fun c hc =>
      Nesting.isInert_of_isBlank (hl c hc))
  have hrest := (h.of_append hlead).2
  rw [balanced_iff] at hrest ⊢
  have hcut : Nesting.Cut .outermost t.trim trail := Nesting.cut_of_blank hr
  rw [hcut.pass?_append] at hrest
  obtain ⟨m, hm, htrail⟩ := Option.bind_eq_some_iff.mp hrest
  rw [hm, Nesting.eq_outermost_of_after_blank hr (Nesting.after_of_pass? htrail)]

end Text

end BindingCompiler
