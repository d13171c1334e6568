import BindingCompiler.Nesting

/-!
One round of reading. Every fact about a round is an analysis of the ways in which a character can
be read; the ways are listed once, and the list is exact.
-/

namespace BindingCompiler

theorem Quote.ofMark?_eq_some_iff {c : Char} {quote : Quote} :
    Quote.ofMark? c = some quote ↔ c = quote.mark := by
  constructor
  · intro h
    simp only [Quote.ofMark?] at h
    split at h
    · cases h
      assumption
    · split at h
      · cases h
        assumption
      · cases h
  · intro h
    rw [h]
    cases quote <;> rfl

namespace Nesting

/-- A character of code that is content and moves no count. -/
def IsPlain (c : Char) : Prop :=
  Quote.ofMark? c = none ∧ c ≠ templateMark ∧ c ≠ '{' ∧ c ≠ '}' ∧ isCodeBlank c = false

instance (c : Char) : Decidable (IsPlain c) :=
  inferInstanceAs (Decidable (_ ∧ _))

/-- The ways of reading a character, given the character behind it. -/
inductive Reads : Nesting → Char → Option Char → Reading → Prop where
  | openQuote {quote d ops next} :
      Reads ⟨.code, d, ops⟩ quote.mark next (.skip 1 ⟨.quoted quote false, d, ops⟩)
  | openTemplate {d ops next} :
      Reads ⟨.code, d, ops⟩ templateMark next (.skip 1 ⟨.template false, d, ops⟩)
  | openBrace {d ops next} :
      Reads ⟨.code, d, ops⟩ '{' next (.visit ⟨.code, d + 1, ops⟩)
  | closeInterpolation {d ops next} :
      Reads ⟨.code, d, (d - 1) :: ops⟩ '}' next (.skip 1 ⟨.template false, d - 1, ops⟩)
  | closeBrace {d ops next} (h : ops.head? ≠ some (d - 1)) :
      Reads ⟨.code, d, ops⟩ '}' next (.visit ⟨.code, d - 1, ops⟩)
  | blank {c d ops next} (h : isCodeBlank c = true) :
      Reads ⟨.code, d, ops⟩ c next (.skip 1 ⟨.code, d, ops⟩)
  | plain {c d ops next} (h : IsPlain c) :
      Reads ⟨.code, d, ops⟩ c next (.visit ⟨.code, d, ops⟩)
  | closeQuote {quote d ops next} :
      Reads ⟨.quoted quote false, d, ops⟩ quote.mark next (.skip 1 ⟨.code, d, ops⟩)
  | escapeQuoted {quote d ops next} :
      Reads ⟨.quoted quote false, d, ops⟩ '\\' next (.skip 1 ⟨.quoted quote true, d, ops⟩)
  | quoted {c quote d ops next} (mark : c ≠ quote.mark) (escape : c ≠ '\\') :
      Reads ⟨.quoted quote false, d, ops⟩ c next (.visit ⟨.quoted quote false, d, ops⟩)
  | escapedQuoted {c quote d ops next} :
      Reads ⟨.quoted quote true, d, ops⟩ c next (.visit ⟨.quoted quote true, d, ops⟩)
  | openInterpolation {d ops} :
      Reads ⟨.template false, d, ops⟩ '$' (some '{') (.skip 2 ⟨.code, d + 1, d :: ops⟩)
  | closeTemplate {d ops next} :
      Reads ⟨.template false, d, ops⟩ templateMark next (.skip 1 ⟨.code, d, ops⟩)
  | escapeTemplate {d ops next} :
      Reads ⟨.template false, d, ops⟩ '\\' next (.skip 1 ⟨.template true, d, ops⟩)
  | template {c d ops next} (opening : ¬ (c = '$' ∧ next = some '{')) (mark : c ≠ templateMark)
      (escape : c ≠ '\\') :
      Reads ⟨.template false, d, ops⟩ c next (.visit ⟨.template false, d, ops⟩)
  | escapedTemplate {c d ops next} :
      Reads ⟨.template true, d, ops⟩ c next (.visit ⟨.template true, d, ops⟩)

private theorem reads_readCode (d : Nat) (ops : List Nat) (c : Char) (next : Option Char) :
    Reads ⟨.code, d, ops⟩ c next (readCode ⟨.code, d, ops⟩ c) := by
  simp only [readCode]
  split
  case h_1 quote hq =>
      cases Quote.ofMark?_eq_some_iff.mp hq
      exact .openQuote
  case h_2 hq =>
      split
      case isTrue h => cases h; exact .openTemplate
      case isFalse hm =>
        split
        case isTrue h => cases h; exact .openBrace
        case isFalse ho =>
          split
          case isTrue h =>
            cases h
            cases ops with
            | nil => exact .closeBrace (by simp)
            | cons b ops =>
                simp only [readClosingBrace]
                split
                case isTrue h => cases h; exact .closeInterpolation
                case isFalse h => exact .closeBrace (by simpa using h)
          case isFalse hc =>
            split
            case isTrue h => exact .blank h
            case isFalse hb => exact .plain ⟨hq, hm, ho, hc, by simpa using hb⟩

theorem reads_read (n : Nesting) (c : Char) (next : Option Char) :
    Reads n c next (n.read (some c) next) := by
  obtain ⟨region, d, ops⟩ := n
  cases region with
  | code => exact reads_readCode d ops c next
  | quoted quote escaping =>
      cases escaping with
      | true => exact .escapedQuoted
      | false =>
          simp only [read, readQuoted]
          split
          case isTrue h => cases h; exact .closeQuote
          case isFalse hm =>
            split
            case isTrue h => cases h; exact .escapeQuoted
            case isFalse he => exact .quoted hm he
  | template escaping =>
      cases escaping with
      | true => exact .escapedTemplate
      | false =>
          simp only [read, readTemplate]
          split
          case isTrue h => cases h.1; cases h.2; exact .openInterpolation
          case isFalse ho =>
            split
            case isTrue h => cases h; exact .closeTemplate
            case isFalse hm =>
              split
              case isTrue h => cases h; exact .escapeTemplate
              case isFalse he => exact .template ho hm he

/-- A character that neither begins a string nor opens or closes anything. -/
def IsInert (c : Char) : Prop :=
  Quote.ofMark? c = none ∧ c ≠ templateMark ∧ c ≠ '{' ∧ c ≠ '}'

instance (c : Char) : Decidable (IsInert c) :=
  inferInstanceAs (Decidable (_ ∧ _))

theorem isInert_of_class {isMember : Char → Bool} {c : Char}
    (hm : ['\x27', '\x22', templateMark, '{', '}'].any isMember = false)
    (h : isMember c = true) : IsInert c := by
  have hne : ∀ d ∈ ['\x27', '\x22', templateMark, '{', '}'], c ≠ d := by
    intro d hd hc
    have hnot := List.any_eq_false.mp hm d hd
    rw [hc] at h
    exact hnot h
  refine ⟨?_, hne _ (by simp), hne _ (by simp), hne _ (by simp)⟩
  cases hq : Quote.ofMark? c with
  | none => rfl
  | some quote =>
      have hmark := Quote.ofMark?_eq_some_iff.mp hq
      cases quote with
      | single => exact absurd hmark (hne '\x27' (by simp))
      | double => exact absurd hmark (hne '\x22' (by simp))

theorem isInert_of_isCodeBlank {c : Char} (h : isCodeBlank c = true) : IsInert c :=
  isInert_of_class (by decide) h

theorem Reads.read_eq {n : Nesting} {c : Char} {next : Option Char} {r : Reading}
    (h : Reads n c next r) : n.read (some c) next = r := by
  cases h with
  | @openQuote quote => cases quote <;> rfl
  | openTemplate | openBrace | escapedQuoted | openInterpolation
  | closeTemplate | escapedTemplate => rfl
  | closeInterpolation =>
      simp only [read, readCode, readClosingBrace]
      rfl
  | @closeBrace d ops _ h =>
      cases ops with
      | nil => rfl
      | cons b ops =>
          have hb : b ≠ d - 1 := by simpa using h
          simp only [read, readCode, readClosingBrace, if_neg hb]
          rfl
  | blank h =>
      obtain ⟨hq, hm, ho, hc⟩ := isInert_of_isCodeBlank h
      simp only [read, readCode, hq, if_neg hm, if_neg ho, if_neg hc, h, if_true]
  | plain h =>
      obtain ⟨hq, hm, ho, hc, hb⟩ := h
      simp only [read, readCode, hq, if_neg hm, if_neg ho, if_neg hc, hb, Bool.false_eq_true,
        if_false]
  | closeQuote => simp only [read, readQuoted, if_true]
  | @escapeQuoted quote => cases quote <;> rfl
  | quoted mark escape => simp only [read, readQuoted, if_neg mark, if_neg escape]
  | escapeTemplate => rfl
  | template opening mark escape =>
      simp only [read, readTemplate, if_neg opening, if_neg mark, if_neg escape]

/-- The character behind matters only in telling a dollar sign from the opening of an
interpolation. -/
theorem Reads.congr_next {n : Nesting} {c : Char} {next other : Option Char} {r : Reading}
    (h : Reads n c next r)
    (same : n.region = .template false → c = '$' → (next = some '{' ↔ other = some '{')) :
    Reads n c other r := by
  cases h with
  | openInterpolation =>
      cases (same rfl rfl).mp rfl
      exact .openInterpolation
  | template opening mark escape =>
      exact .template (fun hc => opening ⟨hc.1, (same rfl hc.1).mpr hc.2⟩) mark escape
  | closeBrace h => exact .closeBrace h
  | blank h => exact .blank h
  | plain h => exact .plain h
  | quoted mark escape => exact .quoted mark escape
  | openQuote | openTemplate | openBrace | closeInterpolation | closeQuote | escapeQuoted
  | escapedQuoted | closeTemplate | escapeTemplate | escapedTemplate => constructor

theorem toNat_of_isCodeBlank {c : Char} (h : isCodeBlank c = true) : c.toNat ≤ 32 := by
  simp only [isCodeBlank, Bool.or_eq_true, beq_iff_eq, Bool.and_eq_true, decide_eq_true_eq] at h
  cases h with
  | inl h =>
      rw [h]
      decide
  | inr h => exact Nat.le_trans (UInt32.le_iff_toNat_le.mp h.2) (by decide)

theorem utf8Size_of_isCodeBlank {c : Char} (h : isCodeBlank c = true) : c.utf8Size = 1 :=
  Char.utf8Size_eq_one_iff.mpr
    (UInt32.le_iff_toNat_le.mpr (Nat.le_trans (toNat_of_isCodeBlank h) (by decide)))

/-- Marks that are not shown take one byte each. -/
theorem Reads.utf8Size_eq_one {n after : Nesting} {c : Char} {next : Option Char} {width : Nat}
    (h : Reads n c next (.skip width after)) : c.utf8Size = 1 := by
  cases h with
  | @openQuote quote | @closeQuote quote => cases quote <;> rfl
  | blank h => exact utf8Size_of_isCodeBlank h
  | openTemplate | closeInterpolation | escapeQuoted | openInterpolation | closeTemplate
  | escapeTemplate => rfl

/-- Only the opening of an interpolation takes two characters. -/
theorem Reads.skip_cases {n after : Nesting} {c : Char} {next : Option Char} {width : Nat}
    (h : Reads n c next (.skip width after)) :
    width = 1 ∨ (width = 2 ∧ c = '$' ∧ next = some '{' ∧ n.region = .template false ∧
      after = ⟨.code, n.depth + 1, n.depth :: n.openings⟩) := by
  cases h with
  | openInterpolation => exact .inr ⟨rfl, rfl, rfl, rfl, rfl⟩
  | openQuote | openTemplate | closeInterpolation | blank | closeQuote | escapeQuoted
  | closeTemplate | escapeTemplate => exact .inl rfl

theorem Reads.region_visit {n within : Nesting} {c : Char} {next : Option Char}
    (h : Reads n c next (.visit within)) : within.region = n.region := by
  cases h <;> rfl

theorem Reads.eq_of_plain {n within : Nesting} {c : Char} {next : Option Char}
    (h : Reads n c next (.visit within)) (hc : IsPlain c) (hw : within.region = .code) :
    within = n := by
  obtain ⟨region, d, ops⟩ := n
  cases h.region_visit.symm.trans hw
  exact Reading.visit.inj (h.read_eq.symm.trans (Reads.plain hc).read_eq)

theorem isString_eq_false_iff {region : Region} : region.isString = false ↔ region = .code := by
  cases region <;> simp [Region.isString]

theorem settled_of_code {n : Nesting} (h : n.region = .code) : n.settled = n := by
  obtain ⟨region, d, ops⟩ := n
  cases h
  rfl

theorem isString_settled (n : Nesting) : n.settled.region.isString = n.region.isString := by
  obtain ⟨region, d, ops⟩ := n
  cases region <;> rfl

/-- The braces that were open in front of each interpolation grow from the outermost to the
innermost, and stay below those open now. -/
def WellFormed (n : Nesting) : Prop :=
  (n.depth :: n.openings).Pairwise (· > ·)

theorem wellFormed_outermost : outermost.WellFormed :=
  List.pairwise_singleton ..

/-- In code, no open brace means no open interpolation. -/
theorem eq_outermost_of_depth {n : Nesting} (hn : n.WellFormed) (hc : n.region = .code)
    (hd : n.depth = 0) : n = outermost := by
  obtain ⟨region, d, ops⟩ := n
  cases hc
  cases hd
  cases ops with
  | nil => rfl
  | cons b ops => exact absurd ((List.pairwise_cons.mp hn).1 b (List.mem_cons_self ..)) (by simp)

theorem Reads.wellFormed_skip {n after : Nesting} {c : Char} {next : Option Char} {width : Nat}
    (h : Reads n c next (.skip width after)) (hn : n.WellFormed) : after.WellFormed := by
  cases h with
  | closeInterpolation =>
      simp only [WellFormed, List.pairwise_cons] at hn ⊢
      exact hn.2
  | openInterpolation =>
      simp only [WellFormed, List.pairwise_cons, List.mem_cons] at hn ⊢
      refine ⟨?_, hn⟩
      intro o ho
      cases ho with
      | inl ho => exact ho ▸ Nat.lt_succ_self _
      | inr ho => exact Nat.lt_succ_of_lt (hn.1 o ho)
  | openQuote | openTemplate | blank | closeQuote | escapeQuoted | closeTemplate
  | escapeTemplate => exact hn

theorem Reads.wellFormed_visit {n within : Nesting} {c : Char} {next : Option Char}
    (h : Reads n c next (.visit within)) (hn : n.WellFormed) : within.WellFormed := by
  cases h with
  | openBrace =>
      simp only [WellFormed, List.pairwise_cons] at hn ⊢
      exact ⟨fun o ho => Nat.lt_succ_of_lt (hn.1 o ho), hn.2⟩
  | @closeBrace d ops _ hd =>
      cases ops with
      | nil => exact List.pairwise_singleton ..
      | cons b ops =>
          simp only [WellFormed, List.pairwise_cons, List.mem_cons] at hn ⊢
          have hb : b < d := hn.1 b (.inl rfl)
          have hne : b ≠ d - 1 := by simpa using hd
          refine ⟨?_, hn.2⟩
          intro o ho
          cases ho with
          | inl ho => omega
          | inr ho =>
              have hlt := hn.2.1 o ho
              omega
  | plain | quoted | escapedQuoted | template | escapedTemplate => exact hn

end Nesting

end BindingCompiler
