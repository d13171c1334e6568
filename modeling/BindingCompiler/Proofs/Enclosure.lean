import BindingCompiler.Proofs.Chains
import BindingCompiler.Proofs.Templates

/-!
Compiled templates are balanced, whatever their text. Literal text cannot leave its marks, names
stay in their quotes, and everything that is taken over as it is was balanced where it stood.
-/

namespace BindingCompiler

open Nesting

section Calls

theorem balanced_operandsText {operands : List Text} (h : ∀ o ∈ operands, Text.Balanced o) :
    Text.Balanced (operandsText operands) := by
  induction operands with
  | nil => decide
  | cons operand operands ih =>
      have hcomma : Text.Balanced ", ".toList := by decide
      have hrest := ih fun o ho => h o (List.mem_cons_of_mem _ ho)
      have hall := (hcomma.append (h operand (List.mem_cons_self ..))).append hrest
      exact hall

/-- A call is balanced if its name has neither quotes nor backslashes. -/
theorem balanced_callByName {function name : Text} {operands : List Text}
    (hf : ∀ c ∈ function, IsInert c) (hn : ∀ c ∈ name, c ≠ '\x27' ∧ c ≠ '\\')
    (ho : ∀ o ∈ operands, Text.Balanced o) : Text.Balanced (callByName function name operands) := by
  have hopen : Text.Balanced (function ++ ['(']) :=
    (Text.balanced_of_inert hf).append (by decide)
  have hquoted : Text.Balanced ('\x27' :: (name ++ '\x27' :: operandsText operands)) := by
    rw [Text.balanced_iff]
    have hr : Reads outermost '\x27' (name ++ '\x27' :: operandsText operands).head?
        (.skip 1 ⟨.quoted .single false, 0, []⟩) := @Reads.openQuote .single 0 [] _
    have hname : ∀ c ∈ name, c ≠ Quote.single.mark ∧ c ≠ '\\' := hn
    rw [pass?_skip hr nofun]
    exact (pass?_quoted hname).trans ((Text.balanced_iff _).mp (balanced_operandsText ho))
  simpa [callByName] using hopen.append hquoted

end Calls

namespace Reference

theorem IsNameText.isInert {t : Text} (h : IsNameText t) : ∀ c ∈ t, IsInert c := by
  intro c hc
  cases h c hc with
  | inl h => exact isInert_of_isNameChar h
  | inr h => exact isInert_of_isBlank (isBlank_of_isCodeBlank h)

theorem Lies.quotable {before t : Text} {r : Reference} (h : Lies before t r) :
    ∀ c ∈ r.name, c ≠ '\x27' ∧ c ≠ '\\' := by
  have hname {t : Text} (h : IsNameText t) : ∀ c ∈ t.trim, c ≠ '\x27' ∧ c ≠ '\\' := by
    intro c hc
    obtain ⟨lead, trail, ht, -, -⟩ := Text.exists_trim t
    have hmem : c ∈ t := by
      rw [ht]
      exact List.mem_append_right _ (List.mem_append_left _ hc)
    refine ⟨?_, ?_⟩
    · intro hq
      have hnone := (h.isInert c hmem).1
      rw [hq] at hnone
      cases hnone
    · intro hq
      have hpart := h c hmem
      rw [hq] at hpart
      exact absurd hpart (by decide)
  cases h with
  | bare h => exact hname h
  | applied h _ => exact hname h

/-- The arguments of a reference are balanced where the text is that ends with them. -/
theorem Lies.balanced_arguments {t rest : Text} {r : Reference} {a : Arguments} (h : Lies [] t r)
    (ht : t.Balanced) (hrest : t.rest? r.stop = some rest) (hblank : rest.isAllBlank = true)
    (ha : r.arguments = some a) : a.text.Balanced := by
  cases h with
  | bare => cases ha
  | @applied front args back name code =>
      cases ha
      cases (rest?_applied [] front args back).symm.trans hrest
      have hopen : outermost.after (front ++ ['(']) = outermost := by
        have hinert : ∀ c ∈ front ++ ['('], IsInert c := by
          intro c hc
          cases List.mem_append.mp hc with
          | inl hc => exact name.isInert c hc
          | inr hc =>
              rw [List.mem_singleton.mp hc]
              decide
        exact after_of_pass? (pass?_inert rfl hinert)
      have hclose : ∀ c ∈ ')' :: rest, IsInert c := by
        intro c hc
        cases hc with
        | head => decide
        | tail _ hc => exact isInert_of_isBlank (List.all_eq_true.mp hblank c hc)
      have hinside : Text.Balanced (args ++ ')' :: rest) := by
        rw [← List.singleton_append, ← List.append_assoc] at ht
        exact (ht.of_append hopen).2
      rw [Text.balanced_iff] at hinside ⊢
      -- What follows the arguments moves nothing, so the nesting in front of it is the last one.
      have hcut : Cut outermost args (')' :: rest) := cut_of_code code
      rw [hcut.pass?_append] at hinside
      obtain ⟨m, hm, hrest⟩ := Option.bind_eq_some_iff.mp hinside
      rw [pass?_inert (by rw [← after_of_pass? hm, code]) hclose] at hrest
      rw [hm, hrest]

end Reference

namespace FilterChain

variable {pragma : Text}

theorem balanced_of_mem_texts {t u : Text} (ht : t.Balanced) (hu : u ∈ texts .outermost 0 [] t) :
    u.Balanced := by
  induction t using chain_induction with
  | single t hsingle =>
      rw [List.mem_singleton.mp hu]
      exact ht
  | separated front back hfront hsingle ih =>
      obtain ⟨hbefore, hrest⟩ := ht.of_append ((endsAtTop_iff front).mp hfront).1
      cases hu with
      | head => exact hbefore
      | tail _ hu => exact ih (hrest.of_append rfl).2 hu

theorem balanced_apply {value out : Text} {segment : Segment} (hp : ∀ c ∈ pragma, IsInert c)
    (hv : value.Balanced) (hs : segment.text.Balanced)
    (h : apply pragma value segment = .ok out) : out.Balanced := by
  obtain ⟨r, rest, hread, hrest, hblank, rfl⟩ := exists_read_of_apply h
  have hlies : r.Lies [] segment.text.trim := Reference.lies_of_read hread
  refine balanced_callByName hp hlies.quotable ?_
  intro o ho
  cases ho with
  | head => exact hv
  | tail _ ho =>
      cases operandsOf_cases r with
      | inl hnone =>
          rw [hnone] at ho
          cases ho
      | inr hsome =>
          obtain ⟨a, ha, hoperands⟩ := hsome
          rw [hoperands] at ho
          rw [List.mem_singleton.mp ho]
          exact hlies.balanced_arguments hs.trim hrest hblank ha

theorem balanced_foldlM {value out : Text} {segments : List Segment}
    (hp : ∀ c ∈ pragma, IsInert c) (hv : value.Balanced)
    (hs : ∀ segment ∈ segments, segment.text.Balanced)
    (h : segments.foldlM (apply pragma) value = .ok out) : out.Balanced := by
  induction segments generalizing value with
  | nil =>
      cases h
      exact hv
  | cons segment segments ih =>
      rw [List.foldlM_cons] at h
      obtain ⟨next, hnext, h⟩ := exists_of_bind_eq_ok h
      have hsegment := hs segment (List.mem_cons_self ..)
      exact ih (balanced_apply hp hv hsegment hnext)
        (fun s hmem => hs s (List.mem_cons_of_mem _ hmem)) h

/-- A balanced chain becomes balanced calls. -/
theorem balanced_of_compile {t out : Text} (hp : ∀ c ∈ pragma, IsInert c) (ht : t.Balanced)
    (h : compile t pragma = .ok out) : out.Balanced := by
  rw [compile, split_eq, ok_bind] at h
  have hall : ∀ segment ∈ placed 0 (texts .outermost 0 [] t), segment.text.Balanced :=
    fun segment hs => balanced_of_mem_texts ht (text_mem_of_mem_placed hs)
  split at h
  · cases h
    exact Text.balanced_nil
  · next base filters heq =>
      rw [heq] at hall
      exact balanced_foldlM hp (hall base (List.mem_cons_self ..)).trim
        (fun s hs => hall s (List.mem_cons_of_mem _ hs)) h

end FilterChain

namespace TemplateText

theorem head?_escapeLiteral {t rest : Text} (hrest : rest.head? ≠ some '{')
    (h : (escapeLiteral t ++ rest).head? = some '{') : t.head? = some '{' := by
  cases t with
  | nil => exact absurd h hrest
  | cons c t =>
      rw [escapeLiteral] at h
      split at h
      · exact absurd h (by simp)
      · exact h

/-- A character of literal text is escaped, or it is content as it stands. -/
theorem escapeLiteral_cases (d : Nat) (ops : List Nat) (c : Char) (t : Text) {rest : Text}
    (hrest : rest.head? ≠ some '{') :
    escapeLiteral (c :: t) = '\\' :: c :: escapeLiteral t ∨
      escapeLiteral (c :: t) = c :: escapeLiteral t ∧
        Reads ⟨.template false, d, ops⟩ c (escapeLiteral t ++ rest).head?
          (.visit ⟨.template false, d, ops⟩) := by
  rw [escapeLiteral]
  split
  · exact .inl rfl
  · next h =>
      have hc : c ≠ '\\' ∧ c ≠ templateMark ∧ ¬ (c = '$' ∧ t.head? = some '{') := by
        simpa only [not_or] using h
      exact .inr ⟨rfl, .template (fun hd => hc.2.2 ⟨hd.1, head?_escapeLiteral hrest hd.2⟩)
        hc.2.1 hc.1⟩

/-- Escaped text stays in its template literal. -/
theorem pass?_escapeLiteral (d : Nat) (ops : List Nat) (t : Text) {rest : Text}
    (hrest : rest.head? ≠ some '{') :
    pass? ⟨.template false, d, ops⟩ (escapeLiteral t ++ rest) =
      pass? ⟨.template false, d, ops⟩ rest := by
  have hu (c : Char) (escaping : Bool) : ¬ Unmatched ⟨.template escaping, d, ops⟩ c := fun h => by
    cases h.1
  induction t with
  | nil => rfl
  | cons c t ih =>
      cases escapeLiteral_cases d ops c t hrest with
      | inl h =>
          rw [h, List.cons_append, pass?_skip .escapeTemplate (hu _ _), List.cons_append,
            pass?_visit .escapedTemplate (hu _ _)]
          exact ih
      | inr h =>
          rw [h.1, List.cons_append, pass?_visit h.2 (hu _ _)]
          exact ih

theorem balanced_of_mem_literalPieces {t p : Text} (h : p ∈ literalPieces t) : p.Balanced := by
  rw [literalPieces_eq] at h
  split at h
  · cases h
  · have hr : Reads outermost templateMark (escapeLiteral t ++ [templateMark]).head?
        (.skip 1 ⟨.template false, 0, []⟩) := .openTemplate
    rw [List.mem_singleton.mp h, Text.balanced_iff, List.cons_append, pass?_skip hr nofun]
    exact pass?_escapeLiteral 0 [] t (by decide)

theorem balanced_of_mem_pieces {pragmas : Pragmas} {t p : Text} {parts : List Text}
    (hT : ∀ c ∈ pragmas.template, IsInert c) (hF : ∀ c ∈ pragmas.filter, IsInert c)
    (h : pieces pragmas t = .ok parts) (hp : p ∈ parts) : p.Balanced := by
  cases pieces_cases h with
  | inl hl =>
      rw [hl] at hp
      exact balanced_of_mem_literalPieces hp
  | inr ht =>
      obtain ⟨before, body, rest, compiled, others, rfl, hbody, hcompiled, hothers, rfl⟩ := ht
      cases List.mem_append.mp hp with
      | inl hp => exact balanced_of_mem_literalPieces hp
      | inr hp =>
          cases hp with
          | head =>
              have hopen : Text.Balanced (pragmas.template ++ ['(']) :=
                (Text.balanced_of_inert hT).append (by decide)
              have hcall := FilterChain.balanced_of_compile hF hbody.trim hcompiled
              have hclose : Text.Balanced [')'] := by decide
              simpa using (hopen.append hcall).append hclose
          | tail _ hp =>
              -- The pieces behind the tag are those of a shorter template.
              have hshorter := length_behind_tag before body rest
              exact balanced_of_mem_pieces hT hF hothers hp
  termination_by t.length

theorem balanced_of_compile {pragmas : Pragmas} {t out : Text}
    (hT : ∀ c ∈ pragmas.template, IsInert c) (hF : ∀ c ∈ pragmas.filter, IsInert c)
    (h : compile pragmas t = .ok out) : out.Balanced := by
  obtain ⟨parts, hparts, rfl⟩ := compile_eq_ok_iff.mp h
  have hplus : Text.Balanced " + ".toList := by decide
  exact hplus.join fun p hp => balanced_of_mem_pieces hT hF hparts hp

end TemplateText

end BindingCompiler
