import BindingCompiler.Proofs.Fixpoints
import BindingCompiler.Proofs.Segments

/-!
Compiled chains as fixed points. Each filter puts brackets around what was compiled before it, and
its arguments stand behind as many open brackets as in its segment, so that a compiled chain is one
segment. Compiling it once more changes nothing.
-/

namespace BindingCompiler

theorem Text.trim_trim (t : Text) : t.trim.trim = t.trim :=
  trim_eq_self_of_edges t.isBlank_head?_trim t.isBlank_getLast?_trim

namespace FilterChain

open Nesting

/-- Behind so many open brackets, a text ends no segment and closes no bracket that is not open. -/
structure Whole (brackets : Nat) (t : Text) : Prop where
  undivided : ∀ front back, t = front ++ (separator ++ back) →
    outermost.after front = .outermost → bracketsAfter .outermost brackets front ≠ 0
  closes : ClosesOpen brackets (outermost.code t)

/-- The text is whole, and behind it so many brackets are open and nothing else. -/
structure Leads (brackets : Nat) (t : Text) (left : Nat) : Prop extends Whole brackets t where
  after : outermost.after t = .outermost
  count : bracketsAfter .outermost brackets t = left

section Parts

variable {brackets opened left : Nat} {s t : Text}

theorem whole_zero_iff :
    Whole 0 t ↔ texts .outermost 0 [] t = [t] ∧ ClosesOpen 0 (outermost.code t) := by
  simp only [texts_eq_singleton_iff, endsAtTop_iff, not_and]
  exact ⟨fun h => ⟨h.undivided, h.closes⟩, fun h => ⟨h.1, h.2⟩⟩

theorem Leads.cut (hs : Leads brackets s opened) (t : Text) : Cut outermost s t :=
  cut_of_code (by rw [hs.after]; rfl)

theorem Leads.append_whole (hs : Leads brackets s opened) (ht : Whole opened t)
    (apart : s.getLast? ≠ some '|' ∨ t.head? ≠ some '>') : Whole brackets (s ++ t) where
  undivided := by
    intro front back hjoined hfront
    cases List.append_eq_append_iff.mp hjoined with
    | inl h =>
        obtain ⟨mid, rfl, hmid⟩ := h
        rw [(hs.cut mid).after_append, hs.after] at hfront
        rw [bracketsAfter_append (hs.cut mid), hs.after, hs.count]
        exact ht.undivided mid back hmid hfront
    | inr h =>
        obtain ⟨mid, hmid, hback⟩ := h
        cases mid with
        | nil =>
            rw [List.append_nil] at hmid
            rw [← hmid, hs.count]
            exact ht.undivided [] back hback.symm rfl
        | cons c mid =>
            obtain ⟨hbar, hback⟩ := List.cons.inj hback
            cases mid with
            | nil =>
                -- The separator would lie across the cut.
                have ht : '>' :: back = t := hback
                rw [hmid, ← hbar, List.getLast?_concat, ← ht] at apart
                simp at apart
            | cons d mid =>
                rw [← hbar, ← (List.cons.inj hback).1] at hmid
                exact hs.undivided front mid hmid hfront
  closes := by
    rw [(hs.cut t).code_append, closesOpen_append, ← bracketsAfter_eq, hs.after, hs.count]
    exact ⟨hs.closes, ht.closes⟩

theorem Leads.append (hs : Leads brackets s opened) (ht : Leads opened t left)
    (apart : s.getLast? ≠ some '|' ∨ t.head? ≠ some '>') : Leads brackets (s ++ t) left where
  toWhole := hs.append_whole ht.toWhole apart
  after := by rw [(hs.cut t).after_append, hs.after, ht.after]
  count := by rw [bracketsAfter_append (hs.cut t), hs.after, hs.count, ht.count]

theorem Whole.front (h : Whole brackets (s ++ t)) (cut : Cut outermost s t) : Whole brackets s where
  undivided := by
    intro front back hs
    exact h.undivided front (back ++ t) (by rw [hs]; simp)
  closes := by
    have hcloses := h.closes
    rw [cut.code_append, closesOpen_append] at hcloses
    exact hcloses.1

theorem Whole.behind (h : Whole brackets (s ++ t)) (hs : Leads brackets s opened) :
    Whole opened t where
  undivided := by
    intro front back ht hfront
    have hundivided := h.undivided (s ++ front) back (by rw [ht, List.append_assoc])
    rw [(hs.cut front).after_append, bracketsAfter_append (hs.cut front), hs.after, hs.count]
      at hundivided
    exact hundivided hfront
  closes := by
    have hcloses := h.closes
    rw [(hs.cut t).code_append, closesOpen_append, ← bracketsAfter_eq, hs.after, hs.count]
      at hcloses
    exact hcloses.2

theorem Leads.behind (h : Leads brackets (s ++ t) left) (hs : Leads brackets s opened) :
    Leads opened t left where
  toWhole := h.toWhole.behind hs
  after := by
    have hafter := h.after
    rwa [(hs.cut t).after_append, hs.after] at hafter
  count := by rw [← h.count, bracketsAfter_append (hs.cut t), hs.after, hs.count]

/-- Further brackets around a text that closes none of them are open wherever a separator is. -/
theorem ClosesOpen.whole (h : ClosesOpen brackets (outermost.code t)) {more : Nat}
    (hmore : 0 < more) : Whole (brackets + more) t where
  undivided := by
    intro front back ht hfront
    have hcut : Cut outermost front (separator ++ back) := cut_of_code (by rw [hfront]; rfl)
    rw [ht, hcut.code_append, closesOpen_append] at h
    rw [bracketsAfter_eq, (h.1.enclosed more).2]
    omega
  closes := (h.enclosed more).1

theorem Leads.enclosed (h : Leads brackets t left) {more : Nat} (hmore : 0 < more) :
    Leads (brackets + more) t (left + more) where
  toWhole := h.closes.whole hmore
  after := h.after
  count := by rw [bracketsAfter_eq, (h.closes.enclosed more).2, ← bracketsAfter_eq, h.count]

end Parts

/-- A character of code that opens and closes nothing and ends no separator. -/
def IsFiller (c : Char) : Prop :=
  IsInert c ∧ c ∉ ['(', ')', '[', ']', '>']

instance (c : Char) : Decidable (IsFiller c) :=
  inferInstanceAs (Decidable (_ ∧ _))

theorem isFiller_of_class {isMember : Char → Bool} {c : Char}
    (hm : ['\x27', '\x22', templateMark, '{', '}'].any isMember = false)
    (hn : ['(', ')', '[', ']', '>'].any isMember = false) (h : isMember c = true) : IsFiller c :=
  ⟨isInert_of_class hm h, fun hc => List.any_eq_false.mp hn c hc h⟩

section Fillers

variable {brackets left : Nat} {s t : Text}

theorem closesOpen_filler {code : Text} (h : ∀ c ∈ code, IsFiller c) (brackets : Nat) :
    ClosesOpen brackets code ∧ countBrackets brackets code = brackets := by
  induction code with
  | nil => exact ⟨trivial, rfl⟩
  | cons c code ih =>
      have hc : c ≠ '(' ∧ c ≠ ')' ∧ c ≠ '[' ∧ c ≠ ']' := by
        have := (h c (List.mem_cons_self ..)).2
        simp_all
      have hcount : countBracket c brackets = brackets := by
        simp [countBracket, hc.1, hc.2.1, hc.2.2.1, hc.2.2.2]
      obtain ⟨hcloses, hbrackets⟩ := ih fun d hd => h d (List.mem_cons_of_mem _ hd)
      refine ⟨⟨?_, ?_⟩, ?_⟩
      · intro hclose
        cases hclose with
        | inl hclose => exact absurd hclose hc.2.1
        | inr hclose => exact absurd hclose hc.2.2.2
      · rw [hcount]
        exact hcloses
      · exact (congrArg (countBrackets · code) hcount).trans hbrackets

theorem ne_joined_of_not_mem (h : '>' ∉ t) (front back : Text) :
    t ≠ front ++ (separator ++ back) := by
  rintro rfl
  exact h (by simp [separator])

theorem leads_filler (h : ∀ c ∈ t, IsFiller c) (brackets : Nat) : Leads brackets t brackets := by
  have hcode := @closesOpen_filler (outermost.code t) (fun c hc => h c (mem_of_mem_code hc)) brackets
  have hgt : '>' ∉ t := fun hmem => (h _ hmem).2 (by decide)
  refine ⟨⟨?_, hcode.1⟩, after_of_pass? (pass?_inert rfl fun c hc => (h c hc).1), ?_⟩
  · exact fun front back ht => absurd ht (ne_joined_of_not_mem hgt front back)
  · rw [bracketsAfter_eq, hcode.2]

theorem isFiller_of_isBlank {c : Char} (h : isBlank c = true) : IsFiller c :=
  isFiller_of_class (by decide) (by decide) h

theorem isFiller_of_isNameChar {c : Char} (h : isNameChar c = true) : IsFiller c :=
  isFiller_of_class (by decide) (by decide) h

/-- Blanks behind a text may be left out. -/
theorem Leads.before_blank (h : Leads brackets (s ++ t) left) (ht : ∀ c ∈ t, isBlank c = true) :
    Leads brackets s left := by
  have hcut : Cut outermost s t := cut_of_blank ht
  have hafter := h.after
  rw [hcut.after_append] at hafter
  have hs := eq_outermost_of_after_blank ht hafter
  have hblank := leads_filler (fun c hc => isFiller_of_isBlank (ht c hc))
    (bracketsAfter .outermost brackets s)
  refine ⟨h.toWhole.front hcut, hs, ?_⟩
  rw [← h.count, bracketsAfter_append hcut, hs, hblank.count]

theorem Whole.trim (h : Whole brackets t) : Whole brackets t.trim := by
  obtain ⟨lead, trail, ht, -, hlead, htrail⟩ := t.exists_trim
  rw [ht] at h
  have hblank := leads_filler (fun c hc => isFiller_of_isBlank (hlead c hc)) brackets
  exact (h.behind hblank).front (cut_of_blank htrail)

theorem Leads.trim (h : Leads brackets t left) : Leads brackets t.trim left := by
  obtain ⟨lead, trail, ht, -, hlead, htrail⟩ := t.exists_trim
  rw [ht] at h
  have hblank := leads_filler (fun c hc => isFiller_of_isBlank (hlead c hc)) brackets
  exact (h.behind hblank).before_blank htrail

end Fillers

section Calls

variable {function name value : Text} {operands : List Text}

theorem leads_bracket {c : Char} {brackets : Nat}
    (hr : Reads outermost c none (.visit .outermost)) (hgt : c ≠ '>')
    (hc : c = ')' ∨ c = ']' → brackets ≠ 0) : Leads brackets [c] (countBracket c brackets) := by
  have hcode : outermost.code [c] = [c] := (code_visit hr).trans (if_pos rfl)
  have hmem : '>' ∉ [c] := fun hmem => hgt (List.mem_singleton.mp hmem).symm
  refine ⟨⟨?_, ?_⟩, @after_visit outermost _ c [] hr, ?_⟩
  · exact fun front back ht => absurd ht (ne_joined_of_not_mem hmem front back)
  · rw [hcode]
    exact ⟨hc, trivial⟩
  · rw [bracketsAfter_eq, hcode]
    rfl

theorem leads_opening {front : Text} (h : ∀ c ∈ front, IsFiller c) (brackets : Nat) :
    Leads brackets (front ++ ['(']) (brackets + 1) :=
  (leads_filler h brackets).append
    (leads_bracket (.plain (by decide)) (by decide) fun hc => absurd hc (by decide))
    (.inr (by decide))

theorem leads_closing : Leads 1 (operandsText []) 0 :=
  leads_bracket (.plain (by decide)) (by decide) fun _ => Nat.one_ne_zero

theorem leads_comma : Leads 1 ", ".toList 1 := by
  have hall : ", ".toList.all (IsFiller ·) = true := rfl
  exact leads_filler (fun c hc => of_decide_eq_true (List.all_eq_true.mp hall c hc)) 1

/-- What stands in quotes is not in code. -/
theorem leads_quoted (h : ∀ c ∈ name, c ≠ '\x27' ∧ c ≠ '\\') :
    Leads 1 ('\x27' :: (name ++ ['\x27'])) 1 := by
  have hname : ∀ c ∈ name, c ≠ Quote.single.mark ∧ c ≠ '\\' := h
  have hquote : Reads outermost '\x27' (name ++ [Quote.single.mark]).head?
      (.skip 1 ⟨.quoted .single false, 0, []⟩) := @Reads.openQuote .single 0 [] _
  have hcode : outermost.code ('\x27' :: (name ++ ['\x27'])) = [] :=
    (code_skip hquote).trans (code_quoted hname)
  have hcloses : ClosesOpen 0 (outermost.code ('\x27' :: (name ++ ['\x27']))) := by
    rw [hcode]
    trivial
  refine ⟨hcloses.whole Nat.one_pos, ?_, ?_⟩
  · exact after_of_pass? ((pass?_skip hquote nofun).trans (pass?_quoted hname))
  · rw [bracketsAfter_eq, hcode]
    rfl

/-- What a call of a filter puts in front of its arguments. -/
def callHead (function name value : Text) : Text :=
  function ++ ['('] ++ ('\x27' :: (name ++ ['\x27']) ++ (", ".toList ++ value))

theorem callByName_eq (function name value : Text) (operands : List Text) :
    callByName function name (value :: operands) =
      callHead function name value ++ operandsText operands := by
  simp [callByName, callHead, operandsText]

theorem leads_callHead (hf : ∀ c ∈ function, isNameChar c = true)
    (hn : ∀ c ∈ name, c ≠ '\x27' ∧ c ≠ '\\') (hv : Leads 0 value 0) :
    Leads 0 (callHead function name value) 1 := by
  have hopen := leads_opening (fun c hc => isFiller_of_isNameChar (hf c hc)) 0
  have hvalue := leads_comma.append (hv.enclosed Nat.one_pos) (.inl (by decide))
  have hquoted := (leads_quoted hn).append hvalue (.inr (by simp))
  exact hopen.append hquoted (.inr (by simp))

end Calls

section Filters

variable {pragma value out : Text} {segment : Segment}

/-- The arguments of a filter stand behind one open bracket in its segment, and so they do in the
call. -/
theorem arguments_of_lies {t rest : Text} {r : Reference} {a : Arguments} (h : r.Lies [] t)
    (hrest : t.rest? r.stop = some rest) (hblank : rest.isAllBlank = true)
    (ha : r.arguments = some a) :
    (Whole 0 t → Whole 1 (operandsText [a.text])) ∧
      (Leads 0 t 0 → Leads 1 (operandsText [a.text]) 0) := by
  cases h with
  | bare => cases ha
  | @applied front args back name code =>
      cases ha
      cases (Reference.rest?_applied [] front args back).symm.trans hrest
      have hrest : ∀ c ∈ rest, isBlank c = true := List.all_eq_true.mp hblank
      have hopen : Leads 0 (front ++ ['(']) 1 := by
        refine leads_opening ?_ 0
        intro c hc
        cases name c hc with
        | inl hc => exact isFiller_of_isNameChar hc
        | inr hc => exact isFiller_of_isBlank (isBlank_of_isCodeBlank hc)
      have hsplit : front ++ '(' :: (args ++ ')' :: rest) =
          front ++ ['('] ++ (args ++ [')'] ++ rest) := by simp
      have hoperands : operandsText [args] = ", ".toList ++ (args ++ [')']) := rfl
      rw [hsplit, hoperands]
      refine ⟨?_, ?_⟩
      · intro hwhole
        have hargs := (hwhole.behind hopen).front (cut_of_blank hrest)
        exact leads_comma.append_whole hargs (.inl (by decide))
      · intro hleads
        have hargs := (hleads.behind hopen).before_blank hrest
        exact leads_comma.append hargs (.inl (by decide))

/-- A filter makes a call of which all but the arguments is settled by the value. -/
theorem exists_call_of_apply (h : apply pragma value segment = .ok out) :
    ∃ name operands, out = callByName pragma name (value :: operands) ∧
      (∀ c ∈ name, c ≠ '\x27' ∧ c ≠ '\\') ∧
      (Whole 0 segment.text → Whole 1 (operandsText operands)) ∧
      (Leads 0 segment.text 0 → Leads 1 (operandsText operands) 0) := by
  obtain ⟨r, rest, hread, hrest, hblank, rfl⟩ := exists_read_of_apply h
  have hlies : r.Lies [] segment.text.trim := Reference.lies_of_read hread
  refine ⟨r.name, _, rfl, hlies.quotable, ?_⟩
  cases operandsOf_cases r with
  | inl hnone =>
      rw [hnone]
      exact ⟨fun _ => leads_closing.toWhole, fun _ => leads_closing⟩
  | inr hsome =>
      obtain ⟨a, ha, hoperands⟩ := hsome
      obtain ⟨hwhole, hleads⟩ := arguments_of_lies hlies hrest hblank ha
      rw [hoperands]
      exact ⟨fun hs => hwhole hs.trim, fun hs => hleads hs.trim⟩

theorem head?_operandsText (operands : List Text) : (operandsText operands).head? ≠ some '>' := by
  cases operands with
  | nil => decide
  | cons operand operands => simp [operandsText]

theorem getLast?_operandsText (operands : List Text) :
    (operandsText operands).getLast? = some ')' := by
  induction operands with
  | nil => rfl
  | cons operand operands ih => simp [operandsText, ih, List.getLast?_cons]

theorem trim_callByName {function name : Text} {operands : List Text}
    (hf : ∀ c ∈ function, isNameChar c = true) :
    Text.trim (callByName function name operands) = callByName function name operands := by
  apply Text.trim_eq_self_of_edges
  · intro c hc
    cases function with
    | nil =>
        cases hc
        decide
    | cons d function =>
        cases hc
        exact isBlank_eq_false_of_isNameChar (hf c (List.mem_cons_self ..))
  · intro c hc
    have hend : (callByName function name operands).getLast? = some ')' := by
      simp [callByName, getLast?_operandsText, List.getLast?_cons]
    rw [hend] at hc
    cases hc
    decide

private theorem mem_dropLast_cons {α : Type} {a b : α} {l : List α} (h : a ∈ l.dropLast) :
    a ∈ (b :: l).dropLast := by
  cases l with
  | nil => cases h
  | cons c l => exact List.mem_cons_of_mem b h

/-- A value that is whole is passed on whole through filters that are, as long as nothing is left
open behind the value and behind every filter but the last one. -/
theorem whole_foldlM {segments : List Segment} (hp : ∀ c ∈ pragma, isNameChar c = true)
    (hv : Whole 0 value) (hclosed : segments ≠ [] → Leads 0 value 0) (htrim : value.trim = value)
    (hs : ∀ s ∈ segments, Whole 0 s.text) (hends : ∀ s ∈ segments.dropLast, Leads 0 s.text 0)
    (h : segments.foldlM (apply pragma) value = .ok out) : Whole 0 out ∧ out.trim = out := by
  -- The value may be left open by the last filter alone, which no other call is put around.
  induction segments generalizing value with
  | nil =>
      cases h
      exact ⟨hv, htrim⟩
  | cons segment segments ih =>
      rw [List.foldlM_cons] at h
      obtain ⟨next, hnext, h⟩ := exists_of_bind_eq_ok h
      obtain ⟨name, operands, rfl, hname, hwhole, hleads⟩ := exists_call_of_apply hnext
      have hhead := leads_callHead hp hname (hclosed (List.cons_ne_nil _ _))
      refine ih ?_ ?_ (trim_callByName hp) (fun s hmem => hs s (List.mem_cons_of_mem _ hmem)) ?_ h
      · rw [callByName_eq]
        exact hhead.append_whole (hwhole (hs segment (List.mem_cons_self ..)))
          (.inr (head?_operandsText operands))
      · intro hne
        have hsegment : segment ∈ (segment :: segments).dropLast := by
          rw [List.dropLast_cons_of_ne_nil hne]
          exact List.mem_cons_self ..
        rw [callByName_eq]
        exact hhead.append (hleads (hends segment hsegment)) (.inr (head?_operandsText operands))
      · exact fun s hmem => hends s (mem_dropLast_cons hmem)

end Filters

theorem closesOpen_of_mem_texts {t u : Text} (h : ClosesOpen 0 (outermost.code t))
    (hu : u ∈ texts .outermost 0 [] t) : ClosesOpen 0 (outermost.code u) := by
  induction t using chain_induction with
  | single t hsingle =>
      rw [List.mem_singleton.mp hu]
      exact h
  | separated front back hfront hsingle ih =>
      obtain ⟨hafter, hcount⟩ := (endsAtTop_iff front).mp hfront
      have hcut : Cut outermost front (separator ++ back) := cut_of_code (by rw [hafter]; rfl)
      have hbehind : Cut outermost separator back := cut_of_code rfl
      rw [hcut.code_append, closesOpen_append, ← bracketsAfter_eq, hafter, hcount,
        hbehind.code_append] at h
      cases hu with
      | head => exact h.1
      | tail _ hu => exact ih h.2.2.2 hu

/-- An expression in which no bracket of code closes while none is open is compiled to a single
segment, and compiling that once more changes nothing. -/
theorem compile_compiled {e pragma value : Text} (hp : ∀ c ∈ pragma, isNameChar c = true)
    (closed : ClosesOnlyOpen (.start e) ⟨0, 0, []⟩) (h : compile e pragma = .ok value) :
    split value = .ok [⟨0, value⟩] ∧ compile value pragma = .ok value := by
  have hcode := (closesOnlyOpen_iff e).mp closed
  have hwhole : ∀ s ∈ placed 0 (texts .outermost 0 [] e), Whole 0 s.text := by
    intro s hs
    have hmem := text_mem_of_mem_placed hs
    exact whole_zero_iff.mpr ⟨texts_of_mem_texts hmem, closesOpen_of_mem_texts hcode hmem⟩
  have hends : ∀ s ∈ (placed 0 (texts .outermost 0 [] e)).dropLast, Leads 0 s.text 0 := by
    intro s hs
    have htop := endsAtTop_of_mem_dropLast (text_mem_dropLast_of_mem_placed hs)
    obtain ⟨hafter, hcount⟩ := (endsAtTop_iff s.text).mp htop
    exact ⟨hwhole s (List.dropLast_subset _ hs), hafter, hcount⟩
  rw [compile, split_eq, ok_bind] at h
  cases hsegments : placed 0 (texts .outermost 0 [] e) with
  | nil =>
      rw [hsegments] at h
      cases h
      exact ⟨rfl, rfl⟩
  | cons base filters =>
      rw [hsegments] at h hwhole hends
      obtain ⟨hv, htrim⟩ : Whole 0 value ∧ value.trim = value := by
        refine whole_foldlM hp (hwhole base (List.mem_cons_self ..)).trim ?_ (Text.trim_trim _)
          (fun s hs => hwhole s (List.mem_cons_of_mem _ hs)) ?_ h
        · intro hne
          rw [List.dropLast_cons_of_ne_nil hne] at hends
          exact (hends base (List.mem_cons_self ..)).trim
        · exact fun s hs => hends s (mem_dropLast_cons hs)
      have htexts := (whole_zero_iff.mp hv).1
      have hsplit : split value = .ok [⟨0, value⟩] := by
        rw [split_eq, htexts]
        rfl
      refine ⟨hsplit, ?_⟩
      rw [compile, hsplit, ok_bind]
      exact congrArg Except.ok htrim

/-- Brackets around a separator in quotes, which stand in the arguments of a filter. -/
theorem compile_compiled_pad :
    (∀ c ∈ "$filter".toList, isNameChar c = true) ∧
    ClosesOnlyOpen (.start "xs[0] |> pad([\x27|>\x27, 2]) |> join".toList) ⟨0, 0, []⟩ ∧
    compile "xs[0] |> pad([\x27|>\x27, 2]) |> join".toList "$filter".toList =
      .ok "$filter(\x27join\x27, $filter(\x27pad\x27, xs[0], [\x27|>\x27, 2]))".toList ∧
    split "$filter(\x27join\x27, $filter(\x27pad\x27, xs[0], [\x27|>\x27, 2]))".toList =
      .ok [⟨0, "$filter(\x27join\x27, $filter(\x27pad\x27, xs[0], [\x27|>\x27, 2]))".toList⟩] ∧
    compile "$filter(\x27join\x27, $filter(\x27pad\x27, xs[0], [\x27|>\x27, 2]))".toList
        "$filter".toList =
      .ok "$filter(\x27join\x27, $filter(\x27pad\x27, xs[0], [\x27|>\x27, 2]))".toList := by
  have hp : ∀ c ∈ "$filter".toList, isNameChar c = true := List.all_eq_true.mp rfl
  have closed : ClosesOnlyOpen (.start "xs[0] |> pad([\x27|>\x27, 2]) |> join".toList) ⟨0, 0, []⟩ :=
    (closesOnlyOpen_iff _).mpr (by decide)
  have hcompile : compile "xs[0] |> pad([\x27|>\x27, 2]) |> join".toList "$filter".toList =
      .ok "$filter(\x27join\x27, $filter(\x27pad\x27, xs[0], [\x27|>\x27, 2]))".toList := rfl
  exact ⟨hp, closed, hcompile, compile_compiled hp closed hcompile⟩

/-- Behind a bracket that closes nothing, the arguments of a filter are no longer enclosed. -/
example :
    compile "x) |> f(a |> b)".toList "F".toList = .ok "F(\x27f\x27, x), a |> b)".toList ∧
      compile "F(\x27f\x27, x), a |> b)".toList "F".toList =
        .error (.found (.invalidCharacter .filter) 17) :=
  ⟨rfl, rfl⟩

end FilterChain

end BindingCompiler
