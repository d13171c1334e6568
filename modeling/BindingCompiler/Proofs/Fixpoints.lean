import BindingCompiler.Proofs.Replacements

/-!
Expanded expressions as fixed points. Where all argument lists are balanced, at every depth, an
expanded expression shows no marker in code and ends in the nesting of the expression that it came
from, so that expanding it once more changes nothing.
-/

namespace BindingCompiler

namespace Nesting

section Anywhere

variable {n : Nesting} {s t : Text}

/-- A balanced text closes nothing around it, wherever in code it stands. -/
theorem pass?_of_balanced (ht : t.Balanced) (hn : n.region = .code) (hw : n.WellFormed) :
    n.pass? t = some n ∧ n.code t = outermost.code t := by
  have houter : ∀ o ∈ n.openings, o < n.depth := (List.pairwise_cons.mp hw).1
  have hinside : n = outermost.inside n.depth n.openings := by rw [inside_outermost, ← hn]
  have hpass := (Text.balanced_iff t).mp ht
  rw [hinside]
  exact ⟨pass?_inside hpass houter, code_inside hpass houter⟩

theorem code_append_of_pass? (h : n.pass? s = some n) (hn : n.region = .code) (t : Text) :
    n.code (s ++ t) = n.code s ++ n.code t := by
  have hafter := after_of_pass? h
  have hcut : Cut n s t := cut_of_code (by rwa [hafter])
  rw [hcut.code_append, hafter]

theorem after_append_of_pass? (h : n.pass? s = some n) (hn : n.region = .code) (t : Text) :
    n.after (s ++ t) = n.after t := by
  have hafter := after_of_pass? h
  have hcut : Cut n s t := cut_of_code (by rwa [hafter])
  rw [hcut.after_append, hafter]

/-- What stands in quotes is not in code. -/
theorem code_quoted {quote : Quote} {d : Nat} {ops : List Nat} {t rest : Text}
    (ht : ∀ c ∈ t, c ≠ quote.mark ∧ c ≠ '\\') :
    code ⟨.quoted quote false, d, ops⟩ (t ++ quote.mark :: rest) = code ⟨.code, d, ops⟩ rest := by
  induction t with
  | nil => exact code_skip .closeQuote
  | cons c t ih =>
      obtain ⟨hm, he⟩ := ht c (List.mem_cons_self ..)
      rw [List.cons_append, code_visit (.quoted hm he), if_neg nofun]
      exact ih fun e he => ht e (List.mem_cons_of_mem _ he)

end Anywhere

end Nesting

/-- What a reference takes up is balanced if its arguments are. -/
theorem Reference.Lies.balanced_used {used rest : Text} {r : Reference}
    (h : Lies [] (used ++ rest) r) (stop : r.stop = Text.byteLength used)
    (ha : ∀ a, r.arguments = some a → a.text.Balanced) : used.Balanced := by
  rcases h.used_cases stop with ⟨-, name⟩ | ⟨front, args, hargs, rfl, name, -⟩
  · exact Text.balanced_of_inert name.isInert
  · have hopen : Text.Balanced ['('] := by decide
    have hclose : Text.Balanced [')'] := by decide
    exact (Text.balanced_of_inert name.isInert).append (hopen.append ((ha _ hargs).append hclose))

namespace MethodCall

open Nesting

section Calls

variable {function name : Text} {operands : List Text}

theorem unmarked_operandsText
    (ho : ∀ o ∈ operands, Text.Balanced o ∧ marker ∉ outermost.code o) :
    marker ∉ outermost.code (operandsText operands) := by
  induction operands with
  | nil => decide
  | cons operand operands ih =>
      obtain ⟨hbalanced, hunmarked⟩ := ho operand (List.mem_cons_self ..)
      have hcomma : outermost.pass? ", ".toList = some outermost := rfl
      have hoperand := (Text.balanced_iff operand).mp hbalanced
      have hsplit : operandsText (operand :: operands) =
          ", ".toList ++ (operand ++ operandsText operands) := rfl
      rw [hsplit, code_append_of_pass? hcomma rfl, code_append_of_pass? hoperand rfl,
        List.mem_append, List.mem_append]
      rintro (h | h | h)
      · exact absurd h (by decide)
      · exact hunmarked h
      · exact ih (fun o h => ho o (List.mem_cons_of_mem _ h)) h

/-- A call shows no marker in code if neither its function nor its operands do. -/
theorem unmarked_callByName (hf : ∀ c ∈ function, isNameChar c = true)
    (hn : ∀ c ∈ name, c ≠ '\x27' ∧ c ≠ '\\')
    (ho : ∀ o ∈ operands, Text.Balanced o ∧ marker ∉ outermost.code o) :
    marker ∉ outermost.code (callByName function name operands) := by
  have hhead : ∀ c ∈ function ++ ['('], IsInert c ∧ c ≠ marker := by
    intro c hc
    cases List.mem_append.mp hc with
    | inl hc =>
        refine ⟨isInert_of_isNameChar (hf c hc), ?_⟩
        intro h
        have hname := hf c hc
        rw [h] at hname
        exact absurd hname (by decide)
    | inr hc =>
        rw [List.mem_singleton.mp hc]
        decide
  have hpass : outermost.pass? (function ++ ['(']) = some outermost :=
    pass?_inert rfl fun c hc => (hhead c hc).1
  have hsplit : callByName function name operands =
      function ++ ['('] ++ '\x27' :: (name ++ Quote.single.mark :: operandsText operands) := by
    simp [callByName, Quote.mark]
  have hquote : Reads outermost '\x27' (name ++ Quote.single.mark :: operandsText operands).head?
      (.skip 1 ⟨.quoted .single false, 0, []⟩) := @Reads.openQuote .single 0 [] _
  rw [hsplit, code_append_of_pass? hpass rfl, code_skip hquote, code_quoted hn, List.mem_append]
  rintro (h | h)
  · exact (hhead _ (mem_of_mem_code h)).2 rfl
  · exact unmarked_operandsText ho h

/-- The operands of a call are what the arguments of the reference expand to. -/
theorem exists_of_call_ok {expand : Text → Except Failure Text} {pragma text : Text} {r : Reference}
    (h : call expand pragma r = .ok text) :
    ∃ operands, text = callByName pragma r.name operands ∧
      ∀ o ∈ operands, ∃ a, r.arguments = some a ∧ expand a.text = .ok o := by
  rw [call] at h
  split at h
  · cases h
    exact ⟨[], rfl, fun o ho => absurd ho List.not_mem_nil⟩
  · next a ha =>
      split at h
      · cases h
        exact ⟨[], rfl, fun o ho => absurd ho List.not_mem_nil⟩
      · split at h
        · next operand hoperand =>
            cases h
            refine ⟨[operand], rfl, ?_⟩
            intro o ho
            rw [List.mem_singleton.mp ho]
            exact ⟨a, ha, hoperand⟩
        · cases h

end Calls

/-- The text of an argument list that expanding an expression takes out, at any depth. -/
inductive Extracts (pragma : Text) : Text → Text → Prop where
  | here {e s r a} (replaced : Replaces e pragma s r) (arguments : r.arguments = some a) :
      Extracts pragma e a.text
  | inside {e s r a t} (replaced : Replaces e pragma s r) (arguments : r.arguments = some a)
      (rest : Extracts pragma a.text t) : Extracts pragma e t

/-- An argument list that is taken out stands behind some marker, or in one that does. -/
theorem Extracts.exists_marker {pragma e t : Text} (h : Extracts pragma e t) :
    ∃ front back near a, (front, back) ∈ aroundMarkers e ∧
      Reference.byHeader .method back = .ok near ∧ near.arguments = some a ∧
      (t = a.text ∨ Extracts pragma a.text t) := by
  have harguments {s : Scanner} {r : Reference} {a : Arguments} (h : Replaces e pragma s r)
      (ha : r.arguments = some a) : ∃ front back near b, (front, back) ∈ aroundMarkers e ∧
        Reference.byHeader .method back = .ok near ∧ near.arguments = some b ∧ a.text = b.text := by
    obtain ⟨front, back, near, hsplit, hnear, rfl⟩ := h.exists_marker
    rw [Reference.shift, Option.map_eq_some_iff] at ha
    obtain ⟨b, hb, rfl⟩ := ha
    exact ⟨front, back, near, b, hsplit, hnear, hb, rfl⟩
  cases h with
  | here replaced arguments =>
      obtain ⟨front, back, near, b, hsplit, hnear, hb, htext⟩ := harguments replaced arguments
      exact ⟨front, back, near, b, hsplit, hnear, hb, .inl htext⟩
  | inside replaced arguments rest =>
      obtain ⟨front, back, near, b, hsplit, hnear, hb, htext⟩ := harguments replaced arguments
      rw [htext] at rest
      exact ⟨front, back, near, b, hsplit, hnear, hb, .inr rest⟩

/-- A text may stand for another in some nesting: it moves the nesting alike, and shows no marker in
code. -/
structure StandsFor (n : Nesting) (out t : Text) : Prop where
  after : n.after out = n.after t
  pass : n.pass? out = n.pass? t
  unmarked : marker ∉ n.code out

namespace StandsFor

variable {n : Nesting} {front used text rest others t out : Text}

theorem behind (first : Unmarked n front) (h : StandsFor (n.after front) out t) :
    StandsFor n (front ++ out) (front ++ t) := by
  have hcut (back : Text) : Cut n front back := cut_of_code first.1
  refine ⟨?_, ?_, ?_⟩
  · rw [(hcut out).after_append, (hcut t).after_append, h.after]
  · rw [(hcut out).pass?_append, (hcut t).pass?_append]
    cases hp : n.pass? front with
    | none => rfl
    | some m =>
        cases after_of_pass? hp
        exact h.pass
  · rw [(hcut out).code_append, List.mem_append]
    rintro (hm | hm)
    · exact first.2 hm
    · exact h.unmarked hm

/-- A call stands for its reference. -/
theorem call (hn : n.region = .code) (hused : n.pass? used = some n) (htext : n.pass? text = some n)
    (hunmarked : marker ∉ n.code text) (h : StandsFor n others rest) :
    StandsFor n (text ++ others) (used ++ rest) := by
  refine ⟨?_, ?_, ?_⟩
  · rw [after_append_of_pass? htext hn, after_append_of_pass? hused hn, h.after]
  · rw [pass?_append_of_code htext hn, pass?_append_of_code hused hn, h.pass]
  · rw [code_append_of_pass? htext hn, List.mem_append]
    rintro (hm | hm)
    · exact hunmarked hm
    · exact h.unmarked hm

end StandsFor

/-- What is left of an expression expands to a text that stands for it. -/
theorem Expands.standsFor {e pragma before out : Text} {n : Nesting} {t : Text}
    {result : Except Failure Text} (h : Expands pragma n t result)
    (hp : ∀ c ∈ pragma, isNameChar c = true) (hout : result = .ok out)
    (hpasses : Passes e pragma before t n) (hargs : ∀ a, Extracts pragma e a → Text.Balanced a)
    (hw : n.WellFormed) : StandsFor n out t := by
  induction h generalizing e before out with
  | unmarked none =>
      cases hout
      exact ⟨rfl, rfl, none⟩
  | unread => cases hout
  | refused => cases hout
  | @replaced n front used rest r text result first read stop inside called behind ihInside ih =>
      have hlater := wellFormed_after front hw
      have hmarker := hpasses.first first
      have hreplaces := hmarker.replaces first.1 read
      have hlies := Reference.lies_of_byHeader read
      have hshift {a : Arguments} (ha : r.arguments = some a) :
          (r.shift (Text.byteLength (before ++ front) + 1)).arguments =
            some ⟨a.text, a.start + (Text.byteLength (before ++ front) + 1)⟩ :=
        Reference.arguments_shift ha
      have hbalanced : ∀ a, r.arguments = some a → a.text.Balanced := by
        intro a ha
        have hextracts := Extracts.here hreplaces (hshift ha)
        exact hargs _ hextracts
      have hused := hlies.balanced_used stop hbalanced
      -- The arguments are expanded on their own, and stand for themselves in code.
      have hoperand : ∀ a o, r.arguments = some a → expand a.text pragma = .ok o →
          Text.Balanced o ∧ marker ∉ outermost.code o := by
        intro a o ha ho
        have hstands := ihInside a ha ho (.start a.text pragma)
          (fun b hb => hargs b (.inside hreplaces (hshift ha) hb))
          wellFormed_outermost
        have hpass := (Text.balanced_iff a.text).mp (hbalanced a ha)
        exact ⟨(Text.balanced_iff o).mpr (hstands.pass.trans hpass), hstands.unmarked⟩
      obtain ⟨others, hothers, rfl⟩ := exists_of_continued_eq_ok hout
      obtain ⟨operands, rfl, hoperands⟩ := exists_of_call_ok called
      have hall : ∀ o ∈ operands, Text.Balanced o ∧ marker ∉ outermost.code o := by
        intro o ho
        obtain ⟨a, ha, hexpand⟩ := hoperands o ho
        exact hoperand a o ha hexpand
      have htext := balanced_callByName (fun c hc => isInert_of_isNameChar (hp c hc)) hlies.quotable
        fun o ho => (hall o ho).1
      have hunmarked := unmarked_callByName hp hlies.quotable hall
      have hsign : Text.Balanced [marker] := by decide
      have hmarked : Text.Balanced (marker :: used) := hsign.append hused
      obtain ⟨hpassText, hcodeText⟩ := pass?_of_balanced htext first.1 hlater
      have hrest := ih hothers (hmarker.behind first.1 read stop called) hargs hlater
      rw [List.append_assoc]
      have hpassUsed := (pass?_of_balanced hmarked first.1 hlater).1
      refine .behind first (.call first.1 hpassUsed hpassText ?_ hrest)
      rwa [hcodeText]

/-- If all arguments are balanced, at every depth, then an expanded expression has no marker of
code, ends in the nesting in which the expression ends, and expands to itself. -/
theorem expand_expanded {e out pragma : Text} (hp : ∀ c ∈ pragma, isNameChar c = true)
    (hargs : ∀ a, Extracts pragma e a → Text.Balanced a) (h : expand e pragma = .ok out) :
    marker ∉ out.codeCharacters ∧
      (Scanner.start out).finish.nesting = (Scanner.start e).finish.nesting ∧
      expand out pragma = .ok out := by
  have hexpands := expands_expand e pragma
  rw [h] at hexpands
  have hstands := hexpands.standsFor hp rfl (.start e pragma) hargs wellFormed_outermost
  have hunmarked : marker ∉ out.codeCharacters := by
    rw [Text.codeCharacters_eq]
    exact hstands.unmarked
  refine ⟨hunmarked, ?_, expand_of_unmarked pragma hunmarked⟩
  rw [Scanner.finish_start, Scanner.finish_start]
  exact hstands.after

theorem expand_expanded_nested :
    (∀ c ∈ "$commit".toList, isNameChar c = true) ∧
    (∀ a, Extracts "$commit".toList "\x60$\x7b#f(\x7b#g(1)\x7d)\x7d\x60".toList a →
      Text.Balanced a) ∧
    expand "\x60$\x7b#f(\x7b#g(1)\x7d)\x7d\x60".toList "$commit".toList =
      .ok "\x60$\x7b$commit(\x27f\x27, \x7b$commit(\x27g\x27, 1)\x7d)\x7d\x60".toList ∧
    expand "\x60$\x7b$commit(\x27f\x27, \x7b$commit(\x27g\x27, 1)\x7d)\x7d\x60".toList
        "$commit".toList =
      .ok "\x60$\x7b$commit(\x27f\x27, \x7b$commit(\x27g\x27, 1)\x7d)\x7d\x60".toList := by
  have hp : ∀ c ∈ "$commit".toList, isNameChar c = true := List.all_eq_true.mp rfl
  have hone (a : Text) : ¬ Extracts "$commit".toList "1".toList a := by
    intro h
    obtain ⟨front, back, near, b, hplace, -⟩ := h.exists_marker
    have hnone : (front, back) ∈ [] := hplace
    cases hnone
  have hreadInner : Reference.byHeader .method ("g(1)".toList ++ "\x7d".toList) =
      .ok ⟨"g".toList, some ⟨"1".toList, 2⟩, 4⟩ := rfl
  have hreadOuter : Reference.byHeader .method ("f(\x7b#g(1)\x7d)".toList ++ "\x7d\x60".toList) =
      .ok ⟨"f".toList, some ⟨"\x7b#g(1)\x7d".toList, 2⟩, 10⟩ := rfl
  have hinner (a : Text) (h : Extracts "$commit".toList "\x7b#g(1)\x7d".toList a) : a.Balanced := by
    obtain ⟨front, back, near, b, hplace, hnear, hb, ha⟩ := h.exists_marker
    have hplaces : (front, back) ∈ [("\x7b".toList, "g(1)\x7d".toList)] := hplace
    cases List.mem_singleton.mp hplaces
    cases hreadInner.symm.trans hnear
    cases hb
    rcases ha with rfl | ha
    · decide
    · exact absurd ha (hone a)
  have hargs (a : Text)
      (h : Extracts "$commit".toList "\x60$\x7b#f(\x7b#g(1)\x7d)\x7d\x60".toList a) :
      a.Balanced := by
    obtain ⟨front, back, near, b, hplace, hnear, hb, ha⟩ := h.exists_marker
    have hplaces : (front, back) ∈ [("\x60$\x7b".toList, "f(\x7b#g(1)\x7d)\x7d\x60".toList),
        ("\x60$\x7b#f(\x7b".toList, "g(1)\x7d)\x7d\x60".toList)] := hplace
    simp only [List.mem_cons, List.not_mem_nil, or_false, Prod.mk.injEq] at hplaces
    rcases hplaces with ⟨rfl, rfl⟩ | ⟨rfl, rfl⟩
    · cases hreadOuter.symm.trans hnear
      cases hb
      rcases ha with rfl | ha
      · decide
      · exact hinner a ha
    · have hread : Reference.byHeader .method ("g(1)".toList ++ "\x7d)\x7d\x60".toList) =
          .ok ⟨"g".toList, some ⟨"1".toList, 2⟩, 4⟩ := rfl
      cases hread.symm.trans hnear
      cases hb
      rcases ha with rfl | ha
      · decide
      · exact absurd ha (hone a)
  have hvalue : expand "1".toList "$commit".toList = .ok "1".toList :=
    expand_of_unmarked _ (by decide)
  have hoperand : expand "\x7b#g(1)\x7d".toList "$commit".toList =
      .ok "\x7b$commit(\x27g\x27, 1)\x7d".toList :=
    @expand_eq_of_read _ "\x7b".toList _ _ _ _ _ _ ⟨rfl, by decide⟩ hreadInner rfl hvalue
      (by decide)
  have hresult : expand "\x60$\x7b#f(\x7b#g(1)\x7d)\x7d\x60".toList "$commit".toList =
      .ok "\x60$\x7b$commit(\x27f\x27, \x7b$commit(\x27g\x27, 1)\x7d)\x7d\x60".toList :=
    @expand_eq_of_read _ "\x60$\x7b".toList _ _ _ _ _ _ ⟨rfl, by decide⟩ hreadOuter rfl hoperand
      (by decide)
  exact ⟨hp, hargs, hresult, (expand_expanded hp hargs hresult).2.2⟩

end MethodCall

end BindingCompiler
