import BindingCompiler.Proofs.Scanning
import BindingCompiler.FilterChain

/-!
The separators of a filter chain, by recursion on the text. A separator found by the scan lies
where nothing is open, so that the texts on either side of it are split as if they stood alone.
-/

namespace BindingCompiler

theorem Scanner.before?_between {front back : Text} {n : Nesting} {c : Char}
    (hc : c.utf8Size = 1) :
    (between front back n).before? = some c ↔ front.getLast? = some c := by
  rcases front.eq_nil_or_concat with hf | ⟨lead, d, hf⟩
  · rw [hf]
    simp [before?, between, Text.byteLength]
  · rw [List.concat_eq_append] at hf
    rw [hf]
    have hd := Char.utf8Size_pos d
    have hlen : Text.byteLength (lead ++ [d]) = Text.byteLength lead + d.utf8Size := by
      rw [Text.byteLength_append, Text.byteLength_singleton]
    have hne : Text.byteLength (lead ++ [d]) ≠ 0 := by omega
    have hback : Text.byteLength (lead ++ [d]) - 1 =
        Text.byteLength lead + (d.utf8Size - 1) := by omega
    have hplace : Text.onward (lead ++ [d] ++ back) (Text.byteLength lead + (d.utf8Size - 1)) =
        Text.onward (d :: back) (d.utf8Size - 1) := by
      rw [Text.onward_add, List.append_assoc, Text.onward_append]
      simp [Remainder.drop]
    simp only [before?, position_between, if_neg hne, source_between, hback, hplace,
      List.getLast?_concat, Option.some.injEq]
    by_cases hone : d.utf8Size = 1
    · simp [hone, Text.onward, Remainder.head?]
    · obtain ⟨k, hk⟩ : ∃ k, d.utf8Size - 1 = k + 1 := ⟨d.utf8Size - 2, by omega⟩
      have hle : ¬ d.utf8Size ≤ k + 1 := by omega
      have hleft : d.utf8Size - (k + 1) ≠ 0 := by omega
      simp only [hk, Text.onward, if_neg hle, Remainder.head?, if_neg hleft, reduceCtorEq,
        false_iff]
      intro hdc
      rw [hdc] at hone
      exact hone hc

namespace FilterChain

/-- What stands between the segments of a chain. -/
def separator : Text := ['|', '>']

/-- The brackets that are open behind a content character. -/
def bracketsAt (within : Nesting) (brackets : Nat) (c : Char) : Nat :=
  if within.region = .code then countBracket c brackets else brackets

/-- The character is the second one of a separator that nothing encloses. -/
def Completes (within : Nesting) (brackets : Nat) (seen : Text) (c : Char) : Prop :=
  within.region = .code ∧ within.depth = 0 ∧ bracketsAt within brackets c = 0 ∧ c = '>' ∧
    seen.getLast? = some '|'

instance (within : Nesting) (brackets : Nat) (seen : Text) (c : Char) :
    Decidable (Completes within brackets seen c) :=
  inferInstanceAs (Decidable (_ ∧ _))

/-- The texts of the segments, where some of the first one was seen already. -/
def texts (n : Nesting) (brackets : Nat) (seen : Text) : Text → List Text
  | [] => [seen]
  | c :: t =>
      match n.read (some c) t.head?, t with
      | .visit within, t =>
          if Completes within brackets seen c then
            seen.dropLast :: texts within.settled (bracketsAt within brackets c) [] t
          else
            texts within.settled (bracketsAt within brackets c) (seen ++ [c]) t
      | .skip 2 next, d :: t => texts next brackets (seen ++ [c, d]) t
      | .skip _ next, t => texts next brackets (seen ++ [c]) t

/-- The brackets that are open behind a text. -/
def bracketsAfter (n : Nesting) (brackets : Nat) : Text → Nat
  | [] => brackets
  | c :: t =>
      match n.read (some c) t.head?, t with
      | .visit within, t => bracketsAfter within.settled (bracketsAt within brackets c) t
      | .skip 2 next, _ :: t => bracketsAfter next brackets t
      | .skip _ next, t => bracketsAfter next brackets t

/-- The segments with these texts, from an offset on. -/
def placed (start : Nat) : List Text → List Segment
  | [] => []
  | t :: ts => ⟨start, t⟩ :: placed (start + t.byteLength + separator.byteLength) ts

section Rounds

variable {n m : Nesting} {brackets d : Nat} {ops : List Nat} {seen t : Text} {c : Char}

theorem texts_visit (h : n.Reads c t.head? (.visit m)) :
    texts n brackets seen (c :: t) =
      if Completes m brackets seen c then
        seen.dropLast :: texts m.settled (bracketsAt m brackets c) [] t
      else
        texts m.settled (bracketsAt m brackets c) (seen ++ [c]) t := by
  rw [texts.eq_def]
  simp only [h.read_eq]

theorem texts_skip (h : n.Reads c t.head? (.skip 1 m)) :
    texts n brackets seen (c :: t) = texts m brackets (seen ++ [c]) t := by
  rw [texts.eq_def]
  simp only [h.read_eq]

theorem texts_opening :
    texts ⟨.template false, d, ops⟩ brackets seen ('$' :: '{' :: t) =
      texts ⟨.code, d + 1, d :: ops⟩ brackets (seen ++ ['$', '{']) t := rfl

theorem bracketsAfter_visit (h : n.Reads c t.head? (.visit m)) :
    bracketsAfter n brackets (c :: t) = bracketsAfter m.settled (bracketsAt m brackets c) t := by
  rw [bracketsAfter.eq_def]
  simp only [h.read_eq]

theorem bracketsAfter_skip (h : n.Reads c t.head? (.skip 1 m)) :
    bracketsAfter n brackets (c :: t) = bracketsAfter m brackets t := by
  rw [bracketsAfter.eq_def]
  simp only [h.read_eq]

theorem bracketsAfter_opening :
    bracketsAfter ⟨.template false, d, ops⟩ brackets ('$' :: '{' :: t) =
      bracketsAfter ⟨.code, d + 1, d :: ops⟩ brackets t := rfl

end Rounds

private theorem slice?_seen (before seen t : Text) (h : seen.getLast? = some '|') :
    Text.slice? (before ++ seen ++ t) before.byteLength (Text.byteLength (before ++ seen) - 1) =
      some seen.dropLast := by
  obtain ⟨mid, hmid⟩ := List.getLast?_eq_some_iff.mp h
  have hstop : Text.byteLength (before ++ seen) - 1 = before.byteLength + Text.byteLength mid := by
    rw [hmid, Text.byteLength_append, Text.byteLength_append, Text.byteLength_singleton]
    have : Char.utf8Size '|' = 1 := rfl
    omega
  rw [hstop, hmid, List.dropLast_concat, List.append_assoc, List.append_assoc]
  exact Text.slice?_append before mid _

/-- What the visitor makes of a content character, in terms of the segment that it stands in. -/
theorem visitSegments_between (within : Nesting) (brackets : Nat) (before seen t : Text)
    (c : Char) (segments : List Segment) (hb : before.getLast? ≠ some '|') :
    visitSegments (.between (before ++ seen) (c :: t) within)
        ⟨brackets, before.byteLength, segments⟩ =
      if Completes within brackets seen c then
        .next ⟨bracketsAt within brackets c, Text.byteLength (before ++ seen) + 1,
          ⟨before.byteLength, seen.dropLast⟩ :: segments⟩
      else
        .next ⟨bracketsAt within brackets c, before.byteLength, segments⟩ := by
  have hbar : (Scanner.between (before ++ seen) (c :: t) within).before? = some '|' ↔
      seen.getLast? = some '|' := by
    rw [Scanner.before?_between rfl]
    cases hs : seen.getLast? with
    | none =>
        rw [List.getLast?_eq_none_iff.mp hs, List.append_nil]
        exact iff_of_false hb nofun
    | some d => rw [List.getLast?_append, hs, Option.some_or]
  by_cases hcode : within.region = .code
  · have hin := (Scanner.between (before ++ seen) (c :: t) within).inCode_eq_true_iff.mpr hcode
    simp only [visitSegments, Visitor.onCode, hin, if_true, Scanner.here?_between,
      List.head?_cons, Option.elim_some, Scanner.nesting_between, onSeparator, Completes,
      bracketsAt, hcode, true_and, Bool.and_eq_true, beq_iff_eq, Option.some.injEq, hbar]
    by_cases h : countBracket c brackets = 0 ∧ within.depth = 0 ∧ c = '>' ∧
        seen.getLast? = some '|'
    · obtain ⟨hcount, hdepth, rfl, hlast⟩ := h
      simp only [hcount, hdepth, hlast, and_self, if_true, Scanner.source_between,
        Scanner.position_between, slice?_seen before seen _ hlast]
    · rw [if_neg h, if_neg fun hn => h ⟨hn.2.1, hn.1, hn.2.2⟩]
  · have hin := mt (Scanner.between (before ++ seen) (c :: t) within).inCode_eq_true_iff.mp hcode
    rw [if_neg fun h => hcode h.1]
    simp only [visitSegments, Visitor.onCode, if_neg hin, bracketsAt, if_neg hcode]

theorem visitSegments_quiet : visitSegments.Quiet := by
  apply Visitor.onCode_quiet
  intro s progress
  dsimp only
  split
  · split <;> rfl
  · rfl

/-- The next segment begins behind an angle bracket, so its first separator is not made of the bar
of this one. -/
theorem Completes.behind {within : Nesting} {brackets : Nat} {seen : Text} {c : Char}
    (h : Completes within brackets seen c) (front : Text) :
    (front ++ [c]).getLast? ≠ some '|' ∧ Text.byteLength (front ++ [c]) = front.byteLength + 1 := by
  obtain ⟨-, -, -, rfl, -⟩ := h
  refine ⟨?_, Text.byteLength_append ..⟩
  rw [List.getLast?_concat]
  decide

/-- A scan over the rest of a chain, of which so much lies behind the last separator, ends the
segments that the recursion finds. -/
private theorem watch_visitSegments (n : Nesting) (brackets : Nat) (before seen t : Text)
    (segments : List Segment) (finish : Scanner) (hb : before.getLast? ≠ some '|') :
    ∃ front last : Text, ∃ ended : List Segment,
      visitSegments.watch finish (n.shown (before ++ seen) t)
          ⟨brackets, before.byteLength, segments⟩ =
        .atEnd finish ⟨bracketsAfter n brackets t, front.byteLength, ended⟩ ∧
      before ++ seen ++ t = front ++ last ∧
      ended.reverse ++ [⟨front.byteLength, last⟩] =
        segments.reverse ++ placed before.byteLength (texts n brackets seen t) := by
  induction n, t using Nesting.passage_induction generalizing brackets before seen segments with
  | nil n => exact ⟨before, seen, segments, rfl, List.append_nil _, rfl⟩
  | visit n c t within hr ih =>
      have hstep := visitSegments_between within brackets before seen t c segments hb
      rw [Nesting.shown_visit hr, bracketsAfter_visit hr, texts_visit hr]
      by_cases hc : Completes within brackets seen c
      · obtain ⟨mid, hmid⟩ := List.getLast?_eq_some_iff.mp hc.2.2.2.2
        obtain ⟨hnext, hlen⟩ := hc.behind (before ++ seen)
        have hplace : before.byteLength + Text.byteLength seen.dropLast + separator.byteLength =
            Text.byteLength (before ++ seen) + 1 := by
          rw [hmid, List.dropLast_concat, Text.byteLength_append, Text.byteLength_append]
          exact Nat.add_assoc ..
        have := ih (bracketsAt within brackets c) (before ++ seen ++ [c]) []
          (⟨before.byteLength, seen.dropLast⟩ :: segments) hnext
        rw [if_pos hc] at hstep ⊢
        rw [Visitor.watch_next hstep, placed, hplace, ← hlen]
        simpa using this
      · have := ih (bracketsAt within brackets c) before (seen ++ [c]) segments hb
        rw [if_neg hc] at hstep ⊢
        rw [Visitor.watch_next hstep]
        simpa using this
  | skip n c t next hr ih =>
      rw [Nesting.shown_skip hr, bracketsAfter_skip hr, texts_skip hr]
      simpa using ih brackets before (seen ++ [c]) segments hb
  | opening d ops t ih =>
      rw [Nesting.shown_opening, bracketsAfter_opening, texts_opening]
      simpa using ih brackets before (seen ++ ['$', '{']) segments hb

theorem scan_visitSegments (t : Text) :
    ∃ front last : Text, ∃ ended : List Segment,
      (Scanner.start t).scan visitSegments ⟨0, 0, []⟩ =
        .atEnd (Scanner.start t).finish ⟨bracketsAfter .outermost 0 t, front.byteLength, ended⟩ ∧
      t = front ++ last ∧
      ended.reverse ++ [⟨front.byteLength, last⟩] = placed 0 (texts .outermost 0 [] t) := by
  rw [Scanner.scan_start visitSegments_quiet, Scanner.finish_start]
  exact watch_visitSegments .outermost 0 [] [] t [] _ nofun

/-- The segments are the texts between the separators, each at its offset. -/
theorem split_eq (t : Text) : split t = .ok (placed 0 (texts .outermost 0 [] t)) := by
  obtain ⟨front, last, ended, hscan, ht, hended⟩ := scan_visitSegments t
  have hrest : Text.rest? t front.byteLength = some last := by
    rw [ht]
    exact Text.rest?_append front last
  simp only [split, hscan, hrest, hended]

/-- The scan that splits an expression ends in code with no brace and no bracket open. -/
def EndsAtTop (t : Text) : Prop :=
  ∃ s progress, (Scanner.start t).scan visitSegments ⟨0, 0, []⟩ = .atEnd s progress ∧
    s.inCode = true ∧ s.nesting.depth = 0 ∧ progress.brackets = 0

/-- Where no brace is open there is no interpolation either. -/
theorem endsAtTop_iff (t : Text) :
    EndsAtTop t ↔ Nesting.outermost.after t = .outermost ∧ bracketsAfter .outermost 0 t = 0 := by
  obtain ⟨front, last, ended, hscan, -, -⟩ := scan_visitSegments t
  rw [Scanner.finish_start] at hscan
  constructor
  · intro h
    obtain ⟨s, progress, hs, hcode, hdepth, hbrackets⟩ := h
    cases hscan.symm.trans hs
    refine ⟨?_, hbrackets⟩
    exact Nesting.eq_outermost_of_depth (Nesting.wellFormed_after t Nesting.wellFormed_outermost)
      ((Scanner.inCode_eq_true_iff _).mp hcode) hdepth
  · intro h
    refine ⟨_, _, hscan, ?_, ?_, h.2⟩
    · rw [Scanner.inCode_eq_true_iff, Scanner.nesting_between, h.1]
      rfl
    · rw [Scanner.nesting_between, h.1]
      rfl

theorem texts_append {n : Nesting} {s t : Text} (cut : Nesting.Cut n s t) (brackets : Nat)
    (seen : Text) :
    ∃ ended last, texts n brackets seen s = ended ++ [last] ∧
      texts n brackets seen (s ++ t) =
        ended ++ texts (n.after s) (bracketsAfter n brackets s) last t := by
  induction cut generalizing brackets seen with
  | here => exact ⟨[], seen, rfl, rfl⟩
  | @visit n within c mid rest hr _ ih =>
      rw [List.cons_append, texts_visit hr, texts_visit hr.visit_in_front,
        Nesting.after_visit hr.visit_in_front, bracketsAfter_visit hr.visit_in_front]
      by_cases hc : Completes within brackets seen c
      · obtain ⟨ended, last, hs, ht⟩ := ih (bracketsAt within brackets c) []
        rw [if_pos hc, if_pos hc, hs, ht]
        exact ⟨seen.dropLast :: ended, last, rfl, rfl⟩
      · rw [if_neg hc, if_neg hc]
        exact ih (bracketsAt within brackets c) (seen ++ [c])
  | @skip n next c mid rest hr _ ih =>
      rw [List.cons_append, texts_skip hr, texts_skip hr.skip_in_front,
        Nesting.after_skip hr.skip_in_front, bracketsAfter_skip hr.skip_in_front]
      exact ih brackets (seen ++ [c])
  | opening _ ih => exact ih brackets (seen ++ ['$', '{'])

theorem bracketsAfter_append {n : Nesting} {s t : Text} (cut : Nesting.Cut n s t)
    (brackets : Nat) :
    bracketsAfter n brackets (s ++ t) = bracketsAfter (n.after s) (bracketsAfter n brackets s) t := by
  induction cut generalizing brackets with
  | here => rfl
  | @visit n within c mid rest hr _ ih =>
      rw [List.cons_append, bracketsAfter_visit hr, bracketsAfter_visit hr.visit_in_front,
        Nesting.after_visit hr.visit_in_front]
      exact ih (bracketsAt within brackets c)
  | @skip n next c mid rest hr _ ih =>
      rw [List.cons_append, bracketsAfter_skip hr, bracketsAfter_skip hr.skip_in_front,
        Nesting.after_skip hr.skip_in_front]
      exact ih brackets
  | opening _ ih => exact ih brackets

private theorem texts_separator (seen t : Text) :
    texts .outermost 0 seen (separator ++ t) = seen :: texts .outermost 0 [] t := by
  have hbar : Nesting.Reads .outermost '|' ('>' :: t : Text).head? (.visit .outermost) :=
    .plain (by decide)
  have hgt : Nesting.Reads .outermost '>' t.head? (.visit .outermost) := .plain (by decide)
  have hnot : ¬ Completes .outermost 0 seen '|' := by
    intro h
    exact absurd h.2.2.2.1 (by decide)
  have hends : Completes .outermost 0 (seen ++ ['|']) '>' :=
    ⟨rfl, rfl, rfl, rfl, List.getLast?_concat⟩
  calc texts .outermost 0 seen (separator ++ t)
    _ = texts .outermost 0 (seen ++ ['|']) ('>' :: t) := (texts_visit hbar).trans (if_neg hnot)
    _ = (seen ++ ['|']).dropLast :: texts .outermost 0 [] t :=
        (texts_visit hgt).trans (if_pos hends)
    _ = seen :: texts .outermost 0 [] t := by rw [List.dropLast_concat]

theorem texts_joined {s t : Text} (hs : EndsAtTop s) :
    texts .outermost 0 [] (s ++ (separator ++ t)) =
      texts .outermost 0 [] s ++ texts .outermost 0 [] t := by
  obtain ⟨hafter, hbrackets⟩ := (endsAtTop_iff s).mp hs
  have hcut : Nesting.Cut .outermost s (separator ++ t) :=
    Nesting.cut_of_code (by rw [hafter]; rfl)
  obtain ⟨ended, last, hends, hjoined⟩ := texts_append hcut 0 []
  rw [hjoined, hafter, hbrackets, texts_separator, hends, List.append_assoc, List.singleton_append]

private theorem texts_cases_from (n : Nesting) (brackets : Nat) (seen t : Text) :
    texts n brackets seen t = [seen ++ t] ∨
      ∃ mid rest : Text, t = mid ++ '>' :: rest ∧ (n.after mid).region = .code ∧
        (n.after mid).depth = 0 ∧ bracketsAfter n brackets mid = 0 ∧
        (seen ++ mid).getLast? = some '|' ∧
        texts n brackets seen t =
          (seen ++ mid).dropLast :: texts (n.after mid).settled 0 [] rest := by
  induction n, t using Nesting.passage_induction generalizing brackets seen with
  | nil n => exact .inl (by rw [List.append_nil]; rfl)
  | visit n c t within hr ih =>
      by_cases hc : Completes within brackets seen c
      · obtain ⟨hcode, hdepth, hbrackets, rfl, hlast⟩ := id hc
        cases hr.eq_of_plain (by decide) hcode
        have hcount : brackets = 0 := by simpa [bracketsAt, hcode, countBracket] using hbrackets
        refine .inr ⟨[], t, rfl, hcode, hdepth, hcount, ?_, ?_⟩
        · rwa [List.append_nil]
        · rw [texts_visit hr, if_pos hc, hbrackets, List.append_nil]
          rfl
      · rw [texts_visit hr, if_neg hc]
        cases ih (bracketsAt within brackets c) (seen ++ [c]) with
        | inl h => exact .inl (by rw [h, List.append_assoc]; rfl)
        | inr h =>
            obtain ⟨mid, rest, rfl, hcode, hdepth, hbrackets, hlast, htexts⟩ := h
            refine .inr ⟨c :: mid, rest, rfl, ?_⟩
            rw [Nesting.after_visit hr.visit_in_front, bracketsAfter_visit hr.visit_in_front]
            refine ⟨hcode, hdepth, hbrackets, by simpa using hlast, by simpa using htexts⟩
  | skip n c t next hr ih =>
      rw [texts_skip hr]
      cases ih brackets (seen ++ [c]) with
      | inl h => exact .inl (by rw [h, List.append_assoc]; rfl)
      | inr h =>
          obtain ⟨mid, rest, rfl, hcode, hdepth, hbrackets, hlast, htexts⟩ := h
          refine .inr ⟨c :: mid, rest, rfl, ?_⟩
          rw [Nesting.after_skip hr.skip_in_front, bracketsAfter_skip hr.skip_in_front]
          refine ⟨hcode, hdepth, hbrackets, by simpa using hlast, by simpa using htexts⟩
  | opening d ops t ih =>
      rw [texts_opening]
      cases ih brackets (seen ++ ['$', '{']) with
      | inl h => exact .inl (by rw [h, List.append_assoc]; rfl)
      | inr h =>
          obtain ⟨mid, rest, rfl, hcode, hdepth, hbrackets, hlast, htexts⟩ := h
          refine .inr ⟨'$' :: '{' :: mid, rest, rfl, hcode, hdepth, hbrackets, ?_, ?_⟩
          · simpa using hlast
          · simpa [Nesting.after_opening] using htexts

private theorem eq_outermost_of_after_bar {n : Nesting} (h : n.after ['|'] = .outermost) :
    n = .outermost := by
  obtain ⟨region, d, ops⟩ := n
  cases region with
  | code => exact h
  | quoted quote escaping => cases quote <;> cases escaping <;> cases h
  | template escaping => cases escaping <;> cases h

/-- A text is one segment, or a separator that nothing encloses ends its first one. -/
theorem texts_cases (t : Text) :
    texts .outermost 0 [] t = [t] ∨
      ∃ front back, t = front ++ (separator ++ back) ∧ EndsAtTop front ∧
        texts .outermost 0 [] t = front :: texts .outermost 0 [] back := by
  cases texts_cases_from .outermost 0 [] t with
  | inl h => exact .inl h
  | inr h =>
      obtain ⟨mid, back, rfl, hcode, hdepth, hbrackets, hlast, htexts⟩ := h
      obtain ⟨front, hmid⟩ := List.getLast?_eq_some_iff.mp hlast
      rw [List.nil_append] at hmid
      subst hmid
      -- The bracket is at the top, hence so is the bar in front of it.
      have houter : Nesting.outermost.after (front ++ ['|']) = .outermost :=
        Nesting.eq_outermost_of_depth (Nesting.wellFormed_after _ Nesting.wellFormed_outermost)
          hcode hdepth
      have hcut : Nesting.Cut .outermost front ['|'] := by
        apply Nesting.cut_of_head
        intro _
        decide
      have hfront : Nesting.outermost.after front = .outermost := by
        apply eq_outermost_of_after_bar
        rw [← hcut.after_append, houter]
      have hcount : bracketsAfter .outermost 0 front = 0 := by
        rw [bracketsAfter_append hcut, hfront] at hbrackets
        exact hbrackets
      rw [List.nil_append, houter, List.dropLast_concat] at htexts
      exact .inr ⟨front, back, List.append_assoc .., (endsAtTop_iff front).mpr ⟨hfront, hcount⟩,
        htexts⟩

theorem texts_from_ne_nil (n : Nesting) (brackets : Nat) (seen t : Text) :
    texts n brackets seen t ≠ [] := by
  induction n, t using Nesting.passage_induction generalizing brackets seen with
  | nil n => nofun
  | visit n c t within hr ih =>
      rw [texts_visit hr]
      split
      · nofun
      · exact ih _ _
  | skip n c t next hr ih =>
      rw [texts_skip hr]
      exact ih _ _
  | opening d ops t ih => exact ih _ _

/-- What was cut at separators is joined again by them. -/
theorem intercalate_texts_from (n : Nesting) (brackets : Nat) (seen t : Text) :
    List.intercalate separator (texts n brackets seen t) = seen ++ t := by
  induction n, t using Nesting.passage_induction generalizing brackets seen with
  | nil n => exact List.intercalate_singleton.trans (List.append_nil seen).symm
  | visit n c t within hr ih =>
      rw [texts_visit hr]
      by_cases hc : Completes within brackets seen c
      · obtain ⟨-, -, -, hgt, hlast⟩ := id hc
        obtain ⟨mid, hmid⟩ := List.getLast?_eq_some_iff.mp hlast
        rw [if_pos hc, List.intercalate_cons_of_ne_nil (texts_from_ne_nil _ _ _ _), ih, hmid, hgt]
        simp [separator]
      · rw [if_neg hc, ih]
        simp
  | skip n c t next hr ih =>
      rw [texts_skip hr, ih]
      simp
  | opening d ops t ih =>
      rw [texts_opening, ih]
      simp

theorem texts_ne_nil (t : Text) : texts .outermost 0 [] t ≠ [] :=
  texts_from_ne_nil _ _ _ _

theorem intercalate_texts (t : Text) :
    List.intercalate separator (texts .outermost 0 [] t) = t :=
  intercalate_texts_from ..

/-- A text is one segment, or its first segment is complete and ends at a separator. -/
@[elab_as_elim]
theorem chain_induction {motive : Text → List Text → Prop}
    (single : ∀ t, texts .outermost 0 [] t = [t] → motive t [t])
    (separated : ∀ front back, EndsAtTop front → texts .outermost 0 [] front = [front] →
      motive back (texts .outermost 0 [] back) →
      motive (front ++ (separator ++ back)) (front :: texts .outermost 0 [] back))
    (t : Text) : motive t (texts .outermost 0 [] t) := by
  cases texts_cases t with
  | inl h =>
      rw [h]
      exact single t h
  | inr h =>
      obtain ⟨front, back, ht, hfront, htexts⟩ := h
      have hlen : back.length < t.length := by
        rw [ht, List.length_append, List.length_append]
        exact Nat.lt_of_lt_of_le (Nat.lt_add_of_pos_left (by decide)) (Nat.le_add_left _ _)
      have hsingle : texts .outermost 0 [] front = [front] := by
        rw [ht, texts_joined hfront] at htexts
        exact List.append_cancel_right htexts
      rw [htexts, ht]
      exact separated front back hfront hsingle (chain_induction single separated back)
  termination_by t.length

theorem exists_behind_first (t : Text) (ts : List Text) :
    ∃ back, List.intercalate separator (t :: ts) = t ++ back := by
  cases ts with
  | nil => exact ⟨[], by simp⟩
  | cons u ts => exact ⟨_, by rw [List.intercalate_cons_cons, List.append_assoc]⟩

theorem map_text_placed (start : Nat) (ts : List Text) : (placed start ts).map (·.text) = ts := by
  induction ts generalizing start with
  | nil => rfl
  | cons t ts ih => simp only [placed, List.map_cons, ih]

theorem placed_ne_nil (start : Nat) {ts : List Text} (h : ts ≠ []) : placed start ts ≠ [] := by
  intro hnil
  have htexts := map_text_placed start ts
  rw [hnil] at htexts
  exact h htexts.symm

theorem text_mem_of_mem_placed {start : Nat} {ts : List Text} {segment : Segment}
    (h : segment ∈ placed start ts) : segment.text ∈ ts := by
  rw [← map_text_placed start ts]
  exact List.mem_map_of_mem h

theorem text_mem_dropLast_of_mem_placed {start : Nat} {ts : List Text} {segment : Segment}
    (h : segment ∈ (placed start ts).dropLast) : segment.text ∈ ts.dropLast := by
  rw [← map_text_placed start ts, ← List.map_dropLast]
  exact List.mem_map_of_mem h

theorem placed_append (start : Nat) {ss ts : List Text} (hs : ss ≠ []) :
    placed start (ss ++ ts) = placed start ss ++
      placed (start + Text.byteLength (List.intercalate separator ss) + separator.byteLength) ts := by
  induction ss generalizing start with
  | nil => exact absurd rfl hs
  | cons s ss ih =>
      cases ss with
      | nil => rw [List.intercalate_singleton]; rfl
      | cons u ss =>
          have hrest := ih (start + s.byteLength + separator.byteLength) (List.cons_ne_nil u ss)
          rw [List.intercalate_cons_cons, Text.byteLength_append, Text.byteLength_append]
          simp only [Nat.add_assoc] at hrest ⊢
          exact congrArg (⟨start, s⟩ :: ·) hrest

theorem split_joined {s : Text} (hs : EndsAtTop s) (t : Text) :
    split (s ++ (separator ++ t)) = .ok (placed 0 (texts .outermost 0 [] s) ++
      placed (s.byteLength + separator.byteLength) (texts .outermost 0 [] t)) := by
  rw [split_eq, texts_joined hs, placed_append 0 (texts_ne_nil s), intercalate_texts, Nat.zero_add]

theorem texts_eq_singleton_iff (t : Text) :
    texts .outermost 0 [] t = [t] ↔
      ∀ front back, t = front ++ (separator ++ back) → ¬ EndsAtTop front := by
  constructor
  · intro h front back ht hfront
    rw [ht, texts_joined hfront] at h
    have hlen := congrArg List.length h
    have hs := List.length_pos_iff.mpr (texts_ne_nil front)
    have hb := List.length_pos_iff.mpr (texts_ne_nil back)
    rw [List.length_append, List.length_singleton] at hlen
    omega
  · intro h
    cases texts_cases t with
    | inl hs => exact hs
    | inr hs =>
        obtain ⟨front, back, ht, hfront, -⟩ := hs
        exact absurd hfront (h front back ht)

theorem split_singleton_iff (t : Text) :
    (∃ s, split t = .ok [s]) ↔ texts .outermost 0 [] t = [t] := by
  rw [split_eq]
  constructor
  · intro h
    obtain ⟨s, hs⟩ := h
    cases texts_cases t with
    | inl ht => exact ht
    | inr ht =>
        obtain ⟨front, back, -, -, htexts⟩ := ht
        cases hb : texts .outermost 0 [] back with
        | nil => exact absurd hb (texts_ne_nil back)
        | cons u ts =>
            rw [htexts, hb] at hs
            cases hs
  · intro h
    exact ⟨⟨0, t⟩, by rw [h]; rfl⟩

end FilterChain

end BindingCompiler
