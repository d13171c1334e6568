import BindingCompiler.Proofs.Brackets
import BindingCompiler.Proofs.Windows

/-!
Splitting loses nothing and leaves nothing to split. The segments of a chain are the text between
its separators, each at its offset. A separator ends a segment exactly where nothing is open in
front of it, so every segment but the last ends where nothing is open, none has such a separator
left in it, and each splits into itself alone.
-/

namespace BindingCompiler.FilterChain

theorem start_le_of_mem_placed {start : Nat} {ts : List Text} {segment : Segment}
    (h : segment ∈ placed start ts) : start ≤ segment.start := by
  induction ts generalizing start with
  | nil => cases h
  | cons t ts ih =>
      cases h with
      | head => exact Nat.le_refl _
      | tail _ h =>
          have hrest := ih h
          omega

/-- A segment ends in front of the separator behind which the next one begins. -/
theorem pairwise_placed (start : Nat) (ts : List Text) :
    (placed start ts).Pairwise fun s t =>
      s.start + s.text.byteLength + separator.byteLength ≤ t.start := by
  induction ts generalizing start with
  | nil => exact .nil
  | cons t ts ih => exact .cons (fun _ h => start_le_of_mem_placed h) (ih _)

/-- A segment stands at its offset in the joined text. -/
theorem slice?_of_mem_placed (before : Text) {ts : List Text} {segment : Segment}
    (h : segment ∈ placed before.byteLength ts) :
    Text.slice? (before ++ List.intercalate separator ts) segment.start
      (segment.start + segment.text.byteLength) = some segment.text := by
  induction ts generalizing before with
  | nil => cases h
  | cons t ts ih =>
      cases h with
      | head =>
          obtain ⟨rest, hrest⟩ := exists_behind_first t ts
          rw [hrest]
          exact Text.slice?_append before t rest
      | tail _ h =>
          have hts : ts ≠ [] := by
            intro hnil
            rw [hnil] at h
            cases h
          have hplace : before.byteLength + t.byteLength + separator.byteLength =
              Text.byteLength (before ++ (t ++ separator)) := by
            simp only [Text.byteLength_append]
            omega
          rw [hplace] at h
          rw [List.intercalate_cons_of_ne_nil hts, ← List.append_assoc before]
          exact ih _ h

/-- No segment has a separator left in it. -/
theorem texts_of_mem_texts {t u : Text} (h : u ∈ texts .outermost 0 [] t) :
    texts .outermost 0 [] u = [u] := by
  induction t using chain_induction with
  | single t hsingle =>
      rw [List.mem_singleton.mp h]
      exact hsingle
  | separated front back hfront hsingle ih =>
      cases h with
      | head => exact hsingle
      | tail _ h => exact ih h

/-- Every segment that a separator ends is complete. -/
theorem endsAtTop_of_mem_dropLast {t u : Text} (h : u ∈ (texts .outermost 0 [] t).dropLast) :
    EndsAtTop u := by
  induction t using chain_induction with
  | single t hsingle => cases h
  | separated front back hfront hsingle ih =>
      rw [List.dropLast_cons_of_ne_nil (texts_ne_nil back)] at h
      cases h with
      | head => exact hfront
      | tail _ h => exact ih h

/-- What is joined by a separator ends where the second text does. -/
theorem EndsAtTop.joined {s t : Text} (hs : EndsAtTop s) (ht : EndsAtTop t) :
    EndsAtTop (s ++ (separator ++ t)) := by
  rw [endsAtTop_iff] at hs ht ⊢
  have hcut : Nesting.Cut .outermost s (separator ++ t) :=
    Nesting.cut_of_code (by rw [hs.1]; rfl)
  rw [hcut.after_append, bracketsAfter_append hcut, hs.1, hs.2]
  exact ht

/-- Where a segment ends, a separator stands, and nothing is open in front of it. -/
theorem exists_of_mem_cuts {start : Nat} {t : Text} {segment : Segment}
    (h : segment ∈ (placed start (texts .outermost 0 [] t)).dropLast) :
    ∃ front back, t = front ++ (separator ++ back) ∧ EndsAtTop front ∧
      segment.start + segment.text.byteLength = start + front.byteLength := by
  induction t using chain_induction generalizing start with
  | single t hsingle => cases h
  | separated front back hfront hsingle ih =>
      rw [placed, List.dropLast_cons_of_ne_nil (placed_ne_nil _ (texts_ne_nil back))] at h
      cases h with
      | head => exact ⟨front, back, rfl, hfront, rfl⟩
      | tail _ h =>
          obtain ⟨mid, rest, hback, hmid, hplace⟩ := ih h
          refine ⟨front ++ (separator ++ mid), rest, ?_, hfront.joined hmid, ?_⟩
          · rw [hback]
            simp only [List.append_assoc]
          · rw [hplace, Text.byteLength_append, Text.byteLength_append]
            omega

/-- The last segment ends where the joined text does. -/
theorem exists_last_placed (start : Nat) {ts : List Text} (h : ts ≠ []) :
    ∃ segment ∈ placed start ts, segment.start + segment.text.byteLength =
      start + Text.byteLength (List.intercalate separator ts) := by
  induction ts generalizing start with
  | nil => exact absurd rfl h
  | cons t ts ih =>
      cases ts with
      | nil =>
          rw [List.intercalate_singleton]
          exact ⟨⟨start, t⟩, List.mem_cons_self .., rfl⟩
      | cons u ts =>
          obtain ⟨segment, hmem, hplace⟩ :=
            ih (start + t.byteLength + separator.byteLength) (List.cons_ne_nil u ts)
          refine ⟨segment, List.mem_cons_of_mem _ hmem, ?_⟩
          rw [hplace, List.intercalate_cons_cons, Text.byteLength_append, Text.byteLength_append]
          omega

/-- A separator ends a segment exactly where nothing is open in front of it. -/
theorem cut_iff (front back : Text) :
    (∃ segment ∈ (placed 0 (texts .outermost 0 [] (front ++ (separator ++ back)))).dropLast,
      segment.start + segment.text.byteLength = front.byteLength) ↔ EndsAtTop front := by
  constructor
  · rintro ⟨segment, hmem, hplace⟩
    obtain ⟨other, rest, hsplit, hother, hend⟩ := exists_of_mem_cuts hmem
    rw [hplace, Nat.zero_add] at hend
    obtain ⟨rfl, -⟩ := Text.append_inj hsplit hend
    exact hother
  · intro h
    obtain ⟨segment, hmem, hplace⟩ := exists_last_placed 0 (texts_ne_nil front)
    rw [intercalate_texts, Nat.zero_add] at hplace
    refine ⟨segment, ?_, hplace⟩
    rw [texts_joined h, placed_append 0 (texts_ne_nil front),
      List.dropLast_append_of_ne_nil (placed_ne_nil _ (texts_ne_nil back))]
    exact List.mem_append_left _ hmem

/-- The segments of an expression are its text but for the separators between them, each at its
offset and in order. Nothing is open behind those that a separator ends. Each is split into itself
alone, and no separator is left in it that has nothing open in front. A separator of the expression
ends a segment exactly where a scan of what is in front of it ends in code, inside no brace and no
interpolation, and the brackets of code are closed there. -/
theorem segments_rejoin (e : Text) :
    ∃ segments, split e = .ok segments ∧
      List.intercalate separator (segments.map (·.text)) = e ∧
      (∀ s ∈ segments, e.slice? s.start (s.start + s.text.byteLength) = some s.text) ∧
      (segments.Pairwise fun s t =>
        s.start + s.text.byteLength + separator.byteLength ≤ t.start) ∧
      (∀ s ∈ segments, split s.text = .ok [⟨0, s.text⟩]) ∧
      (∀ s ∈ segments.dropLast, EndsAtTop s.text) ∧
      (∀ s ∈ segments, ∀ front back, s.text = front ++ (separator ++ back) →
        ¬ EndsAtTop front) ∧
      ∀ front back, e = front ++ (separator ++ back) →
        ((∃ s ∈ segments.dropLast, s.start + s.text.byteLength = front.byteLength) ↔
          (Scanner.start front).finish.nesting = .outermost ∧
            countBrackets 0 front.codeCharacters = 0) := by
  refine ⟨_, split_eq e, ?_, ?_, pairwise_placed 0 _, ?_, ?_, ?_, ?_⟩
  · rw [map_text_placed, intercalate_texts]
  · intro s hs
    have hslice := slice?_of_mem_placed [] hs
    rwa [intercalate_texts] at hslice
  · intro s hs
    rw [split_eq, texts_of_mem_texts (text_mem_of_mem_placed hs)]
    rfl
  · intro s hs
    exact endsAtTop_of_mem_dropLast (text_mem_dropLast_of_mem_placed hs)
  · intro s hs
    exact (texts_eq_singleton_iff s.text).mp (texts_of_mem_texts (text_mem_of_mem_placed hs))
  · rintro front back rfl
    rw [cut_iff, endsAtTop_iff_code]

/-- The separator in the argument list ends no segment, since the parenthesis in front is open. -/
theorem segments_rejoin_enclosed :
    split "a|>f(b|>c)".toList = .ok [⟨0, "a".toList⟩, ⟨3, "f(b|>c)".toList⟩] ∧
    EndsAtTop "a".toList ∧ ¬ EndsAtTop "f(b".toList ∧
    ¬ ((Scanner.start "a|>f(b".toList).finish.nesting = .outermost ∧
      countBrackets 0 (Text.codeCharacters "a|>f(b".toList) = 0) := by
  obtain ⟨segments, hsplit, -, -, -, -, hends, hwhole, hcuts⟩ :=
    segments_rejoin "a|>f(b|>c)".toList
  have hsegments : split "a|>f(b|>c)".toList =
      .ok [⟨0, "a".toList⟩, ⟨3, "f(b|>c)".toList⟩] := (split_eq _).trans rfl
  cases hsplit.symm.trans hsegments
  refine ⟨hsegments, hends ⟨0, "a".toList⟩ (by simp), ?_, ?_⟩
  · exact hwhole ⟨3, "f(b|>c)".toList⟩ (by simp) "f(b".toList "c)".toList rfl
  · rw [← hcuts "a|>f(b".toList "c)".toList rfl]
    decide

end BindingCompiler.FilterChain
