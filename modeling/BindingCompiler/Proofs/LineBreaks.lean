import BindingCompiler.Proofs.Evidence
import BindingCompiler.Proofs.Excerpts
import Mathlib.Data.List.Basic

/-!
Line breaks in excerpts. An excerpt shows its window with every line break escaped, unless the caret
stands between the two characters of one: its sides are escaped apart, so the first character is
then shown as it is. Of the problems that are reported, only that of a tag with nothing but blanks,
the last of them such a line break, is shown so.
-/

namespace BindingCompiler

namespace Text

/-- The text with a pattern replaced wherever it occurs, from left to right. So many characters
still belong to the last occurrence. -/
def replaceFrom (pattern replacement : Text) : Nat → Text → Text
  | _, [] => []
  | skipped + 1, _ :: t => replaceFrom pattern replacement skipped t
  | 0, c :: t =>
      if pattern.isPrefixOf (c :: t) then
        replacement ++ replaceFrom pattern replacement (pattern.length - 1) t
      else
        c :: replaceFrom pattern replacement 0 t

def replaceAll (t pattern replacement : Text) : Text :=
  replaceFrom pattern replacement 0 t

/-- Both kinds of line break are replaced by the two characters that stand for a line feed. -/
def breaksReplaced (t : Text) : Text :=
  (t.replaceAll ['\r', '\n'] ['\\', 'n']).replaceAll ['\n'] ['\\', 'n']

theorem replaceAll_cons {pattern replacement t : Text} {c : Char} (h : ¬ pattern <+: c :: t) :
    replaceAll (c :: t) pattern replacement = c :: t.replaceAll pattern replacement := by
  rw [← List.isPrefixOf_iff_prefix] at h
  rw [replaceAll, replaceFrom, if_neg h]
  rfl

theorem escapeLineBreaks_eq (t : Text) : t.escapeLineBreaks = t.breaksReplaced := by
  fun_induction escapeLineBreaks t with
  | case1 => rfl
  | case2 t ih =>
      rw [ih]
      rfl
  | case3 t ih =>
      rw [ih]
      rfl
  | case4 c t hpair hfeed ih =>
      have pair : ¬ ['\r', '\n'] <+: c :: t := by
        rintro ⟨rest, hrest⟩
        cases hrest
        exact hpair rest rfl rfl
      have feed (others : Text) : ¬ ['\n'] <+: c :: others := by
        rintro ⟨rest, hrest⟩
        cases hrest
        exact hfeed rfl
      rw [ih, breaksReplaced, breaksReplaced, replaceAll_cons pair, replaceAll_cons (feed _)]

theorem escapeLineBreaks_cons {c : Char} {t : Text} (hfeed : c ≠ '\n')
    (hpair : c = '\r' → t.head? ≠ some '\n') :
    escapeLineBreaks (c :: t) = c :: t.escapeLineBreaks := by
  apply escapeLineBreaks.eq_4
  · intro rest hc ht
    exact hpair hc (by rw [ht]; rfl)
  · exact hfeed

/-- A cut between the two characters of a line break is the only one across which line breaks cannot
be escaped apart. -/
theorem escapeLineBreaks_append {s t : Text}
    (h : s.getLast? = some '\r' → t.head? ≠ some '\n') :
    escapeLineBreaks (s ++ t) = s.escapeLineBreaks ++ t.escapeLineBreaks := by
  fun_induction escapeLineBreaks s with
  | case1 => rfl
  | case2 s ih =>
      rw [List.cons_append, List.cons_append, escapeLineBreaks, ih]
      · rfl
      · intro hs
        exact h (by simp [List.getLast?_cons, hs])
  | case3 s ih =>
      rw [List.cons_append, escapeLineBreaks, ih]
      · rfl
      · intro hs
        exact h (by simp [List.getLast?_cons, hs])
  | case4 c s hpair hfeed ih =>
      rw [List.cons_append, escapeLineBreaks_cons hfeed, ih]
      · rfl
      · intro hs
        exact h (by simp [List.getLast?_cons, hs])
      · intro hc hhead
        cases s with
        | nil => exact h (by rw [hc]; rfl) hhead
        | cons d s =>
            cases hhead
            exact hpair s hc rfl

/-- Escaped apart, the two characters of a line break leave the first one as it is. -/
theorem escapeLineBreaks_cut (front back : Text) :
    escapeLineBreaks (front ++ ['\r']) ++ escapeLineBreaks ('\n' :: back) =
        front.escapeLineBreaks ++ '\r' :: '\\' :: 'n' :: back.escapeLineBreaks ∧
      escapeLineBreaks (front ++ '\r' :: '\n' :: back) =
        front.escapeLineBreaks ++ '\\' :: 'n' :: back.escapeLineBreaks := by
  constructor
  · rw [escapeLineBreaks_append (fun _ => by simp)]
    simp [escapeLineBreaks]
  · rw [escapeLineBreaks_append (fun _ => by simp)]
    rfl

/-- The offset lies between the two characters of a line break. -/
def SplitsLineBreak (t : Text) (offset : Nat) : Prop :=
  ∃ front back, t = front ++ '\r' :: '\n' :: back ∧ offset = front.byteLength + 1

end Text

namespace Excerpt

/-- The sides of an excerpt meet inside a line break exactly when the offset lies there and anything
is shown at all. -/
theorem meet_in_break_iff {source front before after back : Text} {offset padding : Nat}
    (split : source = front ++ (before ++ (after ++ back)))
    (window : Window.around source offset padding =
      { start := front.byteLength
        focus := Text.byteLength (front ++ before)
        stop := Text.byteLength (front ++ (before ++ after)) }) :
    (before.getLast? = some '\r' ∧ after.head? = some '\n') ↔
      0 < padding ∧ source.SplitsLineBreak offset := by
  have nearest := Window.nearest_around (Nat.le_refl source.byteLength) offset padding
  rw [window] at nearest
  have hstart := nearest.start_lt_iff
  have hstop := nearest.lt_stop (Nat.le_refl _)
  dsimp only at hstart hstop
  constructor
  · rintro ⟨hlast, hhead⟩
    obtain ⟨before, rfl⟩ := List.getLast?_eq_some_iff.mp hlast
    obtain ⟨after, rfl⟩ := List.head?_eq_some_iff.mp hhead
    have hfocus : Text.byteLength (front ++ (before ++ ['\r'])) =
        Text.byteLength (front ++ before) + 1 := by
      rw [← List.append_assoc, Text.byteLength_append]
      rfl
    have hfeed : source = front ++ (before ++ ['\r']) ++ '\n' :: (after ++ back) := by
      simp [split]
    have hoffset : offset = Text.byteLength (front ++ (before ++ ['\r'])) :=
      nearest.eq_focus hfeed rfl rfl
    have hpadding := hstart.mp (by
      rw [hfocus, Text.byteLength_append]
      omega)
    exact ⟨hpadding.1, front ++ before, after ++ back, by simp [split], hoffset.trans hfocus⟩
  · rintro ⟨hpadding, f, b, hsource, rfl⟩
    have hcut : Text.byteLength (f ++ ['\r']) = f.byteLength + 1 := Text.byteLength_append ..
    have hboundary : source.IsBoundary (f.byteLength + 1) :=
      ⟨f ++ ['\r'], '\n' :: b, by simp [hsource], hcut⟩
    have hfocus : Text.byteLength (front ++ before) = f.byteLength + 1 := nearest.focus_eq hboundary
    have hsplit : (front ++ before) ++ (after ++ back) = (f ++ ['\r']) ++ '\n' :: b := by
      rw [List.append_assoc, ← split, hsource, List.append_assoc]
      rfl
    obtain ⟨hbefore, hafter⟩ := Text.append_inj hsplit (hfocus.trans hcut.symm)
    constructor
    · have hbegin := hstart.mpr ⟨hpadding, by omega⟩
      have hne : before ≠ [] := by
        rintro rfl
        simp at hbegin
      rw [← List.getLast?_append_of_ne_nil front hne, hbefore]
      exact List.getLast?_concat
    · have hinside : Text.byteLength (front ++ before) < source.byteLength := by
        have hlength := congrArg Text.byteLength hsource
        rw [Text.byteLength_append, Text.byteLength, Text.byteLength] at hlength
        have := Char.utf8Size_pos '\n'
        have hreturn : Char.utf8Size '\r' = 1 := rfl
        omega
      have hend := hstop hpadding hinside
      cases after with
      | nil => simp at hend
      | cons c after =>
          cases hafter
          rfl

/-- The line that is shown of a source is its window with every line break replaced. -/
def ShowsWhole (source : Text) (offset padding : Nat) : Prop :=
  ∃ shown, source.slice? (Window.around source offset padding).start
      (Window.around source offset padding).stop = some shown ∧
    (Excerpt.around source offset padding).sourceLine = shown.breaksReplaced

theorem showsWhole_iff (source : Text) (offset padding : Nat) :
    ShowsWhole source offset padding ↔ ¬ (0 < padding ∧ source.SplitsLineBreak offset) := by
  obtain ⟨front, before, after, back, hsource, hwindow, hexcerpt⟩ :=
    exists_sides source offset padding
  have hslice : source.slice? front.byteLength (Text.byteLength (front ++ (before ++ after))) =
      some (before ++ after) :=
    Text.slice?_eq_some_iff.mpr ⟨front, back, by simp [hsource], rfl, rfl⟩
  rw [← meet_in_break_iff hsource hwindow, ShowsWhole, hwindow, hexcerpt, hslice]
  simp only [Option.some.injEq, exists_eq_left', sourceLine, ← Text.escapeLineBreaks_eq]
  constructor
  · rintro hline ⟨hlast, hhead⟩
    obtain ⟨before, rfl⟩ := List.getLast?_eq_some_iff.mp hlast
    obtain ⟨after, rfl⟩ := List.head?_eq_some_iff.mp hhead
    obtain ⟨happart, hwhole⟩ := Text.escapeLineBreaks_cut before after
    rw [happart, List.append_assoc, List.singleton_append, hwhole] at hline
    have hlength := congrArg List.length hline
    simp at hlength
  · intro hcut
    exact (Text.escapeLineBreaks_append fun hlast hhead => hcut ⟨hlast, hhead⟩).symm

/-- What is shown when the caret stands inside a line break: its first character as it is, and
everything else replaced. -/
theorem exists_shown_of_splits {source : Text} {offset padding : Nat} (hpadding : 0 < padding)
    (splits : source.SplitsLineBreak offset) :
    ∃ front back : Text, source.slice? (Window.around source offset padding).start
        (Window.around source offset padding).stop = some (front ++ '\r' :: '\n' :: back) ∧
      (Excerpt.around source offset padding).sourceLine =
        front.breaksReplaced ++ '\r' :: '\\' :: 'n' :: back.breaksReplaced := by
  obtain ⟨front, before, after, back, hsource, hwindow, hexcerpt⟩ :=
    exists_sides source offset padding
  obtain ⟨hlast, hhead⟩ := (meet_in_break_iff hsource hwindow).mpr ⟨hpadding, splits⟩
  obtain ⟨before, rfl⟩ := List.getLast?_eq_some_iff.mp hlast
  obtain ⟨after, rfl⟩ := List.head?_eq_some_iff.mp hhead
  refine ⟨before, after, ?_, ?_⟩
  · rw [hwindow]
    exact Text.slice?_eq_some_iff.mpr ⟨front, back, by simp [hsource], rfl, by simp⟩
  · rw [hexcerpt, ← Text.escapeLineBreaks_eq, ← Text.escapeLineBreaks_eq]
    exact (Text.escapeLineBreaks_cut before after).1

end Excerpt

/-- The problem is that a tag holds nothing but blanks, and the last of them are a line break of two
characters. -/
def EndsInLineBreak (t : Text) (p : Problem) : Prop :=
  p.cause = .missingExpression ∧ ∃ front back,
    t = front ++ '\r' :: '\n' :: (TemplateText.tagClosing ++ back) ∧
    p.position = front.byteLength + 1

/-- No other cause is found inside a line break. -/
theorem Cause.Evident.exists_of_splits {t : Text} {cause : Cause} {position : Nat}
    (h : cause.Evident t position) (splits : t.SplitsLineBreak position) :
    cause = .missingExpression ∧ ∃ front back,
      t = front ++ '\r' :: '\n' :: (TemplateText.tagClosing ++ back) ∧
      position = front.byteLength + 1 := by
  obtain ⟨f, b, hbreak, hplace⟩ := splits
  -- The place cuts the line break in two.
  have cut (front back : Text) (split : t = front ++ back) (place : front.byteLength = position) :
      front = f ++ ['\r'] ∧ back = '\n' :: b := by
    have hjoined : front ++ back = (f ++ ['\r']) ++ '\n' :: b := by
      rw [← split, hbreak, List.append_assoc]
      rfl
    refine Text.append_inj hjoined ?_
    rw [place, hplace, Text.byteLength_append]
    rfl
  have last {front : Text} {c : Char} (h : front ++ [c] = f ++ ['\r']) : c = '\r' := by
    have hlast := congrArg List.getLast? h
    rwa [List.getLast?_concat, List.getLast?_concat, Option.some.injEq] at hlast
  cases h with
  | @invalidStart kind front c back split start =>
      obtain ⟨-, hback⟩ := cut _ _ split rfl
      cases hback
      cases start
  | @invalidCharacter kind front c back split name blank opening =>
      obtain ⟨-, hback⟩ := cut _ _ split rfl
      cases hback
      cases blank
  | unclosedArguments split | missingFilterName split =>
      obtain ⟨-, hback⟩ := cut _ _ split rfl
      cases hback
  | @missingMethodName front blanks back split blank next =>
      obtain ⟨hfront, -⟩ := cut (front ++ [MethodCall.marker]) (blanks ++ back)
        (by simp [split]) (Text.byteLength_append ..)
      cases last hfront
  | @trailingText kind front blanks c back split blank full =>
      obtain ⟨-, hback⟩ := cut (front ++ ')' :: blanks) (c :: back) (by simp [split]) rfl
      cases hback
      cases full
  | @missingFilter front back split =>
      obtain ⟨hfront, -⟩ := cut (front ++ ['|', '>']) back
        (by simp [split, FilterChain.separator]) (Text.byteLength_append ..)
      rw [List.append_cons] at hfront
      cases last hfront
  | @missingExpression front back position split place =>
      refine ⟨rfl, f, back, ?_, hplace⟩
      have hjoined : front ++ (TemplateText.tagClosing ++ back) = (f ++ ['\r', '\n']) ++ b := by
        rw [← split, hbreak, List.append_assoc]
        rfl
      have hlength : Text.byteLength (f ++ ['\r', '\n']) = f.byteLength + 2 :=
        Text.byteLength_append ..
      obtain ⟨-, rfl⟩ := Text.append_inj hjoined (by omega)
      exact hbreak
  | unterminatedAtEnd =>
      obtain ⟨-, hback⟩ := cut t [] (List.append_nil t).symm rfl
      cases hback
  | @unterminatedBehind front back split next =>
      obtain ⟨hfront, -⟩ := cut (front ++ ['}']) back (by simp [split])
        (Text.byteLength_append ..)
      cases last hfront

theorem EndsInLineBreak.splits {t : Text} {p : Problem} (h : EndsInLineBreak t p) :
    t.SplitsLineBreak p.position := by
  obtain ⟨-, front, back, hsplit, hplace⟩ := h
  exact ⟨front, TemplateText.tagClosing ++ back, hsplit, hplace⟩

/-- An excerpt shows its window with every line break replaced, wherever in the window the offset
lies, unless that is inside a line break, whose first character is then shown as it is. Of the
problems that are reported, this is so only for a tag with nothing but blanks that end in such a
line break. -/
theorem excerpt_shows_line_breaks (source : Text) :
    (∀ offset padding, Excerpt.ShowsWhole source offset padding ↔
      ¬ (0 < padding ∧ source.SplitsLineBreak offset)) ∧
    (∀ offset padding, 0 < padding → source.SplitsLineBreak offset →
      ∃ front back : Text, source.slice? (Window.around source offset padding).start
          (Window.around source offset padding).stop = some (front ++ '\r' :: '\n' :: back) ∧
        (Excerpt.around source offset padding).sourceLine =
          front.breaksReplaced ++ '\r' :: '\\' :: 'n' :: back.breaksReplaced) ∧
    ∀ (pragmas : Pragmas) (failure : Failure),
      FilterChain.compile source pragmas.filter = .error failure ∨
        MethodCall.expand source pragmas.method = .error failure ∨
        TemplateText.compile pragmas source = .error failure →
      ∃ problem, failure = .problem problem ∧
        (Excerpt.ShowsWhole source problem.position Excerpt.defaultPadding ↔
          ¬ EndsInLineBreak source problem) := by
  refine ⟨Excerpt.showsWhole_iff source, ?_, ?_⟩
  · exact fun _ _ hpadding splits => Excerpt.exists_shown_of_splits hpadding splits
  · intro pragmas failure h
    have hshown := Failure.evident_of_pass h
    cases failure with
    | stuck => exact absurd hshown id
    | problem p =>
        refine ⟨p, rfl, ?_⟩
        rw [Excerpt.showsWhole_iff, not_iff_not]
        constructor
        · exact fun hcut => Cause.Evident.exists_of_splits hshown hcut.2
        · exact fun hends => ⟨by decide, hends.splits⟩

/-- A filter that is missing behind a line break is reported with the line break replaced, and an
empty tag that ends in one is not. -/
theorem excerpt_shows_line_breaks_tag :
    FilterChain.compile "\r\nx|>".toList (Pragmas.filter {}) =
      .error (.problem ⟨.missingFilter, 5, false⟩) ∧
    Excerpt.ShowsWhole "\r\nx|>".toList 5 Excerpt.defaultPadding ∧
    0 < Excerpt.defaultPadding ∧ Text.SplitsLineBreak "\x7b\x7b\r\n\x7d\x7d".toList 3 ∧
    ∃ front back : Text,
      (Excerpt.around "\x7b\x7b\r\n\x7d\x7d".toList 3 Excerpt.defaultPadding).sourceLine =
        front.breaksReplaced ++ '\r' :: '\\' :: 'n' :: back.breaksReplaced := by
  have hcompile : FilterChain.compile "\r\nx|>".toList (Pragmas.filter {}) =
      .error (.problem ⟨.missingFilter, 5, false⟩) := rfl
  have hpadding : 0 < Excerpt.defaultPadding := by decide
  have hsplits : Text.SplitsLineBreak "\x7b\x7b\r\n\x7d\x7d".toList 3 :=
    ⟨['{', '{'], ['}', '}'], rfl, rfl⟩
  obtain ⟨_, hproblem, hwhole⟩ := (excerpt_shows_line_breaks _).2.2 {} _ (.inl hcompile)
  cases hproblem
  have hshown : Excerpt.ShowsWhole "\r\nx|>".toList 5 Excerpt.defaultPadding :=
    hwhole.mpr fun h => nomatch h.1
  obtain ⟨front, back, -, hline⟩ := (excerpt_shows_line_breaks _).2.1 3 _ hpadding hsplits
  exact ⟨hcompile, hshown, hpadding, hsplits, front, back, hline⟩

/-- A tag that holds nothing but a line break of two characters is reported with the first of them
shown as it is. -/
theorem line_break_shown_raw :
    TemplateText.compile {} "\x7b\x7b\r\n\x7d\x7d".toList =
      .error (.problem ⟨.missingExpression, 3, false⟩) ∧
    (Excerpt.around "\x7b\x7b\r\n\x7d\x7d".toList 3 Excerpt.defaultPadding).sourceLine =
      "\x7b\x7b\r\\n\x7d\x7d".toList ∧
    Text.breaksReplaced "\x7b\x7b\r\n\x7d\x7d".toList = "\x7b\x7b\\n\x7d\x7d".toList := by
  refine ⟨?_, by decide, by decide⟩
  rw [TemplateText.compile, TemplateText.pieces.eq_def]
  rfl

end BindingCompiler
