import BindingCompiler.Proofs.Windows
import Mathlib.Order.Bounds.Basic

/-!
Windows and the excerpts shown of them. A window reaches from the offset to the last boundary that
leaves the padding in front and to the first one that leaves it behind, so it is wider than asked
for by less than one character on each side. What is shown of it is one line, and another one with a
caret under the character at the offset.
-/

namespace BindingCompiler

namespace Text

theorem isBoundary_cons_iff {c : Char} {t : Text} {offset : Nat} :
    IsBoundary (c :: t) offset ↔
      offset = 0 ∨ ∃ behind, t.IsBoundary behind ∧ offset = c.utf8Size + behind := by
  constructor
  · rintro ⟨front, back, hsplit, rfl⟩
    cases front with
    | nil => exact .inl rfl
    | cons d front =>
        cases hsplit
        exact .inr ⟨_, isBoundary_append front back, rfl⟩
  · rintro (rfl | ⟨behind, h, rfl⟩)
    · exact isBoundary_zero _
    · exact h.cons c

theorem le_floorBoundary {t : Text} {boundary offset : Nat} (h : t.IsBoundary boundary)
    (hle : boundary ≤ offset) : boundary ≤ t.floorBoundary offset := by
  induction t generalizing boundary offset with
  | nil => exact h.le_byteLength
  | cons c t ih =>
      rcases isBoundary_cons_iff.mp h with rfl | ⟨behind, hbehind, rfl⟩
      · exact Nat.zero_le _
      · rw [floorBoundary, if_pos (by omega)]
        exact Nat.add_le_add_left (ih hbehind (by omega)) _

theorem ceilBoundary_le {t : Text} {boundary offset : Nat} (h : t.IsBoundary boundary)
    (hle : offset ≤ boundary) : t.ceilBoundary offset ≤ boundary := by
  induction t generalizing boundary offset with
  | nil => exact Nat.zero_le _
  | cons c t ih =>
      rw [ceilBoundary]
      split
      · exact Nat.zero_le _
      · rcases isBoundary_cons_iff.mp h with rfl | ⟨behind, hbehind, rfl⟩
        · omega
        · exact Nat.add_le_add_left (ih hbehind (by omega)) _

/-- The boundary that is found in front of an offset is the last one. -/
theorem isGreatest_floorBoundary (t : Text) (offset : Nat) :
    IsGreatest {boundary | t.IsBoundary boundary ∧ boundary ≤ offset} (t.floorBoundary offset) :=
  ⟨⟨t.isBoundary_floorBoundary offset, t.floorBoundary_le offset⟩,
    fun _ h => le_floorBoundary h.1 h.2⟩

/-- The boundary that is found behind an offset is the first one. -/
theorem isLeast_ceilBoundary {t : Text} {offset : Nat} (h : offset ≤ t.byteLength) :
    IsLeast {boundary | t.IsBoundary boundary ∧ offset ≤ boundary} (t.ceilBoundary offset) :=
  ⟨⟨t.isBoundary_ceilBoundary offset, t.le_ceilBoundary offset h⟩,
    fun _ h => ceilBoundary_le h.1 h.2⟩

/-- A character takes at most four bytes, so an offset inside one is near its ends. -/
theorem le_floorBoundary_add {t : Text} {offset : Nat} (h : offset ≤ t.byteLength) :
    offset ≤ t.floorBoundary offset + 3 := by
  induction t generalizing offset with
  | nil => exact Nat.le_trans h (Nat.zero_le _)
  | cons c t ih =>
      have hc := c.utf8Size_le_four
      rw [byteLength] at h
      rw [floorBoundary]
      split
      · have := @ih (offset - c.utf8Size) (by omega)
        omega
      · omega

theorem ceilBoundary_le_add (t : Text) (offset : Nat) : t.ceilBoundary offset ≤ offset + 3 := by
  induction t generalizing offset with
  | nil => exact Nat.zero_le _
  | cons c t ih =>
      have hc := c.utf8Size_le_four
      rw [ceilBoundary]
      split
      · omega
      · by_cases hin : offset ≤ c.utf8Size
        · have hzero : ceilBoundary t (offset - c.utf8Size) = 0 := by
            rw [Nat.sub_eq_zero_of_le hin]
            cases t <;> rfl
          omega
        · have := ih (offset - c.utf8Size)
          omega

end Text

/-- The window of a source with a padding on either side of an offset, each of its three offsets
moved to the boundary next to it. Sums are cut off at a limit. -/
structure Window.Nearest (w : Window) (source : Text) (offset padding limit : Nat) : Prop where
  focus : IsGreatest {b | source.IsBoundary b ∧ b ≤ min offset source.byteLength} w.focus
  start : IsGreatest {b | source.IsBoundary b ∧ b ≤ w.focus - padding} w.start
  stop : IsLeast {b | source.IsBoundary b ∧
    min (min (w.focus + padding) limit) source.byteLength ≤ b} w.stop
  ordered : w.start ≤ w.focus ∧ w.focus ≤ w.stop
  narrow : w.focus ≤ w.start + padding + 3 ∧ w.stop ≤ w.focus + padding + 3

theorem Window.nearest_around {source : Text} {limit : Nat} (held : source.byteLength ≤ limit)
    (offset padding : Nat) :
    (Window.around source offset padding).Nearest source offset padding limit := by
  obtain ⟨hbefore, hafter⟩ := Window.fits_around source offset padding
  have hfocus := hbefore.inside
  have hstop :
      (Window.around source offset padding).stop = source.ceilBoundary
        (min ((Window.around source offset padding).focus + padding) source.byteLength) := rfl
  have hstart : (Window.around source offset padding).start =
      source.floorBoundary ((Window.around source offset padding).focus - padding) := rfl
  have hleft := Text.le_floorBoundary_add (t := source)
    (Nat.le_trans (Nat.sub_le (Window.around source offset padding).focus padding) hfocus)
  have hright := source.ceilBoundary_le_add
    (min ((Window.around source offset padding).focus + padding) source.byteLength)
  -- The limit cuts off nothing that the end of the source does not cut off.
  have hlimit : min (min ((Window.around source offset padding).focus + padding) limit)
      source.byteLength =
        min ((Window.around source offset padding).focus + padding) source.byteLength := by
    omega
  refine ⟨source.isGreatest_floorBoundary _, source.isGreatest_floorBoundary _, ?_,
    ⟨hbefore.ordered, hafter.ordered⟩, ⟨by omega, by omega⟩⟩
  rw [hlimit]
  exact Text.isLeast_ceilBoundary (Nat.min_le_right _ _)

namespace Window.Nearest

variable {w : Window} {source : Text} {offset padding limit : Nat}

/-- An offset that can be cut at is not moved. -/
theorem focus_eq (h : w.Nearest source offset padding limit) (hoffset : source.IsBoundary offset) :
    w.focus = offset := by
  obtain ⟨⟨-, hle⟩, hgreatest⟩ := h.focus
  have hge := hgreatest ⟨hoffset, Nat.le_min.mpr ⟨Nat.le_refl _, hoffset.le_byteLength⟩⟩
  omega

/-- No offset is moved to a character of one byte. -/
theorem eq_focus (h : w.Nearest source offset padding limit) {front back : Text} {c : Char}
    (split : source = front ++ c :: back) (hc : c.utf8Size = 1)
    (hfocus : w.focus = front.byteLength) : offset = w.focus := by
  obtain ⟨⟨-, hle⟩, hgreatest⟩ := h.focus
  have hbehind : source.IsBoundary (w.focus + 1) :=
    ⟨front ++ [c], back, by simp [split], by
      rw [Text.byteLength_append, Text.byteLength_singleton, hc, hfocus]⟩
  have hinside := hbehind.le_byteLength
  by_contra hne
  have := hgreatest ⟨hbehind, by omega⟩
  omega

theorem start_lt_iff (h : w.Nearest source offset padding limit) :
    w.start < w.focus ↔ 0 < padding ∧ 0 < w.focus := by
  obtain ⟨⟨-, hle⟩, hgreatest⟩ := h.start
  constructor
  · intro hlt
    refine ⟨Nat.pos_of_ne_zero ?_, Nat.zero_lt_of_lt hlt⟩
    rintro rfl
    have := hgreatest ⟨h.focus.1.1, Nat.le_refl _⟩
    omega
  · omega

theorem lt_stop (h : w.Nearest source offset padding limit) (held : source.byteLength ≤ limit)
    (hpadding : 0 < padding) (hfocus : w.focus < source.byteLength) : w.focus < w.stop := by
  obtain ⟨⟨-, hle⟩, -⟩ := h.stop
  omega

end Window.Nearest

/-- What an excerpt shows on either side of the caret is a part of the source, and the two parts
stand next to each other. -/
theorem Excerpt.exists_sides (source : Text) (offset padding : Nat) :
    ∃ front before after back : Text, source = front ++ (before ++ (after ++ back)) ∧
      Window.around source offset padding =
        { start := front.byteLength
          focus := Text.byteLength (front ++ before)
          stop := Text.byteLength (front ++ (before ++ after)) } ∧
      Excerpt.around source offset padding =
        { before := before.escapeLineBreaks, after := after.escapeLineBreaks } := by
  obtain ⟨hbefore, hafter⟩ := Window.fits_around source offset padding
  rw [Excerpt.around]
  generalize Window.around source offset padding = window at hbefore hafter ⊢
  obtain ⟨start, focus, stop⟩ := window
  obtain ⟨before, hb⟩ := Option.isSome_iff_exists.mp (Text.isSome_slice?_iff.mpr hbefore)
  obtain ⟨after, ha⟩ := Option.isSome_iff_exists.mp (Text.isSome_slice?_iff.mpr hafter)
  dsimp only at hb ha
  obtain ⟨front, others, rfl, rfl, rfl⟩ := Text.slice?_eq_some_iff.mp hb
  obtain ⟨seen, back, hsplit, hseen, rfl⟩ := Text.slice?_eq_some_iff.mp ha
  rw [← List.append_assoc] at hsplit
  obtain ⟨rfl, rfl⟩ := Text.append_inj hsplit hseen.symm
  refine ⟨front, before, after, back, rfl, by rw [List.append_assoc], ?_⟩
  rw [hb, ha]
  rfl

namespace Excerpt

variable {e : Excerpt}

/-- The two lines of an excerpt have a line feed between them, and none in them. -/
theorem splitOn_lines (h : '\n' ∉ e.sourceLine) :
    e.lines.splitOn '\n' = [e.sourceLine, e.caretLine] := by
  have hlines : e.lines = ['\n'].intercalate [e.sourceLine, e.caretLine] := by
    simp [lines]
  rw [hlines]
  apply List.splitOn_intercalate
  · intro line hline
    simp only [List.mem_cons, List.not_mem_nil, or_false] at hline
    rcases hline with rfl | rfl
    · exact h
    · simp [caretLine]
  · exact List.cons_ne_nil _ _

theorem count_lines (h : '\n' ∉ e.sourceLine) : e.lines.count '\n' = 1 := by
  simp [lines, caretLine, List.count_eq_zero.mpr h, List.count_replicate]

/-- A report indents both lines, for the first line feed is the one between them. -/
theorem underMessage_eq (h : '\n' ∉ e.sourceLine) (message : Text) :
    e.underMessage message = underMessage.capitalized message ++ ":\n\n".toList ++
      [e.sourceLine, e.caretLine].flatMap fun line => '\t' :: line ++ ['\n'] := by
  rw [underMessage, lines, Text.replaceFirst_append h]
  simp

end Excerpt

/-- However an excerpt is asked for, its window is the nearest one that can be cut out of the source,
on counts up to a limit that the source does not pass. The excerpt has two lines; the caret stands
behind as many characters as are shown of the source in front of the offset, and a report puts a tab
in front of both lines and changes nothing else of them. -/
theorem excerpt_well_formed (message source : Text) (offset padding limit : Nat)
    (held : source.byteLength ≤ limit) :
    let window := Window.around source offset padding
    let excerpt := Excerpt.around source offset padding
    window.Nearest source offset padding limit ∧
      ∃ before after, source.slice? window.start window.focus = some before ∧
        source.slice? window.focus window.stop = some after ∧
        excerpt.lines.count '\n' = 1 ∧
        excerpt.lines.splitOn '\n' =
          [before.escapeLineBreaks ++ after.escapeLineBreaks,
            List.replicate before.escapeLineBreaks.length ' ' ++ ['^']] ∧
        excerpt.underMessage message =
          Excerpt.underMessage.capitalized message ++ ":\n\n".toList ++
            (excerpt.lines.splitOn '\n').flatMap fun line => '\t' :: line ++ ['\n'] := by
  intro window excerpt
  refine ⟨Window.nearest_around held offset padding, ?_⟩
  obtain ⟨front, before, after, back, hsource, hwindow, hexcerpt⟩ :=
    Excerpt.exists_sides source offset padding
  have hfeed : '\n' ∉ excerpt.sourceLine := by
    rw [show excerpt = _ from hexcerpt, Excerpt.sourceLine, List.mem_append]
    exact not_or_intro before.lineFeed_not_mem_escapeLineBreaks
      after.lineFeed_not_mem_escapeLineBreaks
  refine ⟨before, after, ?_, ?_, Excerpt.count_lines hfeed, ?_, ?_⟩
  · rw [show window = _ from hwindow]
    exact Text.slice?_eq_some_iff.mpr ⟨front, after ++ back, hsource, rfl, rfl⟩
  · rw [show window = _ from hwindow]
    refine Text.slice?_eq_some_iff.mpr ⟨front ++ before, back, ?_, rfl, ?_⟩
    · rw [hsource, List.append_assoc]
    · rw [List.append_assoc]
  · rw [Excerpt.splitOn_lines hfeed, show excerpt = _ from hexcerpt]
    rfl
  · rw [Excerpt.splitOn_lines hfeed, Excerpt.underMessage_eq hfeed]

/-- The offset is inside a wide character, and the window reaches beyond both of its ends. -/
theorem excerpt_well_formed_wide :
    Text.byteLength "a\r\né\nb".toList ≤ UInt64.size - 1 ∧
      Window.around "a\r\né\nb".toList 4 (UInt64.size - 1) = ⟨0, 3, 7⟩ ∧
      ∃ before after, Text.slice? "a\r\né\nb".toList 0 3 = some before ∧
        Text.slice? "a\r\né\nb".toList 3 7 = some after ∧
        (Excerpt.around "a\r\né\nb".toList 4 (UInt64.size - 1)).lines.splitOn '\n' =
          [before.escapeLineBreaks ++ after.escapeLineBreaks,
            List.replicate before.escapeLineBreaks.length ' ' ++ ['^']] := by
  have hheld : Text.byteLength "a\r\né\nb".toList ≤ UInt64.size - 1 := by decide
  have hwindow : Window.around "a\r\né\nb".toList 4 (UInt64.size - 1) = ⟨0, 3, 7⟩ := by decide +kernel
  obtain ⟨-, before, after, hbefore, hafter, -, hlines, -⟩ :=
    excerpt_well_formed [] "a\r\né\nb".toList 4 (UInt64.size - 1) (UInt64.size - 1) hheld
  rw [hwindow] at hbefore hafter
  exact ⟨hheld, hwindow, before, after, hbefore, hafter, hlines⟩

end BindingCompiler
