import BindingCompiler.Excerpt
import BindingCompiler.Proofs.Cuts

/-!
Slices that exist, and the windows that excerpts are cut from. A slice exists exactly between two
boundaries in order; both sides of a window do, wherever the window was asked for.
-/

namespace BindingCompiler

namespace Text

/-- Two offsets of a text in order, both of which can be cut at. -/
structure Spans (t : Text) (start stop : Nat) : Prop where
  ordered : start ≤ stop
  inside : stop ≤ t.byteLength
  left : t.IsBoundary start
  right : t.IsBoundary stop

theorem isBoundary_zero (t : Text) : t.IsBoundary 0 :=
  ⟨[], t, rfl, rfl⟩

theorem isBoundary_append (front back : Text) : IsBoundary (front ++ back) front.byteLength :=
  ⟨front, back, rfl, rfl⟩

theorem IsBoundary.le_byteLength {t : Text} {offset : Nat} (h : t.IsBoundary offset) :
    offset ≤ t.byteLength := by
  obtain ⟨front, back, rfl, rfl⟩ := h
  rw [byteLength_append]
  exact Nat.le_add_right _ _

theorem IsBoundary.cons {t : Text} {offset : Nat} (h : t.IsBoundary offset) (c : Char) :
    IsBoundary (c :: t) (c.utf8Size + offset) := by
  obtain ⟨front, back, rfl, rfl⟩ := h
  exact ⟨c :: front, back, rfl, rfl⟩

theorem slice?_eq_some_iff {t mid : Text} {start stop : Nat} :
    t.slice? start stop = some mid ↔
      ∃ front back : Text, t = front ++ (mid ++ back) ∧ front.byteLength = start ∧
        Text.byteLength (front ++ mid) = stop := by
  constructor
  · intro h
    rw [slice?] at h
    split at h
    · next hle =>
        obtain ⟨rest, hrest, hmid⟩ := Option.bind_eq_some_iff.mp h
        rw [rest?_eq_cut?] at hrest
        obtain ⟨⟨front, _⟩, hfront, rfl⟩ := Option.map_eq_some_iff.mp hrest
        obtain ⟨⟨_, back⟩, hback, rfl⟩ := Option.map_eq_some_iff.mp hmid
        obtain ⟨rfl, rfl⟩ := (cut?_eq_some_iff ..).mp hfront
        obtain ⟨rfl, hlen⟩ := (cut?_eq_some_iff ..).mp hback
        exact ⟨front, back, rfl, rfl, by rw [byteLength_append, hlen]; omega⟩
    · cases h
  · rintro ⟨front, back, rfl, rfl, rfl⟩
    rw [byteLength_append]
    exact slice?_append front mid back

theorem spans_append (front mid back : Text) :
    Spans (front ++ (mid ++ back)) front.byteLength (Text.byteLength (front ++ mid)) := by
  have hright := isBoundary_append (front ++ mid) back
  rw [List.append_assoc] at hright
  exact ⟨by rw [byteLength_append]; exact Nat.le_add_right _ _, hright.le_byteLength,
    isBoundary_append front (mid ++ back), hright⟩

theorem isSome_slice?_iff {t : Text} {start stop : Nat} :
    (t.slice? start stop).isSome ↔ t.Spans start stop := by
  rw [Option.isSome_iff_exists]
  constructor
  · rintro ⟨mid, hmid⟩
    obtain ⟨front, back, rfl, rfl, rfl⟩ := slice?_eq_some_iff.mp hmid
    exact spans_append front mid back
  · rintro ⟨hle, -, ⟨front, behind, rfl, rfl⟩, ⟨other, back, hsplit, rfl⟩⟩
    rcases List.append_eq_append_iff.mp hsplit with ⟨mid, rfl, rfl⟩ | ⟨mid, rfl, rfl⟩
    · exact ⟨mid, slice?_eq_some_iff.mpr ⟨front, back, rfl, rfl, rfl⟩⟩
    · -- The second offset is not in front of the first, so nothing lies between the two.
      have hnil : mid = [] := by
        rw [byteLength_append] at hle
        exact byteLength_eq_zero_iff.mp (by omega)
      subst hnil
      refine ⟨[], slice?_eq_some_iff.mpr ⟨other, behind, ?_, ?_, ?_⟩⟩ <;> simp

theorem isSome_rest?_iff {t : Text} {start : Nat} :
    (t.rest? start).isSome ↔ t.Spans start t.byteLength := by
  rw [rest?_eq_cut?, Option.isSome_map, ← isBoundary_iff]
  constructor
  · intro h
    exact ⟨h.le_byteLength, Nat.le_refl _, h, t, [], (List.append_nil t).symm, rfl⟩
  · exact fun h => h.left

theorem byteLength_of_rest? {t rest : Text} {start : Nat} (h : t.rest? start = some rest) :
    start + rest.byteLength = t.byteLength := by
  rw [rest?_eq_cut?] at h
  obtain ⟨⟨front, _⟩, hcut, rfl⟩ := Option.map_eq_some_iff.mp h
  obtain ⟨rfl, rfl⟩ := (cut?_eq_some_iff ..).mp hcut
  exact (byteLength_append ..).symm

theorem isBoundary_floorBoundary (t : Text) (offset : Nat) :
    t.IsBoundary (t.floorBoundary offset) := by
  induction t generalizing offset with
  | nil => exact isBoundary_zero []
  | cons c t ih =>
      simp only [floorBoundary]
      split
      · exact (ih _).cons c
      · exact isBoundary_zero _

theorem isBoundary_ceilBoundary (t : Text) (offset : Nat) :
    t.IsBoundary (t.ceilBoundary offset) := by
  induction t generalizing offset with
  | nil => exact isBoundary_zero []
  | cons c t ih =>
      simp only [ceilBoundary]
      split
      · exact isBoundary_zero _
      · exact (ih _).cons c

end Text

/-- A window both of whose sides can be cut out of a source. -/
structure Window.Fits (w : Window) (source : Text) : Prop where
  before : source.Spans w.start w.focus
  after : source.Spans w.focus w.stop

theorem Window.fits_around (source : Text) (offset padding : Nat) :
    (Window.around source offset padding).Fits source := by
  simp only [Window.around]
  generalize hfocus : source.floorBoundary (min offset source.byteLength) = focus
  have hmid : source.IsBoundary focus := hfocus ▸ source.isBoundary_floorBoundary _
  have hstart := source.isBoundary_floorBoundary (focus - padding)
  have hstop := source.isBoundary_ceilBoundary (min (focus + padding) source.byteLength)
  have hfloor := source.floorBoundary_le (focus - padding)
  have hceil := source.le_ceilBoundary (min (focus + padding) source.byteLength)
    (Nat.min_le_right _ _)
  have hinside := hmid.le_byteLength
  have hbefore : source.floorBoundary (focus - padding) ≤ focus := by omega
  have hafter : focus ≤ source.ceilBoundary (min (focus + padding) source.byteLength) := by omega
  exact ⟨⟨hbefore, hinside, hstart, hmid⟩, ⟨hafter, hstop.le_byteLength, hmid, hstop⟩⟩

end BindingCompiler
