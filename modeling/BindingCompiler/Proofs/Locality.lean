import BindingCompiler.Proofs.Headers
import BindingCompiler.Proofs.Progress
import BindingCompiler.Proofs.Windows

/-!
Scans of parts of a text. Between two places that it comes to, a scan does what a scan of the part
between them does: it looks at nothing in front of the first place, and behind the second one at
most at the brace that would complete the opening of an interpolation across it. So a reference is
read at any place as it is read at the beginning of what follows there.
-/

namespace BindingCompiler

/-- What a visitor can tell of the character that it is shown. -/
structure Sight where
  position : Nat
  character : Option Char
  nesting : Nesting
  deriving DecidableEq, Repr

/-- The same sight in a text that holds the source so many bytes further on. -/
def Sight.shift (v : Sight) (bytes : Nat) : Sight :=
  { v with position := v.position + bytes }

namespace Nesting

/-- Reading joined texts comes to the cut between them, or the cut divides the opening of an
interpolation. -/
theorem cut_or_opening (n : Nesting) (mid rest : Text) :
    Cut n mid rest ∨ ∃ front back, mid = front ++ ['$'] ∧ rest = '{' :: back ∧
      Cut n front ('$' :: rest) ∧ (n.after front).region = .template false := by
  -- A character is read in the joined texts as it is in front of the cut, unless the cut divides.
  have read {n : Nesting} {c : Char} {mid : Text} {r : Reading} (h : Reads n c mid.head? r)
      (hwhole : ¬ (n.region = .template false ∧ c = '$' ∧ mid = [] ∧ rest.head? = some '{')) :
      Reads n c (mid ++ rest).head? r := by
    refine h.congr_next fun hregion hc => ?_
    cases mid with
    | cons d mid => rfl
    | nil => exact iff_of_false nofun fun hrest => hwhole ⟨hregion, hc, rfl, hrest⟩
  have divided {n : Nesting} (hregion : n.region = .template false) (hrest : rest.head? = some '{') :
      ∃ front back, ['$'] = front ++ ['$'] ∧ rest = '{' :: back ∧ Cut n front ('$' :: rest) ∧
        (n.after front).region = .template false := by
    obtain ⟨back, rfl⟩ := List.head?_eq_some_iff.mp hrest
    exact ⟨[], back, rfl, rfl, .here, hregion⟩
  induction n, mid using passage_induction with
  | nil n => exact .inl .here
  | visit n c mid within hr ih =>
      by_cases hcut : n.region = .template false ∧ c = '$' ∧ mid = [] ∧ rest.head? = some '{'
      · obtain ⟨hregion, rfl, rfl, hrest⟩ := hcut
        exact .inr (divided hregion hrest)
      · have hread := read hr hcut
        rcases ih with h | ⟨front, back, rfl, rfl, h, hregion⟩
        · exact .inl (.visit hread h)
        · rw [List.append_assoc] at hread
          refine .inr ⟨c :: front, back, rfl, rfl, .visit hread h, ?_⟩
          rwa [after_visit hread.visit_in_front]
  | skip n c mid next hr ih =>
      by_cases hcut : n.region = .template false ∧ c = '$' ∧ mid = [] ∧ rest.head? = some '{'
      · obtain ⟨hregion, rfl, rfl, hrest⟩ := hcut
        exact .inr (divided hregion hrest)
      · have hread := read hr hcut
        rcases ih with h | ⟨front, back, rfl, rfl, h, hregion⟩
        · exact .inl (.skip hread h)
        · rw [List.append_assoc] at hread
          refine .inr ⟨c :: front, back, rfl, rfl, .skip hread h, ?_⟩
          rwa [after_skip hread.skip_in_front]
  | opening d ops mid ih =>
      rcases ih with h | ⟨front, back, rfl, rfl, h, hregion⟩
      · exact .inl (.opening h)
      · exact .inr ⟨'$' :: '{' :: front, back, rfl, rfl, .opening h, hregion⟩

end Nesting

namespace Scanner

def sight (s : Scanner) : Sight :=
  ⟨s.position, s.here?, s.nesting⟩

/-- A visitor that goes on at every character and lists what it can tell of them. -/
def sighting : Visitor (List Sight) Empty :=
  .observing fun s seen => seen ++ [s.sight]

/-- The scanner stands on the two marks that open an interpolation. -/
def OnOpening (s : Scanner) : Prop :=
  s.nesting.region = .template false ∧ s.here? = some '$' ∧ s.next? = some '{'

section Parts

variable {σ ε : Type} {visit : Visitor σ ε} {s t u : Scanner} {memory m k : σ}

/-- Where a scan comes to is its first place, or where it comes to behind its first round. -/
private theorem ComesTo.cases_of_step
    (step : ∀ rounds, s.scanFor visit (rounds + 1) memory = t.scanFor visit rounds m)
    (h : ComesTo visit s memory u k) : (u = s ∧ k = memory) ∨ ComesTo visit t m u k := by
  obtain ⟨rounds, h⟩ := h
  cases rounds with
  | zero =>
      cases h
      exact .inl ⟨rfl, rfl⟩
  | succ rounds =>
      rw [step] at h
      exact .inr ⟨rounds, h⟩

private theorem byteLength_further {front other : Text} {bytes : Nat}
    (h : front.byteLength = other.byteLength + bytes) (mark : Text) :
    Text.byteLength (front ++ mark) = Text.byteLength (other ++ mark) + bytes := by
  rw [Text.byteLength_append, Text.byteLength_append, h]
  omega

private theorem exists_part_here (n : Nesting) (front t other : Text) (before : List Sight)
    (bytes : Nat) : ∃ mid rest, t = mid ++ rest ∧
      between front t n = between (front ++ mid) rest (n.after mid) ∧
        before = before ++ (n.shown other mid).map fun v => v.sight.shift bytes :=
  ⟨[], t, rfl, by rw [List.append_nil]; rfl, (List.append_nil _).symm⟩

/-- Up to a place that it comes to, a scan sees what a scan of the part up to there sees, whatever
lies in front of the part. -/
theorem ComesTo.exists_part {n : Nesting} {front t : Text} {before seen : List Sight}
    (h : ComesTo sighting (between front t n) before s seen) (other : Text) {bytes : Nat}
    (hfront : front.byteLength = other.byteLength + bytes) :
    ∃ mid rest, t = mid ++ rest ∧ s = between (front ++ mid) rest (n.after mid) ∧
      seen = before ++ (n.shown other mid).map fun v => v.sight.shift bytes := by
  induction n, t using Nesting.passage_induction generalizing front before other with
  | nil n =>
      obtain ⟨rounds, h⟩ := h
      cases rounds with
      | succ rounds => cases h
      | zero =>
          cases h
          exact exists_part_here n front [] other _ bytes
  | visit n c t within hr ih =>
      rcases h.cases_of_step (fun _ => scanFor_next hr rfl) with ⟨rfl, rfl⟩ | h
      · exact exists_part_here n front (c :: t) other _ bytes
      · obtain ⟨mid, rest, rfl, rfl, rfl⟩ := ih h _ (byteLength_further hfront [c])
        refine ⟨c :: mid, rest, rfl, ?_, ?_⟩
        · rw [Nesting.after_visit hr.visit_in_front, List.append_assoc]
          rfl
        · rw [Nesting.shown_visit hr.visit_in_front, List.map_cons, List.append_assoc]
          have hsight : (between front (c :: (mid ++ rest)) within).sight =
              (between other (c :: mid) within).sight.shift bytes := by
            simp [sight, Sight.shift, hfront]
          rw [hsight]
          rfl
  | skip n c t next hr ih =>
      rcases h.cases_of_step (fun _ => scanFor_skip hr) with ⟨rfl, rfl⟩ | h
      · exact exists_part_here n front (c :: t) other _ bytes
      · obtain ⟨mid, rest, rfl, rfl, rfl⟩ := ih h _ (byteLength_further hfront [c])
        refine ⟨c :: mid, rest, rfl, ?_, ?_⟩
        · rw [Nesting.after_skip hr.skip_in_front, List.append_assoc]
          rfl
        · rw [Nesting.shown_skip hr.skip_in_front]
  | opening d ops t ih =>
      rcases h.cases_of_step (fun _ => scanFor_opening) with ⟨rfl, rfl⟩ | h
      · exact exists_part_here _ front _ other _ bytes
      · obtain ⟨mid, rest, rfl, rfl, rfl⟩ := ih h _ (byteLength_further hfront ['$', '{'])
        refine ⟨'$' :: '{' :: mid, rest, rfl, ?_, ?_⟩
        · rw [Nesting.after_opening, List.append_assoc]
          rfl
        · rw [Nesting.shown_opening]

/-- A scan comes to every boundary but those between the two marks of an opening. -/
theorem reaches_boundary_iff {n : Nesting} {front mid rest : Text} :
    (∃ s, (between front (mid ++ rest) n).Reaches s ∧
        s.position = Text.byteLength (front ++ mid)) ↔
      ¬ ∃ s, (between front (mid ++ rest) n).Reaches s ∧ s.OnOpening ∧
        s.position + 1 = Text.byteLength (front ++ mid) := by
  constructor
  · rintro ⟨s, hs, hplace⟩ ⟨t, ht, ⟨hregion, hhere, hnext⟩, hone⟩
    obtain ⟨seen, behind, hsplit, hcut, rfl⟩ := exists_cut_of_reaches ht
    rw [hsplit] at hs
    rw [position_between] at hone
    rcases reaches_across hcut hs with hlt | hs
    · omega
    · obtain ⟨back, rfl⟩ := List.head?_eq_some_iff.mp hhere
      obtain ⟨back, rfl⟩ := List.head?_eq_some_iff.mp hnext
      rw [nesting_between] at hregion
      generalize n.after seen = inner at hregion hs
      obtain ⟨region, d, ops⟩ := inner
      cases hregion
      rcases reaches_opening.mp hs with rfl | hs
      · rw [position_between] at hplace
        omega
      · have hle := byteLength_le_position hs
        have hmarks : Text.byteLength ['$', '{'] = 2 := rfl
        rw [Text.byteLength_append, hmarks] at hle
        omega
  · intro h
    rcases Nesting.cut_or_opening n mid rest with hcut | ⟨seen, back, rfl, rfl, hcut, hregion⟩
    · exact ⟨_, reaches_cut hcut front, position_between⟩
    · have hmark : Text.byteLength ['$'] = 1 := rfl
      refine absurd ⟨between (front ++ seen) ('$' :: '{' :: back) (n.after seen), ?_, ?_, ?_⟩ h
      · rw [List.append_assoc]
        exact reaches_cut hcut front
      · exact ⟨hregion, rfl, rfl⟩
      · rw [position_between, ← List.append_assoc, Text.byteLength_append (front ++ seen), hmark]

theorem exists_comesTo_sighting_iff :
    (∃ seen, ComesTo sighting s [] t seen) ↔ s.Reaches t :=
  exists_comesTo_iff (fun _ _ _ => ⟨rfl, nofun⟩) fun _ _ _ => rfl

theorem scan_sighting (part : Text) :
    (Scanner.start part).scan sighting [] = .atEnd (between part [] (Nesting.outermost.after part))
      ((Nesting.outermost.shown [] part).map sight) := by
  rw [sighting, scan_start (Visitor.quiet_observing _), Visitor.watch_listing, List.nil_append]

end Parts

/-- From a boundary of a text to a place that a scan comes to, the scan sees what a scan of the part
between them sees, only further on, and it leaves the part in the state in which that scan ends; it
comes to every boundary but those between the two marks of an opening. What a reference comes to at
a boundary is what it comes to at the beginning of what the text holds from there on. -/
theorem scan_local (source : Text) (place : Nat) (boundary : source.IsBoundary place) :
    (∀ s seen, ComesTo sighting (startAt source place) [] s seen →
      ∃ part finish shown, source.slice? place s.position = some part ∧
        (start part).scan sighting [] = .atEnd finish shown ∧
        seen = shown.map (·.shift place) ∧ s.position = finish.position + place ∧
        s.nesting = finish.nesting ∧ s.pending = finish.pending) ∧
    (∀ stop, source.Spans place stop →
      ((∃ s seen, ComesTo sighting (startAt source place) [] s seen ∧ s.position = stop) ↔
        ¬ ∃ s seen, ComesTo sighting (startAt source place) [] s seen ∧ s.OnOpening ∧
          s.position + 1 = stop)) ∧
    (∀ kind, ∃ rest, source.rest? place = some rest ∧
      Reference.read kind source place =
        Reference.shifted place (Reference.read kind rest 0)) := by
  obtain ⟨front, t, rfl, rfl⟩ := boundary
  rw [startAt_between]
  refine ⟨?_, ?_, ?_⟩
  · intro s seen h
    obtain ⟨part, rest, rfl, rfl, rfl⟩ := h.exists_part [] (Nat.zero_add _).symm
    refine ⟨part, _, _, ?_, scan_sighting part, ?_, ?_, rfl, rfl⟩
    · rw [position_between, Text.byteLength_append]
      exact Text.slice?_append front part rest
    · rw [List.nil_append, List.map_map]
      rfl
    · rw [position_between, position_between, Text.byteLength_append, Nat.add_comm]
  · intro stop hspans
    obtain ⟨mid, hmid⟩ := Option.isSome_iff_exists.mp (Text.isSome_slice?_iff.mpr hspans)
    obtain ⟨other, rest, hsplit, hlen, rfl⟩ := Text.slice?_eq_some_iff.mp hmid
    obtain ⟨rfl, rfl⟩ := Text.append_inj hsplit hlen.symm
    have hplaces := @reaches_boundary_iff .outermost front mid rest
    simp only [← exists_comesTo_sighting_iff] at hplaces
    simpa using hplaces
  · intro kind
    refine ⟨t, Text.rest?_append front t, ?_⟩
    rw [Reference.read_eq, Reference.read_start]

/-- From behind a character of two bytes, a scan sees in a template literal what it sees without the
character, and passes by the boundary between the marks of the opening. -/
theorem scan_local_interpolation :
    let source : Text := "é\x60$$\x7bb\x7d\x60c".toList
    source.IsBoundary 2 ∧ (∃ part finish shown, source.slice? 2 7 = some part ∧
      (start part).scan sighting [] = .atEnd finish shown ∧
      shown.map (·.shift 2) =
        [⟨3, some '$', ⟨.template false, 0, []⟩⟩, ⟨6, some 'b', ⟨.code, 1, [0]⟩⟩] ∧
      finish.position = 5 ∧ finish.nesting = ⟨.code, 1, [0]⟩) ∧
    source.Spans 2 5 ∧
    ¬ ∃ s seen, ComesTo sighting (startAt source 2) [] s seen ∧ s.position = 5 := by
  intro source
  have boundary : source.IsBoundary 2 := ⟨['é'], _, rfl, rfl⟩
  have hspans : source.Spans 2 5 := Text.isSome_slice?_iff.mp (by decide)
  obtain ⟨places, stops, -⟩ := scan_local source 2 boundary
  refine ⟨boundary, ?_, hspans, ?_⟩
  · obtain ⟨part, finish, shown, hpart, hscan, hshown, hplace, hnesting, -⟩ :=
      places (between "é\x60$$\x7bb".toList "\x7d\x60c".toList ⟨.code, 1, [0]⟩) _ ⟨4, rfl⟩
    refine ⟨part, finish, shown, hpart, hscan, hshown.symm, ?_, hnesting.symm⟩
    exact Nat.add_right_cancel hplace.symm
  · refine fun comes => (stops 5 hspans).mp comes ?_
    exact ⟨between "é\x60$".toList "$\x7bb\x7d\x60c".toList ⟨.template false, 0, []⟩, _,
      ⟨2, rfl⟩, ⟨rfl, rfl, rfl⟩, rfl⟩

end Scanner

end BindingCompiler
