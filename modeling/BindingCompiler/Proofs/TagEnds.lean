import BindingCompiler.Proofs.Progress
import BindingCompiler.Proofs.Tags
import BindingCompiler.Proofs.Windows

/-!
Where the search for the end of a tag ends. At every character that it is shown the search has
counted the open braces of the nesting there, less its open interpolations, and the brace of the
tag. So the one brace that brings the count to nothing is the one behind a balanced text, and the
search comes to the end of the template where there is no such brace.
-/

namespace BindingCompiler

namespace TemplateText

open Nesting

/-- The place holds a closing brace of code that stands in no interpolation, and what a tag holds
up to there is balanced. -/
structure TagBrace (template : Text) (start place : Nat) : Prop where
  met : ∃ s, (Scanner.startAt template start).Reaches s ∧ s.position = place ∧ s.inCode ∧
    s.here? = some '}' ∧ s.nesting.openings = []
  balanced : ∃ body, template.slice? start place = some body ∧ body.Balanced

/-- Another closing brace stands right behind the one at the place. -/
def Doubled (template : Text) (place : Nat) : Prop :=
  (template.onward (place + 1)).head? = some '}'

instance (template : Text) (place : Nat) : Decidable (Doubled template place) :=
  inferInstanceAs (Decidable (_ = _))

section Braces

variable {front body rest t : Text} {place : Nat}

theorem tagBrace_iff :
    TagBrace (front ++ t) front.byteLength place ↔
      ∃ body rest, t = body ++ '}' :: rest ∧ Text.Balanced body ∧
        place = Text.byteLength (front ++ body) := by
  constructor
  · rintro ⟨⟨s, hs, rfl, -, hhere, -⟩, body, hbody, hbalanced⟩
    rw [Scanner.startAt_between] at hs
    obtain ⟨mid, behind, rfl, -, rfl⟩ := Scanner.exists_cut_of_reaches hs
    obtain ⟨rest, rfl⟩ := List.head?_eq_some_iff.mp hhere
    rw [Scanner.position_between, Text.byteLength_append, Text.slice?_append] at hbody
    cases hbody
    exact ⟨_, rest, rfl, hbalanced, rfl⟩
  · rintro ⟨body, rest, rfl, hbalanced, rfl⟩
    have hafter : outermost.after body = outermost :=
      after_of_pass? ((Text.balanced_iff body).mp hbalanced)
    have hcut : Cut outermost body ('}' :: rest) := cut_of_code (by rw [hafter]; rfl)
    have hreaches := Scanner.reaches_cut hcut front
    rw [hafter, ← Scanner.startAt_between] at hreaches
    refine ⟨⟨_, hreaches, rfl, rfl, rfl, rfl⟩, body, ?_, hbalanced⟩
    rw [Text.byteLength_append]
    exact Text.slice?_append front body ('}' :: rest)

theorem position_scan_visitTag (front rest : Text) (h : body.Balanced) :
    ((Scanner.between front (body ++ '}' :: rest) outermost).scan visitTag 1).scanner.position =
      Text.byteLength (front ++ body) := by
  rw [scan_visitTag_brace front rest h]
  split <;> rfl

/-- No other brace ends the tag than the first one behind a balanced text. -/
theorem tagBrace_iff_eq (h : body.Balanced) :
    TagBrace (front ++ (body ++ '}' :: rest)) front.byteLength place ↔
      place = Text.byteLength (front ++ body) := by
  rw [tagBrace_iff]
  constructor
  · rintro ⟨other, behind, hsplit, hother, rfl⟩
    rw [← position_scan_visitTag front behind hother, ← hsplit, position_scan_visitTag front rest h]
  · rintro rfl
    exact ⟨body, rest, rfl, h, rfl⟩

theorem not_tagBrace (h : ∀ body rest, t = body ++ '}' :: rest → ¬ Text.Balanced body) :
    ¬ TagBrace (front ++ t) front.byteLength place := by
  rw [tagBrace_iff]
  rintro ⟨body, rest, ht, hbody, -⟩
  exact h body rest ht hbody

theorem doubled_append :
    Doubled (front ++ (body ++ '}' :: rest)) (Text.byteLength (front ++ body)) ↔
      rest.head? = some '}' := by
  have hsplit : front ++ (body ++ '}' :: rest) = front ++ body ++ ['}'] ++ rest := by
    simp only [List.append_assoc, List.cons_append, List.nil_append]
  have hplace : Text.byteLength (front ++ body) + 1 = Text.byteLength (front ++ body ++ ['}']) :=
    (Text.byteLength_append (front ++ body) ['}']).symm
  rw [Doubled, hplace, hsplit, Text.onward_append]
  rfl

end Braces

section Counts

variable {n : Nesting} {front t : Text} {shown : Scanner} {count : Nat}

/-- At every character that it is shown, the search has counted the braces that were open in front
of the character. -/
theorem exists_of_shows_visitTag (hn : n.WellFormed)
    (h : Scanner.Shows visitTag (.between front t n) n.openBraces shown count) :
    ∃ m before c rest within, WellFormed m ∧ Reads m c (List.head? rest) (.visit within) ∧
      shown = .between before (c :: rest) within ∧ count = m.openBraces := by
  induction n, t using passage_induction generalizing front with
  | nil n => exact absurd h Scanner.not_shows_nil
  | visit n c t within hr ih =>
      by_cases hu : n.Unmatched c
      · have hhalt : (visitTag (.between front (c :: t) within) n.openBraces).verdict ≠ .next := by
          rw [visitTag_unmatched front t hr hn hu]
          split <;> nofun
        obtain ⟨rfl, rfl⟩ := Scanner.eq_of_shows hr hhalt h
        exact ⟨n, front, c, t, within, hn, hr, rfl, rfl⟩
      · rcases (Scanner.shows_visit_iff hr (visitTag_matched front t hr hn hu)).mp h with
          ⟨rfl, rfl⟩ | h
        · exact ⟨n, front, c, t, within, hn, hr, rfl, rfl⟩
        · exact ih (hr.wellFormed_visit hn) h
  | skip n c t next hr ih =>
      rw [Scanner.shows_skip_iff hr, ← hr.openBraces_skip hn] at h
      exact ih (hr.wellFormed_skip hn) h
  | opening d ops t ih =>
      rw [Scanner.shows_opening_iff, ← openBraces_opening hn] at h
      exact ih (Reads.openInterpolation.wellFormed_skip hn) h

/-- When the search goes on, it has counted the open braces of the character, less the open
interpolations, and the brace of the tag. -/
theorem count_of_next (h : Scanner.Shows visitTag (.between front t outermost) 1 shown count)
    (hnext : (visitTag shown count).verdict = .next) :
    (visitTag shown count).memory + shown.nesting.openings.length = 1 + shown.nesting.depth := by
  obtain ⟨m, before, c, rest, within, hm, hr, rfl, rfl⟩ :=
    exists_of_shows_visitTag wellFormed_outermost h
  have hu : ¬ m.Unmatched c := by
    intro hu
    rw [visitTag_unmatched before rest hr hm hu] at hnext
    split at hnext <;> cases hnext
  have hle : within.openings.length ≤ within.depth :=
    length_openings_le (hr.wellFormed_visit hm)
  rw [visitTag_matched before rest hr hm hu, Scanner.nesting_between]
  simp only [Reaction.next, openBraces]
  omega

/-- A closing brace of code that the search is shown is never one too many, and only one that stands
in no interpolation is the last that is open. -/
theorem count_of_closing (h : Scanner.Shows visitTag (.between front t outermost) 1 shown count)
    (hcode : shown.inCode = true) (hhere : shown.here? = some '}') :
    count ≠ 0 ∧ (count = 1 → shown.nesting = outermost) := by
  obtain ⟨m, before, c, rest, within, hm, hr, rfl, rfl⟩ :=
    exists_of_shows_visitTag wellFormed_outermost h
  have hc : c = '}' := Option.some.inj hhere
  have hlater : within.openings.length ≤ within.depth :=
    length_openings_le (hr.wellFormed_visit hm)
  generalize rest.head? = next at hr
  cases hr with
  | @closeBrace d ops _ _ =>
      dsimp only [settled] at hlater
      by_cases hd : d = 0
      · subst hd
        cases List.length_eq_zero_iff.mp (Nat.le_zero.mp hlater)
        exact ⟨nofun, fun _ => rfl⟩
      · simp only [openBraces]
        omega
  | openBrace => exact absurd hc (by decide)
  | plain hplain => exact absurd hc hplain.2.2.2.1
  | quoted | escapedQuoted | template | escapedTemplate => cases hcode

end Counts

section Exits

variable {template : Text} {start place : Nat} {failure : Failure}

/-- A tag has a single brace, and the search leaves the template there, or it has none, and the
search comes to the end of the template. -/
theorem brace_or_atEnd (boundary : template.IsBoundary start) :
    (∃ s, (∀ place, TagBrace template start place ↔ place = s.position) ∧
      (Scanner.startAt template start).scan visitTag 1 =
        if Doubled template s.position then .stopped s 0
        else .failed s 0 (.found .unterminatedTag (s.position + 1))) ∨
    (∀ place, ¬ TagBrace template start place) ∧
      ∃ s count, (Scanner.startAt template start).scan visitTag 1 = .atEnd s count := by
  obtain ⟨front, t, rfl, rfl⟩ := boundary
  rw [Scanner.startAt_between]
  rcases brace_or_open t with ⟨body, rest, rfl, hbody⟩ | hopen
  · refine .inl ⟨.between (front ++ body) ('}' :: rest) outermost, ?_, ?_⟩
    · exact fun _ => tagBrace_iff_eq hbody
    · rw [scan_visitTag_brace front rest hbody, Scanner.position_between]
      simp only [doubled_append]
  · exact .inr ⟨fun _ => not_tagBrace hopen, scan_visitTag_open front hopen⟩

theorem tagBrace_unique (boundary : template.IsBoundary start) {other : Nat}
    (h : TagBrace template start place) (h' : TagBrace template start other) : place = other := by
  rcases brace_or_atEnd boundary with ⟨s, hbrace, -⟩ | ⟨hnone, -⟩
  · rw [(hbrace place).mp h, (hbrace other).mp h']
  · exact absurd h (hnone place)

theorem tagEnd_eq_ok_iff (boundary : template.IsBoundary start) :
    tagEnd template start = .ok place ↔ TagBrace template start place ∧ Doubled template place := by
  rcases brace_or_atEnd boundary with ⟨s, hbrace, hscan⟩ | ⟨hnone, s, count, hscan⟩
  · rw [hbrace]
    by_cases hnext : Doubled template s.position
    · rw [if_pos hnext] at hscan
      simp only [tagEnd, hscan, Except.ok.injEq]
      exact ⟨fun h => ⟨h.symm, h ▸ hnext⟩, fun h => h.1.symm⟩
    · rw [if_neg hnext] at hscan
      simp only [tagEnd, hscan, reduceCtorEq, false_iff]
      exact fun h => hnext (h.1 ▸ h.2)
  · simp only [tagEnd, hscan, reduceCtorEq, false_iff]
    exact fun h => hnone place h.1

theorem failed_iff (boundary : template.IsBoundary start) :
    (∃ s count, (Scanner.startAt template start).scan visitTag 1 = .failed s count failure) ↔
      ∃ place, TagBrace template start place ∧ ¬ Doubled template place ∧
        failure = .found .unterminatedTag (place + 1) := by
  rcases brace_or_atEnd boundary with ⟨s, hbrace, hscan⟩ | ⟨hnone, s, count, hscan⟩
  · simp only [hbrace, exists_eq_left, hscan]
    by_cases hnext : Doubled template s.position
    · rw [if_pos hnext]
      exact ⟨nofun, fun h => absurd hnext h.1⟩
    · rw [if_neg hnext]
      simp [hnext, eq_comm]
  · simp only [hscan]
    exact ⟨nofun, fun ⟨place, h, _⟩ => absurd h (hnone place)⟩

theorem atEnd_iff (boundary : template.IsBoundary start) :
    (∃ s count, (Scanner.startAt template start).scan visitTag 1 = .atEnd s count) ↔
      ¬ ∃ place, TagBrace template start place := by
  rcases brace_or_atEnd boundary with ⟨s, hbrace, hscan⟩ | ⟨hnone, s, count, hscan⟩
  · refine iff_of_false ?_ fun hnone => hnone ⟨s.position, (hbrace _).mpr rfl⟩
    rw [hscan]
    split <;> nofun
  · exact iff_of_true ⟨s, count, hscan⟩ fun ⟨place, h⟩ => hnone place h

theorem tagEnd_eq_error_iff (boundary : template.IsBoundary start) :
    tagEnd template start = .error failure ↔
      (∃ place, TagBrace template start place ∧ ¬ Doubled template place ∧
        failure = .found .unterminatedTag (place + 1)) ∨
      (¬ ∃ place, TagBrace template start place) ∧
        failure = .found .unterminatedTag template.byteLength := by
  rw [← failed_iff boundary, ← atEnd_iff boundary, tagEnd]
  rcases brace_or_atEnd boundary with ⟨s, hbrace, hscan⟩ | ⟨hnone, s, count, hscan⟩
  · rw [hscan]
    by_cases hnext : Doubled template s.position
    · rw [if_pos hnext]
      simp
    · rw [if_neg hnext]
      simp
  · rw [hscan]
    simp [eq_comm]

end Exits

/-- The search for the end of a tag is exact. Whenever it goes on it has counted the open braces,
less the open interpolations, and the brace of the tag; no closing brace is one too many, and the
last that is open stands in no interpolation. The tag ends at the one closing brace behind a
balanced text, if another brace stands right behind that one. If none does, the search fails behind
the brace, and if there is no such brace, it comes to the end of the template and fails there; the
two places are the same when the brace is the last character of the template. -/
theorem tagEnd_exact (template : Text) (start : Nat) (boundary : template.IsBoundary start) :
    (∀ shown count, (Scanner.startAt template start).Shows visitTag 1 shown count →
      ((visitTag shown count).verdict = .next →
        (visitTag shown count).memory + shown.nesting.openings.length =
          1 + shown.nesting.depth) ∧
      (shown.inCode → shown.here? = some '}' →
        count ≠ 0 ∧ (count = 1 → shown.nesting = outermost))) ∧
    (∀ place other, TagBrace template start place → TagBrace template start other →
      place = other) ∧
    (∀ place, tagEnd template start = .ok place ↔
      TagBrace template start place ∧ Doubled template place) ∧
    (∀ failure,
      (∃ s count, (Scanner.startAt template start).scan visitTag 1 = .failed s count failure) ↔
        ∃ place, TagBrace template start place ∧ ¬ Doubled template place ∧
          failure = .found .unterminatedTag (place + 1)) ∧
    ((∃ s count, (Scanner.startAt template start).scan visitTag 1 = .atEnd s count) ↔
      ¬ ∃ place, TagBrace template start place) ∧
    (∀ failure, tagEnd template start = .error failure ↔
      (∃ place, TagBrace template start place ∧ ¬ Doubled template place ∧
        failure = .found .unterminatedTag (place + 1)) ∨
      (¬ ∃ place, TagBrace template start place) ∧
        failure = .found .unterminatedTag template.byteLength) := by
  refine ⟨?_, fun _ _ => tagBrace_unique boundary, fun _ => tagEnd_eq_ok_iff boundary,
    fun _ => failed_iff boundary, atEnd_iff boundary, fun _ => tagEnd_eq_error_iff boundary⟩
  intro shown count h
  obtain ⟨front, t, rfl, rfl⟩ := boundary
  rw [Scanner.startAt_between] at h
  exact ⟨count_of_next h, count_of_closing h⟩

/-- The braces of an object in an interpolation are counted and do not end the tag. Behind the brace
of a tag that no other brace follows the search fails. -/
theorem tagEnd_exact_interpolation :
    let body : Text := [templateMark, '$', '{', '{', '}', '}', templateMark]
    let template := tagOpening ++ (body ++ '}' :: ['}'])
    let unclosed := tagOpening ++ (['a'] ++ '}' :: [])
    let shown : Scanner :=
      .between ['{', '{', templateMark, '$', '{', '{'] ['}', '}', templateMark, '}', '}']
        ⟨.code, 1, [0]⟩
    (template.IsBoundary 2 ∧ (Scanner.startAt template 2).Shows visitTag 1 shown 2 ∧
      (visitTag shown 2).memory + shown.nesting.openings.length = 1 + shown.nesting.depth ∧
      TagBrace template 2 9 ∧ Doubled template 9 ∧ tagEnd template 2 = .ok 9) ∧
    (unclosed.IsBoundary 2 ∧ TagBrace unclosed 2 3 ∧ ¬ Doubled unclosed 3 ∧
      tagEnd unclosed 2 = .error (.found .unterminatedTag 4)) := by
  intro body template unclosed shown
  constructor
  · have boundary : template.IsBoundary 2 := Text.isBoundary_append tagOpening _
    have hbody : body.Balanced := by decide +kernel
    have hbrace : TagBrace template 2 9 := (tagBrace_iff_eq hbody).mpr rfl
    have hdoubled : Doubled template 9 := doubled_append.mpr rfl
    have hshows : (Scanner.startAt template 2).Shows visitTag 1 shown 2 := by
      have hstart : Scanner.startAt template 2 = .between tagOpening _ outermost :=
        Scanner.startAt_between tagOpening _
      rw [hstart]
      refine (Scanner.shows_skip_iff .openTemplate).mpr (Scanner.shows_opening_iff.mpr ?_)
      refine (Scanner.shows_visit_iff .openBrace rfl).mpr (.inr ?_)
      exact Scanner.shows_between (.closeBrace (by decide))
    obtain ⟨counts, -, ends, -⟩ := tagEnd_exact template 2 boundary
    have hcount := (counts shown 2 hshows).1 rfl
    exact ⟨boundary, hshows, hcount, hbrace, hdoubled, (ends 9).mpr ⟨hbrace, hdoubled⟩⟩
  · have boundary : unclosed.IsBoundary 2 := Text.isBoundary_append tagOpening _
    have hbody : Text.Balanced ['a'] := by decide
    have hbrace : TagBrace unclosed 2 3 := (tagBrace_iff_eq hbody).mpr rfl
    have halone : ¬ Doubled unclosed 3 := by decide
    obtain ⟨-, -, -, -, -, fails⟩ := tagEnd_exact unclosed 2 boundary
    exact ⟨boundary, hbrace, halone, (fails _).mpr (.inl ⟨3, hbrace, halone, rfl⟩)⟩

end TemplateText

end BindingCompiler
