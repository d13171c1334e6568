import BindingCompiler.Proofs.Consistency
import BindingCompiler.Proofs.Progress
import BindingCompiler.Proofs.Requests

/-!
Scans that stop in the middle of a text. The scanner that is left is a place of the scan that goes
on there: at the character, which the next scan shows again, or, once it is moved over the
character, behind it. The first fails on a brace of code, which is counted again, and the second on
an escaped character, whose backslash stays in force.
-/

namespace BindingCompiler

variable {σ ε : Type}

/-- The visitor that goes on where the given one stops, and only looks on from there. It forgets
everything at that place. -/
def Visitor.unstopped (visit : Visitor σ ε) : Visitor (Option σ) ε
  | _, none => .next none
  | shown, some memory =>
      match (visit shown memory).verdict with
      | .stop => .next none
      | verdict =>
          { memory := some (visit shown memory).memory
            verdict
            resume := (visit shown memory).resume }

namespace Nesting

variable {n within : Nesting} {here next : Option Char}

/-- Only a brace of code changes the nesting that it is shown in. -/
theorem eq_of_read_visit (h : n.read here next = .visit within)
    (plain : ¬ (n.region = .code ∧ (here = some '{' ∨ here = some '}'))) : within = n := by
  cases here with
  | none =>
      cases h
      rfl
  | some c =>
      have hr : Reads n c next (.visit within) := h ▸ reads_read n c next
      cases hr with
      | openBrace => exact absurd ⟨rfl, .inl rfl⟩ plain
      | closeBrace => exact absurd ⟨rfl, .inr rfl⟩ plain
      | plain | quoted | escapedQuoted | template | escapedTemplate => rfl

theorem settled_of_not_escaping (h : n.region.isEscaping = false) : n.settled = n := by
  obtain ⟨region, d, ops⟩ := n
  cases region with
  | code => rfl
  | quoted quote escaping =>
      cases h
      rfl
  | template escaping =>
      cases h
      rfl

theorem region_of_read_visit (h : n.read here next = .visit within) :
    within.region = n.region := by
  cases here with
  | none =>
      cases h
      rfl
  | some c =>
      have hr : Reads n c next (.visit within) := h ▸ reads_read n c next
      exact hr.region_visit

end Nesting

namespace Scanner

variable {visit : Visitor σ ε} {s t shown finish : Scanner} {memory m : σ} {rest seen : List Scanner}
  {within after : Nesting} {width : Nat}

theorem width_pos (s : Scanner) : 0 < s.width := by
  rw [Scanner.width]
  cases s.here? with
  | none => exact Nat.one_pos
  | some c => exact c.utf8Size_pos

/-- To step over a character that is not escaped is to leave it behind. -/
theorem proceed_eq_advance (idle : s.pending = none) (more : s.atEnd = false)
    (plain : s.nesting.region.isEscaping = false) : s.proceed = s.advance := by
  have hsettled := Nesting.settled_of_not_escaping plain
  rw [advance, if_neg (by simp [more]), proceed]
  simp only [idle, hsettled]
  exact eq_of_place rfl rfl rfl idle.symm

theorem lt_position_proceed (idle : s.pending = none) : s.position < s.proceed.position := by
  have hplace := position_proceed_asked idle none
  have hwidth := s.width_pos
  simp only [Option.elim_none] at hplace
  omega

theorem skip_pos (hread : s.nesting.read s.here? s.next? = .skip width after) : 0 < width := by
  obtain ⟨c, -, hr⟩ := Nesting.exists_reads_of_read_skip hread
  rcases hr.skip_cases with rfl | ⟨rfl, -⟩
  · exact Nat.one_pos
  · exact Nat.two_pos

/-- A scan that no visitor sends elsewhere shows these scanners in turn and ends at the last place,
if it is allowed a round for each byte ahead and one more. -/
def Tours (s : Scanner) (shown : List Scanner) (finish : Scanner) : Prop :=
  ∀ ⦃σ ε : Type⦄ (visit : Visitor σ ε) (memory : σ) (rounds : Nat), visit.Quiet →
    s.source.byteLength < s.position + rounds →
      s.scanFor visit rounds memory = visit.watch finish shown memory

/-- A scan that is given the rounds that every scan is given shows these scanners in turn to a
visitor that sends it nowhere else, and ends at the last place. -/
def Visits (s : Scanner) (shown : List Scanner) (finish : Scanner) : Prop :=
  ∀ ⦃σ ε : Type⦄ (visit : Visitor σ ε) (memory : σ), visit.Quiet →
    s.scan visit memory = visit.watch finish shown memory

theorem Tours.visits (h : s.Tours seen finish) : s.Visits seen finish := by
  intro σ ε visit memory quiet
  exact h visit memory _ quiet (by omega)

theorem tours_end (inside : s.position ≤ s.source.byteLength) (ended : s.atEnd = true) :
    s.Tours [] s := by
  intro σ ε visit memory rounds quiet hrounds
  cases rounds with
  | zero => omega
  | succ rounds =>
      rw [scanFor, if_pos ended]
      rfl

theorem tours_skip (more : s.atEnd = false)
    (hread : s.nesting.read s.here? s.next? = .skip width after)
    (h : ({ s with nesting := after }.skip width).Tours seen finish) : s.Tours seen finish := by
  intro σ ε visit memory rounds quiet hrounds
  have hlt := position_lt more
  have hwidth := skip_pos hread
  cases rounds with
  | zero => omega
  | succ rounds =>
      rw [scanFor_of_skip more hread]
      refine h visit memory rounds quiet ?_
      change s.source.byteLength < s.position + width + rounds
      omega

theorem tours_visit (idle : s.pending = none) (more : s.atEnd = false)
    (hread : s.nesting.read s.here? s.next? = .visit within)
    (h : ({ s with nesting := within } : Scanner).proceed.Tours rest finish) :
    s.Tours ({ s with nesting := within } :: rest) finish := by
  intro σ ε visit memory rounds quiet hrounds
  have hlt := position_lt more
  have hbehind := lt_position_proceed (s := { s with nesting := within }) idle
  cases rounds with
  | zero => omega
  | succ rounds =>
      rw [scanFor_of_visit more hread, Visitor.watch]
      simp only [quiet _ _, Option.elim_none]
      cases (visit { s with nesting := within } memory).verdict with
      | next =>
          refine h visit _ rounds quiet ?_
          rw [source_proceed]
          dsimp only at hbehind ⊢
          omega
      | stop => simp only [idle]
      | fail error => rfl

/-- From every place that is in order a scan has a tour to the end, by induction on the bytes
ahead. -/
theorem exists_tours (consistent : s.Consistent) (idle : s.pending = none) :
    ∃ shown finish, s.Tours shown finish := by
  induction h : s.source.byteLength - s.position using Nat.strongRecOn generalizing s with
  | ind left ih =>
      cases more : s.atEnd with
      | true => exact ⟨[], s, tours_end consistent.inside more⟩
      | false =>
          have hlt := position_lt more
          cases hread : s.nesting.read s.here? s.next? with
          | skip width after =>
              have hwidth := skip_pos hread
              obtain ⟨c, -, hr⟩ := Nesting.exists_reads_of_read_skip hread
              have hbehind : ({ s with nesting := after }.skip width).Consistent :=
                consistent.skip (position_add_skip_le more hread)
                  (hr.wellFormed_skip consistent.wellFormed)
              have hless : s.source.byteLength - (s.position + width) < left := by omega
              obtain ⟨shown, finish, htours⟩ := ih _ hless hbehind idle rfl
              exact ⟨shown, finish, tours_skip more hread htours⟩
          | visit within =>
              have hbehind := lt_position_proceed (s := { s with nesting := within }) idle
              dsimp only at hbehind
              have hless : s.source.byteLength -
                  ({ s with nesting := within } : Scanner).proceed.position < left := by omega
              obtain ⟨rest, finish, htours⟩ :=
                ih _ hless ((consistent.shown hread).proceed more) (pending_proceed _)
                  (by rw [source_proceed])
              exact ⟨_, finish, tours_visit idle more hread htours⟩

/-- What the scan of a visitor shows on the way to a place is the beginning of what the unstopped
visitor is shown, and of a tour if no jump is asked for. -/
theorem ComesTo.exists_seen (h : ComesTo visit s memory t m) (idle : s.pending = none)
    (front : List Scanner) :
    ∃ seen, ComesTo visit.noting s (memory, front) t (m, front ++ seen) ∧
      ComesTo visit.unstopped.noting s (some memory, front) t (some m, front ++ seen) ∧
      (s.AsksNothing visit memory → ∀ {rest finish}, t.Tours rest finish →
        s.Tours (seen ++ rest) finish) := by
  obtain ⟨rounds, h⟩ := h
  induction rounds generalizing s memory front with
  | zero =>
      cases h
      refine ⟨[], ?_, ?_, fun _ _ _ htours => htours⟩
      · rw [List.append_nil]
        exact .refl ..
      · rw [List.append_nil]
        exact .refl ..
  | succ rounds ih =>
      cases more : s.atEnd with
      | true =>
          rw [scanFor, if_pos more] at h
          cases h
      | false =>
          cases hread : s.nesting.read s.here? s.next? with
          | skip width after =>
              rw [scanFor_of_skip more hread] at h
              have first {τ : Type} (visit : Visitor τ ε) (memory : τ) :
                  ComesTo visit s memory ({ s with nesting := after }.skip width) memory :=
                ⟨1, scanFor_of_skip more hread⟩
              have hidle : ({ s with nesting := after }.skip width).pending = none := idle
              obtain ⟨seen, hnoting, hunstopped, htours⟩ := ih hidle front h
              refine ⟨seen, (first _ _).trans hnoting, (first _ _).trans hunstopped, ?_⟩
              intro asks rest finish hrest
              exact tours_skip more hread (htours (asks.behind (first _ _)) hrest)
          | visit within =>
              rw [scanFor_of_visit more hread] at h
              cases hverdict : (visit { s with nesting := within } memory).verdict with
              | stop | fail error =>
                  simp only [hverdict] at h
                  cases h
              | next =>
                  simp only [hverdict] at h
                  obtain ⟨seen, hnoting, hunstopped, htours⟩ := ih (pending_proceed _)
                    (front ++ [{ s with nesting := within }]) h
                  rw [List.append_assoc] at hnoting hunstopped
                  refine ⟨{ s with nesting := within } :: seen, .trans ⟨1, ?_⟩ hnoting,
                    .trans ⟨1, ?_⟩ hunstopped, ?_⟩
                  · rw [scanFor_of_visit more hread]
                    simp only [Visitor.noting, hverdict, scanFor]
                  · rw [scanFor_of_visit more hread]
                    simp only [Visitor.noting, Visitor.unstopped, hverdict, scanFor]
                  · intro asks rest finish hrest
                    have first := comesTo_next more hread hverdict
                    have hresume := asks _ _ (shows_here more hread)
                    rw [hresume, Option.elim_none] at first htours
                    rw [List.cons_append]
                    exact tours_visit idle more hread (htours (asks.behind first) hrest)

/-- Once it has stopped, the unstopped visitor notes the rest of the tour. -/
theorem Tours.scanFor_unstopped (h : s.Tours rest finish) (visit : Visitor σ ε)
    (seen : List Scanner) :
    s.scanFor visit.unstopped.noting (s.source.byteLength + 1) (none, seen) =
      .atEnd finish (none, seen ++ rest) := by
  have hlisting := h (.observing fun s seen => seen ++ [s] : Visitor (List Scanner) ε) seen
    (s.source.byteLength + 1) (Visitor.quiet_observing _) (by omega)
  rw [Visitor.watch_listing fun s => s, List.map_id'] at hlisting
  exact scanFor_copy (fun seen => (none, seen)) (fun _ _ => rfl) _ s seen hlisting

/-- The scanner stands on a brace of code. -/
def OnBrace (s : Scanner) : Prop :=
  s.inCode = true ∧ (s.here? = some '{' ∨ s.here? = some '}')

/-- When a visitor stops a scan at a character and has asked for nothing there, the scan that goes
on instead shows the same characters up to that one, and then those that a scan from the scanner
that was left shows: from the character on, if it is not a brace of code, and from behind it, if it
is not escaped and the scanner is moved over it. -/
theorem stopping_is_transparent (visit : Visitor σ ε) (source : Text) (position : Nat) (memory : σ)
    (shows : (startAt source position).Shows visit memory shown m)
    (stops : (visit shown m).verdict = .stop) (asks : (visit shown m).resume = none) :
    ∃ (seen rest : List Scanner) (finish : Scanner),
      (∃ rounds, (startAt source position).scanFor visit.noting rounds (memory, []) =
        .stopped shown ((visit shown m).memory, seen ++ [shown])) ∧
      (∃ rounds, (startAt source position).scanFor visit.unstopped.noting rounds (some memory, []) =
        .atEnd finish (none, seen ++ shown :: rest)) ∧
      ((startAt source position).AsksNothing visit memory →
        (startAt source position).Visits (seen ++ shown :: rest) finish) ∧
      (¬ shown.OnBrace → shown.Visits (shown :: rest) finish) ∧
      (shown.nesting.region.isEscaping = false → shown.advance.Visits rest finish) := by
  obtain ⟨t, within, hcomes, more, hread, rfl⟩ := shows
  have hidle : t.pending = none := hcomes.idle rfl
  have consistent : t.Consistent := by
    obtain ⟨rounds, hrounds⟩ := hcomes
    have hscanned := (Consistent.startAt source position).scanFor visit rounds memory
    rwa [hrounds] at hscanned
  obtain ⟨rest, finish, hbehind⟩ :=
    exists_tours ((consistent.shown hread).proceed more) (pending_proceed _)
  have hhere := tours_visit hidle more hread hbehind
  obtain ⟨seen, ⟨first, hnoting⟩, ⟨first', hunstopped⟩, htours⟩ := hcomes.exists_seen rfl []
  refine ⟨seen, rest, finish, ⟨first + 1, ?_⟩, ?_, ?_, ?_, ?_⟩
  · rw [scanFor_add, hnoting]
    dsimp only
    rw [scanFor_of_visit more hread]
    simp only [Visitor.noting, stops, asks, Option.elim_none, List.nil_append]
    simp only [hidle]
  · refine ⟨first' + (t.source.byteLength + 2), ?_⟩
    rw [scanFor_add, hunstopped]
    dsimp only
    rw [scanFor_of_visit more hread]
    simp only [Visitor.noting, Visitor.unstopped, stops, Reaction.next, Option.elim_none,
      List.nil_append]
    have hrest := hbehind.scanFor_unstopped visit (seen ++ [{ t with nesting := within }])
    rw [source_proceed, List.append_assoc] at hrest
    exact hrest
  · exact fun asksNothing => (htours asksNothing hhere).visits
  · intro plain
    have hnesting : within = t.nesting := by
      apply Nesting.eq_of_read_visit hread
      rintro ⟨hcode, hbrace⟩
      refine plain ⟨?_, hbrace⟩
      rw [inCode_eq_true_iff]
      exact (Nesting.region_of_read_visit hread).trans hcode
    cases hnesting
    exact hhere.visits
  · intro plain
    rw [← proceed_eq_advance (s := { t with nesting := within }) hidle more plain]
    exact hbehind.visits

/-- A visitor that stops at one place. -/
def stoppingAt (place : Nat) : Visitor Unit Empty := fun shown memory =>
  if shown.position = place then .stop memory else .next memory

theorem quiet_stoppingAt (place : Nat) : (stoppingAt place).Quiet := by
  intro s memory
  rw [stoppingAt]
  split <;> rfl

/-- A scan stops at a wide character behind a brace, inside an interpolation. -/
theorem stopping_is_transparent_wide :
    let source := "\x60$\x7b\x7bé\x7d".toList
    let shown := between "\x60$\x7b\x7b".toList "é\x7d".toList ⟨.code, 2, [0]⟩
    (startAt source 0).Shows (stoppingAt 4) () shown () ∧
      (stoppingAt 4 shown ()).verdict = .stop ∧ (stoppingAt 4 shown ()).resume = none ∧
      (startAt source 0).AsksNothing (stoppingAt 4) () ∧ ¬ shown.OnBrace ∧
      shown.nesting.region.isEscaping = false ∧
      ∃ seen rest finish, (startAt source 0).Visits (seen ++ shown :: rest) finish ∧
        shown.Visits (shown :: rest) finish ∧ shown.advance.Visits rest finish := by
  intro source shown
  have hshows : (startAt source 0).Shows (stoppingAt 4) () shown () :=
    ⟨shown, ⟨.code, 2, [0]⟩, ⟨3, rfl⟩, rfl, rfl, rfl⟩
  have hasks : (startAt source 0).AsksNothing (stoppingAt 4) () :=
    fun shown memory _ => quiet_stoppingAt 4 shown memory
  have hplain : ¬ shown.OnBrace := by
    rintro ⟨-, h | h⟩ <;> cases h
  obtain ⟨seen, rest, finish, -, -, hall, hhere, hbehind⟩ :=
    stopping_is_transparent (stoppingAt 4) source 0 () hshows rfl rfl
  exact ⟨hshows, rfl, rfl, hasks, hplain, rfl, seen, rest, finish, hall hasks, hhere hplain,
    hbehind rfl⟩

end Scanner

end BindingCompiler
