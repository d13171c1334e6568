import BindingCompiler.Proofs.Visits

/-!
Requests to go on elsewhere. A request is for the scan whose visitor makes it: the scan does what it
asks for behind the character, and one that stops there drops it. Only a visitor that asks and then
fails leaves its request behind, and the next scan carries it out.
-/

namespace BindingCompiler.Scanner

variable {σ ε : Type} {visit : Visitor σ ε} {s t shown : Scanner} {memory m : σ}

theorem pending_proceed (s : Scanner) : s.proceed.pending = none := by
  rw [proceed]
  cases s.pending <;> rfl

/-- A request changes nothing of a scanner but what is to be done behind the character. -/
theorem position_proceed_asked (idle : shown.pending = none) (resume : Option Nat) :
    (resume.elim shown shown.resumeAt).proceed.position =
      resume.elim (shown.position + shown.width) (min · shown.source.byteLength) := by
  cases resume with
  | none => simp only [Option.elim_none, proceed, idle]; rfl
  | some place => rfl

/-- The scan ends because a visitor fails at a character after it asked to go on elsewhere. -/
def FailsAsking (visit : Visitor σ ε) (rounds : Nat) (s : Scanner) (memory : σ) : Prop :=
  ∃ shown m error place, s.Shows visit memory shown m ∧
    (visit shown m).verdict = .fail error ∧ (visit shown m).resume = some place ∧
    s.scanFor visit rounds memory = .failed (shown.resumeAt place) (visit shown m).memory error

/-- A scan fails as it does from where it comes to in one round. -/
theorem FailsAsking.behind {rounds : Nat} (h : FailsAsking visit rounds t m)
    (round : ∀ rounds, s.scanFor visit (rounds + 1) memory = t.scanFor visit rounds m) :
    FailsAsking visit (rounds + 1) s memory := by
  obtain ⟨shown, k, error, place, hshows, hverdict, hresume, hfailed⟩ := h
  exact ⟨shown, k, error, place, hshows.behind ⟨1, round 0⟩, hverdict, hresume,
    (round rounds).trans hfailed⟩

/-- A scan that begins with nothing asked for ends so too, or at a visitor that asks and fails. -/
theorem idle_or_failsAsking (visit : Visitor σ ε) (rounds : Nat) (s : Scanner)
    (idle : s.pending = none) (memory : σ) :
    (s.scanFor visit rounds memory).scanner.pending = none ∨ FailsAsking visit rounds s memory := by
  induction rounds generalizing s memory with
  | zero => exact .inl idle
  | succ rounds ih =>
      cases more : s.atEnd with
      | true => exact .inl (by rw [scanFor, if_pos more]; exact idle)
      | false =>
          cases hread : s.nesting.read s.here? s.next? with
          | skip width after =>
              have round (rounds : Nat) : s.scanFor visit (rounds + 1) memory =
                  ({ s with nesting := after }.skip width).scanFor visit rounds memory :=
                scanFor_of_skip more hread
              rw [round]
              have hskip : ({ s with nesting := after }.skip width).pending = none := idle
              exact (ih _ hskip memory).imp_right (·.behind round)
          | visit within =>
              have round (rounds : Nat) := @scanFor_of_visit _ _ visit s memory rounds _ more hread
              have hshows : Shows visit s memory { s with nesting := within } memory :=
                shows_here more hread
              cases hverdict : (visit { s with nesting := within } memory).verdict with
              | next =>
                  simp only [hverdict] at round
                  rw [round]
                  exact (ih _ (pending_proceed _) _).imp_right (·.behind round)
              | stop =>
                  simp only [round, hverdict]
                  exact .inl rfl
              | fail error =>
                  cases hresume : (visit { s with nesting := within } memory).resume with
                  | none =>
                      simp only [round, hverdict, hresume]
                      exact .inl idle
                  | some place =>
                      simp only [hverdict, hresume] at round
                      exact .inr ⟨_, memory, error, place, hshows, hverdict, hresume, round rounds⟩

theorem ComesTo.idle (h : ComesTo visit s memory t m) (idle : s.pending = none) :
    t.pending = none := by
  obtain ⟨rounds, hrounds⟩ := h
  rcases idle_or_failsAsking visit rounds s idle memory with hidle | hfails
  · rwa [hrounds] at hidle
  · obtain ⟨_, _, _, _, -, -, -, hfailed⟩ := hfails
    cases hrounds.symm.trans hfailed

theorem Shows.idle (h : Shows visit s memory shown m) (idle : s.pending = none) :
    shown.pending = none := by
  obtain ⟨t, within, hcomes, -, -, rfl⟩ := h
  exact hcomes.idle idle

/-- Behind a character that a scan shows, its next round begins at a place. -/
def GoesOnAt (visit : Visitor σ ε) (s : Scanner) (memory : σ) (shown : Scanner) (m : σ)
    (place : Nat) : Prop :=
  ∃ t within behind, ComesTo visit s memory t m ∧ t.atEnd = false ∧
    t.nesting.read t.here? t.next? = .visit within ∧ shown = { t with nesting := within } ∧
    t.scanFor visit 1 m = .unfinished behind (visit shown m).memory ∧ behind.position = place

/-- Each visit of a scan that begins with nothing asked for decides alone where the scan goes on. -/
theorem Shows.goesOnAt (h : Shows visit s memory shown m) (idle : s.pending = none)
    (hv : (visit shown m).verdict = .next) :
    GoesOnAt visit s memory shown m
      ((visit shown m).resume.elim (shown.position + shown.width)
        (min · shown.source.byteLength)) := by
  have hidle := h.idle idle
  obtain ⟨t, within, hcomes, more, hread, rfl⟩ := h
  refine ⟨t, within, _, hcomes, more, hread, rfl, ?_, position_proceed_asked hidle _⟩
  rw [scanFor_of_visit more hread]
  simp only [hv, scanFor]

/-- Begun with nothing asked for, a scan leaves a request behind exactly when a visitor that makes
one fails. Whenever it leaves none, every later scan goes on behind each character that it shows,
unless its own visitor asks for another place there. -/
theorem request_ends_with_scan (visit : Visitor σ ε) (rounds : Nat) (s : Scanner)
    (idle : s.pending = none) (memory : σ) :
    let left := (s.scanFor visit rounds memory).scanner
    (left.pending = none ↔ ¬ FailsAsking visit rounds s memory) ∧
      (left.pending = none → ∀ {τ δ : Type} (later : Visitor τ δ) (first : τ) (shown : Scanner)
        (m : τ), left.Shows later first shown m → (later shown m).verdict = .next →
          GoesOnAt later left first shown m
            ((later shown m).resume.elim (shown.position + shown.width)
              (min · shown.source.byteLength))) := by
  intro left
  refine ⟨⟨?_, ?_⟩, ?_⟩
  · rintro hleft ⟨shown, m, error, place, -, -, -, hfailed⟩
    have hasked : left.pending = some (min place shown.source.byteLength) := by
      rw [show left = shown.resumeAt place from congrArg Outcome.scanner hfailed]
      rfl
    cases hleft.symm.trans hasked
  · exact fun hfails => (idle_or_failsAsking visit rounds s idle memory).resolve_right hfails
  · exact fun hleft τ δ later first shown m hshows hnext => hshows.goesOnAt hleft hnext

/-- A visitor that asks at the third byte to go on at the end, and then says how to go on. -/
def askingAtMark (verdict : Verdict Unit) : Visitor Unit Unit := fun shown memory =>
  if shown.position = 2 then { memory, verdict, resume := some 5 } else .next memory

/-- A visitor that lists the places it is shown. -/
def listingPlaces : Visitor (List Nat) Empty :=
  .observing fun shown places => places ++ [shown.position]

/-- The scan stops at the mark, and a later one goes on behind the mark. -/
theorem request_ends_with_scan_stopped :
    let here := between "ab".toList "!cd".toList .outermost
    (start "ab!cd".toList).pending = none ∧
      (start "ab!cd".toList).scanFor (askingAtMark .stop) 6 () = .stopped here () ∧
      here.Shows listingPlaces [] here [] ∧ GoesOnAt listingPlaces here [] here [] 3 := by
  intro here
  have hstopped :
      (start "ab!cd".toList).scanFor (askingAtMark .stop) 6 () = .stopped here () := rfl
  have hshows : here.Shows listingPlaces [] here [] :=
    ⟨here, .outermost, .refl .., rfl, rfl, rfl⟩
  obtain ⟨-, later⟩ := request_ends_with_scan (askingAtMark .stop) 6 (start "ab!cd".toList) rfl ()
  rw [hstopped] at later
  exact ⟨rfl, hstopped, hshows, later rfl listingPlaces [] here [] hshows rfl⟩

/-- The visitor fails at the mark, and a later scan that nobody asks for anything leaves out what
lies between the mark and the place that the first visitor asked for. -/
theorem request_outlives_failure :
    let here := between "ab".toList "!cd".toList .outermost
    (start "ab!cd".toList).scan (askingAtMark (.fail ())) () = .failed (here.resumeAt 5) () () ∧
      ((here.resumeAt 5).scan listingPlaces []).memory = [2] ∧
      (here.scan listingPlaces []).memory = [2, 3, 4] :=
  ⟨rfl, rfl, rfl⟩

end BindingCompiler.Scanner
