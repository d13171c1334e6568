import BindingCompiler.Proofs.Visits

/-!
What stays true of a scanner whatever is done with it. A scanner may begin anywhere, also inside a
character, be moved over a character without a look at it, be asked for any jump, and make scans
that stop or fail in the middle of something and leave a jump to do. It stays inside its text, and
its open interpolations stay in order below the count of its open braces.
-/

namespace BindingCompiler

/-- What is left of a text begins inside it. -/
theorem Text.lt_byteLength_of_onward {t : Text} {offset : Nat}
    (h : (t.onward offset).isEmpty = false) : offset < t.byteLength := by
  induction t generalizing offset with
  | nil => cases offset <;> cases h
  | cons c t ih =>
      have hc := c.utf8Size_pos
      cases offset with
      | zero => exact Nat.lt_of_lt_of_le hc (Nat.le_add_right _ _)
      | succ k =>
          rw [onward] at h
          rw [byteLength]
          split at h
          · have := ih h
            omega
          · omega

namespace Nesting

variable {n within after : Nesting} {here next : Option Char} {width : Nat}

/-- What no character begins at is shown and moves nothing on. -/
theorem wellFormed_of_read_visit (h : n.read here next = .visit within) (hn : n.WellFormed) :
    within.WellFormed := by
  cases here with
  | none =>
      cases h
      exact hn
  | some c =>
      have hr : Reads n c next (.visit within) := h ▸ reads_read n c next
      exact hr.wellFormed_visit hn

theorem exists_reads_of_read_skip (h : n.read here next = .skip width after) :
    ∃ c, here = some c ∧ Reads n c next (.skip width after) := by
  cases here with
  | none => cases h
  | some c => exact ⟨c, rfl, h ▸ reads_read n c next⟩

end Nesting

namespace Scanner

section Bounds

variable {s : Scanner} {width : Nat} {after : Nesting}

theorem position_lt (more : s.atEnd = false) : s.position < s.source.byteLength := by
  rw [atEnd, s.ahead_eq] at more
  exact Text.lt_byteLength_of_onward more

/-- Where a character begins, it lies in the text with what comes behind it. -/
theorem exists_ahead {c : Char} (h : s.here? = some c) :
    ∃ front back, s.source = front ++ c :: back ∧ s.position = Text.byteLength front ∧
      s.next? = back.head? := by
  have hhere := h
  rw [here?, s.ahead_eq] at hhere
  obtain ⟨front, back, hsource, hplace⟩ := Text.exists_of_onward hhere
  refine ⟨front, back, hsource, hplace.symm, ?_⟩
  rw [next?, s.ahead_eq, hsource, ← hplace, Text.onward_append]
  rfl

theorem position_add_width_le (more : s.atEnd = false) :
    s.position + s.width ≤ s.source.byteLength := by
  cases hhere : s.here? with
  | none =>
      rw [width, hhere]
      exact position_lt more
  | some c =>
      obtain ⟨front, back, hsource, hplace, -⟩ := exists_ahead hhere
      rw [width, hhere, hsource, hplace, Text.byteLength_append, Text.byteLength]
      dsimp only
      omega

/-- The mark that opens an interpolation does not reach over the end of the text. -/
theorem position_add_skip_le (more : s.atEnd = false)
    (hread : s.nesting.read s.here? s.next? = .skip width after) :
    s.position + width ≤ s.source.byteLength := by
  obtain ⟨c, hhere, hr⟩ := Nesting.exists_reads_of_read_skip hread
  rcases hr.skip_cases with rfl | ⟨rfl, rfl, hnext, -⟩
  · exact position_lt more
  · obtain ⟨front, back, hsource, hplace, hback⟩ := exists_ahead hhere
    rw [hnext] at hback
    obtain ⟨rest, rfl⟩ := List.head?_eq_some_iff.mp hback.symm
    have hmark : Text.byteLength ('$' :: '{' :: rest) = 1 + (1 + Text.byteLength rest) := rfl
    rw [hsource, hplace, Text.byteLength_append, hmark]
    omega

end Bounds

/-- The facts that hold of a scanner at all times. -/
structure Consistent (s : Scanner) : Prop where
  inside : s.position ≤ s.source.byteLength
  pending : ∀ place ∈ s.pending, place ≤ s.source.byteLength
  /-- Code has no delimiter, and a string has one of its kind. -/
  code : s.nesting.region = .code → s.nesting.region.delimiter? = none
  quoted : ∀ quote escaping, s.nesting.region = .quoted quote escaping →
    s.nesting.region.delimiter? = some '\x27' ∨ s.nesting.region.delimiter? = some '\x22'
  template : ∀ escaping, s.nesting.region = .template escaping →
    s.nesting.region.delimiter? = some '\x60'
  escaping : s.nesting.region.isEscaping = true → s.nesting.region.isString = true
  /-- Outer interpolations began under fewer braces than inner ones. -/
  increasing : s.nesting.openings.Pairwise (· > ·)
  below : ∀ opening ∈ s.nesting.openings, opening < s.nesting.depth
  /-- A brace that closes nothing is met only where no interpolation is open. -/
  unopened : s.nesting.depth = 0 → s.nesting.openings = []
  /-- The interpolation that a brace closes is the innermost one. -/
  innermost : ∀ opening ∈ s.nesting.openings, opening = s.nesting.depth - 1 →
    s.nesting.openings.head? = some opening

namespace Consistent

variable {s : Scanner} {after within : Nesting} {place width : Nat}

theorem wellFormed (h : s.Consistent) : s.nesting.WellFormed :=
  List.pairwise_cons.mpr ⟨h.below, h.increasing⟩

theorem of_wellFormed (inside : s.position ≤ s.source.byteLength)
    (pending : ∀ place ∈ s.pending, place ≤ s.source.byteLength)
    (wellFormed : s.nesting.WellFormed) : s.Consistent := by
  obtain ⟨below, increasing⟩ := List.pairwise_cons.mp wellFormed
  refine ⟨inside, pending, ?_, ?_, ?_, ?_, increasing, below, ?_, ?_⟩
  · intro h
    rw [h]
    rfl
  · intro quote escaping h
    rw [h]
    cases quote with
    | single => exact .inl rfl
    | double => exact .inr rfl
  · intro escaping h
    rw [h]
    rfl
  · intro h
    cases hregion : s.nesting.region with
    | code =>
        rw [hregion] at h
        cases h
    | quoted | template => rfl
  · intro h
    apply List.eq_nil_iff_forall_not_mem.mpr
    intro opening hmem
    have := below opening hmem
    omega
  · intro opening hmem hopening
    cases hopenings : s.nesting.openings with
    | nil =>
        rw [hopenings] at hmem
        cases hmem
    | cons inner outer =>
        rw [hopenings] at hmem increasing below
        cases hmem with
        | head => rfl
        | tail _ hmem =>
            -- An outer one lies below the inner one, and that below the open braces.
            have hinner := below inner (List.mem_cons_self ..)
            have houter := (List.pairwise_cons.mp increasing).1 opening hmem
            omega

/-- A scanner with no jump to do is in order where it stands. -/
theorem of_none (inside : s.position ≤ s.source.byteLength) (none : s.pending = none)
    (wellFormed : s.nesting.WellFormed) : s.Consistent := by
  refine of_wellFormed inside ?_ wellFormed
  intro place hplace
  rw [none] at hplace
  cases hplace

theorem startAt (source : Text) (position : Nat) : (startAt source position).Consistent :=
  of_none (Nat.min_le_right _ _) rfl Nesting.wellFormed_outermost

theorem skip (h : s.Consistent) (hle : s.position + width ≤ s.source.byteLength)
    (hn : after.WellFormed) : ({ s with nesting := after }.skip width).Consistent :=
  of_wellFormed hle h.pending hn

theorem advance (h : s.Consistent) : s.advance.Consistent := by
  rw [Scanner.advance]
  split
  · exact h
  · next more =>
      exact h.skip (position_add_width_le (Bool.eq_false_iff.mpr more)) h.wellFormed

theorem resumeAt (h : s.Consistent) (place : Nat) : (s.resumeAt place).Consistent := by
  refine of_wellFormed h.inside ?_ h.wellFormed
  intro asked hasked
  cases hasked
  exact Nat.min_le_right _ _

/-- What a visitor asks for changes nothing but the jump to do. -/
theorem asked (h : s.Consistent) (resume : Option Nat) :
    (resume.elim s s.resumeAt).Consistent := by
  cases resume with
  | none => exact h
  | some place => exact h.resumeAt place

theorem proceed (h : s.Consistent) (more : s.atEnd = false) : s.proceed.Consistent := by
  have hn : s.nesting.settled.WellFormed := h.wellFormed
  rw [Scanner.proceed]
  cases hpending : s.pending with
  | none => exact of_none (position_add_width_le more) rfl hn
  | some place => exact of_none (h.pending place hpending) rfl hn

theorem shown (h : s.Consistent) (hread : s.nesting.read s.here? s.next? = .visit within) :
    ({ s with nesting := within } : Scanner).Consistent :=
  of_wellFormed h.inside h.pending (Nesting.wellFormed_of_read_visit hread h.wellFormed)

/-- No number of rounds takes a scanner out of order, however the scan ends. -/
theorem scanFor {σ ε : Type} (visit : Visitor σ ε) (rounds : Nat) {s : Scanner} (h : s.Consistent)
    (memory : σ) : (s.scanFor visit rounds memory).scanner.Consistent := by
  induction rounds generalizing s memory with
  | zero => exact h
  | succ rounds ih =>
      rw [Scanner.scanFor]
      split
      · exact h
      · next more =>
          have hmore := Bool.eq_false_iff.mpr more
          split
          · next width after hread =>
              obtain ⟨c, -, hr⟩ := Nesting.exists_reads_of_read_skip hread
              have hn := hr.wellFormed_skip h.wellFormed
              exact ih (h.skip (position_add_skip_le hmore hread) hn) _
          · next within hread =>
              have hasked :=
                (h.shown hread).asked (visit { s with nesting := within } memory).resume
              have hahead (resume : Option Nat) :
                  (resume.elim { s with nesting := within }
                    (Scanner.resumeAt { s with nesting := within })).atEnd = s.atEnd := by
                cases resume <;> rfl
              dsimp only
              split
              · exact ih (hasked.proceed ((hahead _).trans hmore)) _
              · exact of_none hasked.inside rfl hasked.wellFormed
              · exact hasked

end Consistent

end Scanner

end BindingCompiler
