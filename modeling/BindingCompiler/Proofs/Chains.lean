import BindingCompiler.Proofs.References
import BindingCompiler.Proofs.Separators

/-!
Chains of filters as a fold. One more filter behind an expression that is complete makes one more
call around it, or fails at a place of the filter; what comes before is compiled as if the filter
were not there.
-/

namespace BindingCompiler.FilterChain

/-- What becomes of a value behind which a filter is written, from an offset on. -/
structure Filtered (pragma value : Text) (start : Nat) (filter : Text)
    (result : Except Failure Text) : Prop where
  missing : filter.trim = [] → result = .error (.found .missingFilter start)
  unreadable : ∀ failure, filter.trim ≠ [] → Reference.read .filter filter.trim 0 = .error failure →
    result = .error (failure.map (·.shift (start + filter.indent)))
  readable : ∀ r, Reference.read .filter filter.trim 0 = .ok r →
    ∃ rest, filter.trim.rest? r.stop = some rest
  trailing : ∀ (r : Reference) (front : Text) (c : Char) (back : Text),
    Reference.read .filter filter.trim 0 = .ok r →
    filter.trim.rest? r.stop = some (front ++ c :: back) → front.isAllBlank = true →
    isBlank c = false →
    result = .error (.found (.trailingText .filter)
      (start + filter.indent + r.stop + front.byteLength))
  plain : ∀ r rest, Reference.read .filter filter.trim 0 = .ok r →
    filter.trim.rest? r.stop = some rest → rest.isAllBlank = true →
    (∀ a, r.arguments = some a → a.text.isAllBlank = true) →
    result = .ok (pragma ++ "(\x27".toList ++ r.name ++ "\x27, ".toList ++ value ++ ")".toList)
  withArguments : ∀ r rest a, Reference.read .filter filter.trim 0 = .ok r →
    filter.trim.rest? r.stop = some rest → rest.isAllBlank = true →
    r.arguments = some a → a.text.isAllBlank = false →
    result = .ok (pragma ++ "(\x27".toList ++ r.name ++ "\x27, ".toList ++ value ++
      ", ".toList ++ a.text ++ ")".toList)

theorem compile_joined {e g : Text} (pragma : Text) (he : EndsAtTop e)
    (hg : texts .outermost 0 [] g = [g]) :
    compile (e ++ (separator ++ g)) pragma =
      compile e pragma >>= (apply pragma · ⟨e.byteLength + separator.byteLength, g⟩) := by
  simp only [compile]
  rw [split_joined he, split_eq, hg, ok_bind, ok_bind]
  cases hs : texts .outermost 0 [] e with
  | nil => exact absurd hs (texts_ne_nil e)
  | cons base filters =>
      exact List.foldlM_append.trans (by simp [placed])

section Application

variable {pragma value : Text} {segment : Segment}

theorem apply_of_trim_eq_nil (h : segment.text.trim = []) :
    apply pragma value segment = .error (.found .missingFilter segment.start) := by
  simp only [apply, h, List.isEmpty_nil, if_true]
  rfl

theorem apply_of_read_error {failure : Failure} (hne : segment.text.trim ≠ [])
    (h : Reference.read .filter segment.text.trim 0 = .error failure) :
    apply pragma value segment =
      .error (failure.map (·.shift (segment.start + segment.text.indent))) := by
  have hsome : segment.text.trim.isEmpty = false := by simpa using hne
  simp only [apply, hsome, h]
  rfl

/-- A reference that was read is not empty and ends at a place of its text. -/
theorem rest_of_read {t : Text} {r : Reference} (h : Reference.read .filter t 0 = .ok r) :
    t.isEmpty = false ∧ ∃ rest, t.rest? r.stop = some rest := by
  have hlies : r.Lies [] t := Reference.lies_of_read h
  refine ⟨?_, hlies.exists_rest⟩
  cases t with
  | nil => cases h
  | cons c t => rfl

/-- What the call for a filter passes behind the value: the arguments, if there is anything in
them. -/
def operandsOf (r : Reference) : List Text :=
  match r.arguments with
  | some arguments => if arguments.text.isAllBlank then [] else [arguments.text]
  | none => []

theorem operandsOf_cases (r : Reference) :
    operandsOf r = [] ∨ ∃ a, r.arguments = some a ∧ operandsOf r = [a.text] := by
  rw [operandsOf]
  cases r.arguments with
  | none => exact .inl rfl
  | some a =>
      dsimp only
      split
      · exact .inl rfl
      · exact .inr ⟨a, rfl, rfl⟩

theorem apply_of_read {r : Reference} {rest : Text}
    (h : Reference.read .filter segment.text.trim 0 = .ok r)
    (hrest : segment.text.trim.rest? r.stop = some rest) :
    apply pragma value segment =
      if rest.isAllBlank then
        .ok (callByName pragma r.name (value :: operandsOf r))
      else
        .error (.found (.trailingText .filter)
          (segment.start + segment.text.indent + r.stop + rest.indent)) := by
  simp only [apply, (rest_of_read h).1, h, ok_mapError, ok_bind, hrest]
  cases rest.isAllBlank <;> rfl

/-- A filter is at fault whatever the value, or makes a call of every value. -/
theorem apply_cases (segment : Segment) :
    (∃ failure, ∀ pragma value, apply pragma value segment = .error failure) ∨
      ∃ r rest, Reference.read .filter segment.text.trim 0 = .ok r ∧
        segment.text.trim.rest? r.stop = some rest ∧ rest.isAllBlank = true ∧
        ∀ pragma value, apply pragma value segment =
          .ok (callByName pragma r.name (value :: operandsOf r)) := by
  by_cases hne : segment.text.trim = []
  · exact .inl ⟨_, fun _ _ => apply_of_trim_eq_nil hne⟩
  · cases hread : Reference.read .filter segment.text.trim 0 with
    | error failure => exact .inl ⟨_, fun _ _ => apply_of_read_error hne hread⟩
    | ok r =>
        obtain ⟨-, rest, hrest⟩ := rest_of_read hread
        cases hblank : rest.isAllBlank with
        | true =>
            refine .inr ⟨r, rest, rfl, hrest, hblank, fun pragma value => ?_⟩
            rw [apply_of_read hread hrest, if_pos hblank]
        | false =>
            refine .inl ⟨.found (.trailingText .filter)
              (segment.start + segment.text.indent + r.stop + rest.indent), ?_⟩
            intro pragma value
            rw [apply_of_read hread hrest, hblank, if_neg Bool.false_ne_true]

theorem exists_read_of_apply {out : Text} (h : apply pragma value segment = .ok out) :
    ∃ r rest, Reference.read .filter segment.text.trim 0 = .ok r ∧
      segment.text.trim.rest? r.stop = some rest ∧ rest.isAllBlank = true ∧
      out = callByName pragma r.name (value :: operandsOf r) := by
  cases apply_cases segment with
  | inl hfails =>
      obtain ⟨failure, hfails⟩ := hfails
      rw [hfails] at h
      cases h
  | inr hcalls =>
      obtain ⟨r, rest, hread, hrest, hblank, hcalls⟩ := hcalls
      rw [hcalls] at h
      cases h
      exact ⟨r, rest, hread, hrest, hblank, rfl⟩

theorem filtered_apply (pragma value : Text) (segment : Segment) :
    Filtered pragma value segment.start segment.text (apply pragma value segment) := by
  refine ⟨apply_of_trim_eq_nil, fun _ => apply_of_read_error, ?_, ?_, ?_, ?_⟩
  · intro r h
    exact (rest_of_read h).2
  · intro r front c back h hrest hfront hc
    have hblank : Text.isAllBlank (front ++ c :: back) = false := by
      simp [Text.isAllBlank, hc]
    rw [apply_of_read h hrest, hblank, if_neg Bool.false_ne_true, Text.indent_append hfront hc]
  · intro r rest h hrest hblank hargs
    rw [apply_of_read h hrest, if_pos hblank]
    cases ha : r.arguments with
    | none => simp [callByName, operandsText, operandsOf, ha]
    | some a => simp [callByName, operandsText, operandsOf, ha, hargs a ha]
  · intro r rest a h hrest hblank ha hfull
    rw [apply_of_read h hrest, if_pos hblank]
    simp [callByName, operandsText, operandsOf, ha, hfull]

end Application

/-- What an expression that is complete is compiled to with one more filter behind it. -/
theorem compile_filter_appended (e g pragma : Text) (he : EndsAtTop e) :
    ((∃ s, split g = .ok [s]) ↔
      ∀ front back, g = front ++ (separator ++ back) → ¬ EndsAtTop front) ∧
    ((∃ s, split g = .ok [s]) →
      (∃ segments, split e = .ok segments ∧
        split (e ++ (separator ++ g)) = .ok (segments ++ [⟨e.byteLength + 2, g⟩])) ∧
      (∀ failure, compile e pragma = .error failure →
        compile (e ++ (separator ++ g)) pragma = .error failure) ∧
      ∀ value, compile e pragma = .ok value →
        Filtered pragma value (e.byteLength + 2) g (compile (e ++ (separator ++ g)) pragma)) := by
  refine ⟨?_, ?_⟩
  · rw [split_singleton_iff, texts_eq_singleton_iff]
  · intro hsingle
    have hg := (split_singleton_iff g).mp hsingle
    refine ⟨⟨_, split_eq e, ?_⟩, ?_, ?_⟩
    · rw [split_joined he, hg]
      rfl
    · intro failure h
      rw [compile_joined pragma he hg, h, error_bind]
    · intro value h
      rw [compile_joined pragma he hg, h, ok_bind]
      exact filtered_apply pragma value ⟨e.byteLength + 2, g⟩

theorem compile_filter_appended_join :
    EndsAtTop "xs|>first".toList ∧
    compile "xs|>first|> join(\x27|>\x27)".toList "F".toList =
      .ok "F(\x27join\x27, F(\x27first\x27, xs), \x27|>\x27)".toList := by
  have he : EndsAtTop "xs|>first".toList := (endsAtTop_iff _).mpr (by decide)
  refine ⟨he, ?_⟩
  have happended := (compile_filter_appended "xs|>first".toList " join(\x27|>\x27)".toList
    "F".toList he).2 ⟨⟨0, " join(\x27|>\x27)".toList⟩, rfl⟩
  exact (happended.2.2 "F(\x27first\x27, xs)".toList rfl).withArguments
    ⟨"join".toList, some ⟨"\x27|>\x27".toList, 5⟩, 10⟩ [] ⟨"\x27|>\x27".toList, 5⟩
    rfl rfl rfl rfl rfl

end BindingCompiler.FilterChain
