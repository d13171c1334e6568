import BindingCompiler.MethodCall
import BindingCompiler.Proofs.Jumps
import BindingCompiler.Proofs.References

/-!
The loop over the markers of an expression. What stands in front of the first marker of code is
passed over, the reference behind it is replaced, and the loop goes on behind the reference in the
nesting of the marker. `Expands` is this decomposition as a derivation of the result, for the
expression and for the arguments of its references alike.
-/

namespace BindingCompiler

theorem Failure.map_shift_shift (failure : Failure) (a b : Nat) :
    (failure.map (·.shift a)).map (·.shift b) = failure.map (·.shift (a + b)) := by
  cases failure with
  | problem p =>
      have hplace : p.position + a + b = p.position + (a + b) := Nat.add_assoc ..
      exact congrArg (fun place => Failure.problem { p with position := place }) hplace
  | stuck => rfl

namespace MethodCall

/-- A text without a marker of code, behind which code goes on. -/
def Unmarked (n : Nesting) (front : Text) : Prop :=
  (n.after front).region = .code ∧ marker ∉ n.code front

/-- A text has no marker of code, or a first one. -/
theorem unmarked_or_exists (n : Nesting) (t : Text) :
    marker ∉ n.code t ∨ ∃ front back, t = front ++ marker :: back ∧ Unmarked n front := by
  induction n, t using Nesting.passage_induction with
  | nil n => exact .inl List.not_mem_nil
  | visit n c t within hr ih =>
      by_cases hc : within.region = .code ∧ c = marker
      · obtain ⟨hcode, rfl⟩ := hc
        exact .inr ⟨[], t, rfl, hr.region_visit.symm.trans hcode, List.not_mem_nil⟩
      · have hskipped {s : Text} (h : marker ∉ within.settled.code s)
            (hs : n.Reads c s.head? (.visit within)) : marker ∉ n.code (c :: s) := by
          rw [Nesting.code_visit hs]
          split
          · next hcode =>
              intro hm
              cases hm with
              | head => exact hc ⟨hcode, rfl⟩
              | tail _ hm => exact h hm
          · exact h
        cases ih with
        | inl h => exact .inl (hskipped h hr)
        | inr h =>
            obtain ⟨front, back, rfl, hafter, hnone⟩ := h
            refine .inr ⟨c :: front, back, rfl, ?_, hskipped hnone hr.visit_in_front⟩
            rwa [Nesting.after_visit hr.visit_in_front]
  | skip n c t next hr ih =>
      cases ih with
      | inl h =>
          rw [Nesting.code_skip hr]
          exact .inl h
      | inr h =>
          obtain ⟨front, back, rfl, hafter, hnone⟩ := h
          refine .inr ⟨c :: front, back, rfl, ?_, ?_⟩
          · rwa [Nesting.after_skip hr.skip_in_front]
          · rwa [Nesting.code_skip hr.skip_in_front]
  | opening d ops t ih =>
      cases ih with
      | inl h =>
          rw [Nesting.code_opening]
          exact .inl h
      | inr h =>
          obtain ⟨front, back, rfl, hafter, hnone⟩ := h
          refine .inr ⟨'$' :: '{' :: front, back, rfl, hafter, ?_⟩
          rwa [Nesting.code_opening]

/-- A reference that was read behind a marker takes up a part of the text behind it. -/
theorem exists_used_of_read {front back : Text} {r : Reference}
    (h : Reference.read .method (front ++ marker :: back) (front.byteLength + 1) = .ok r) :
    ∃ used rest near, back = used ++ rest ∧ Reference.byHeader .method back = .ok near ∧
      near.stop = Text.byteLength used ∧ r = near.shift (front.byteLength + 1) ∧
      r.stop = Text.byteLength (front ++ marker :: used) := by
  have hread := Reference.read_eq .method (front ++ [marker]) back
  have hmarker : Text.byteLength (front ++ [marker]) = front.byteLength + 1 :=
    Text.byteLength_append ..
  rw [hmarker, List.append_assoc] at hread
  rw [← List.singleton_append, hread] at h
  cases hnear : Reference.byHeader .method back with
  | error failure =>
      rw [hnear] at h
      cases h
  | ok near =>
      rw [hnear] at h
      cases h
      obtain ⟨used, rest, rfl, hstop⟩ := (Reference.lies_of_byHeader hnear).exists_used
      refine ⟨used, rest, near, rfl, rfl, hstop, rfl, ?_⟩
      have hone : marker.utf8Size = 1 := rfl
      simp only [Reference.shift, hstop, Text.byteLength_append, Text.byteLength, hone]
      omega

section Loop

variable (expand : Text → Except Failure Text) (pragma : Text)

/-- The call for a reference is the same wherever the reference stands. -/
theorem call_shift (r : Reference) (bytes : Nat) :
    call expand pragma (r.shift bytes) =
      (call expand pragma r).mapError (·.map (·.shift bytes)) := by
  obtain ⟨name, arguments, stop⟩ := r
  cases arguments with
  | none => rfl
  | some a =>
      simp only [call, Reference.shift, Option.map_some]
      split
      · rfl
      · cases expand a.text with
        | ok text => rfl
        | error failure => exact congrArg Except.error (failure.map_shift_shift ..).symm

theorem replace_between (done pending back written : Text) (n : Nesting) :
    replace expand pragma (.between (done ++ pending) (marker :: back) n)
        ⟨written, done.byteLength⟩ =
      match Reference.byHeader .method back with
      | .error failure =>
          .error (failure.map (·.shift (Text.byteLength (done ++ pending) + 1)))
      | .ok r =>
          match call expand pragma r with
          | .error failure =>
              .error (failure.map (·.shift (Text.byteLength (done ++ pending) + 1)))
          | .ok text =>
              .ok ⟨written ++ pending ++ text,
                r.stop + (Text.byteLength (done ++ pending) + 1)⟩ := by
  have hread := Reference.read_eq .method (done ++ pending ++ [marker]) back
  have hmarker : Text.byteLength (done ++ pending ++ [marker]) =
      Text.byteLength (done ++ pending) + 1 := Text.byteLength_append ..
  have hsource : done ++ pending ++ [marker] ++ back = done ++ pending ++ marker :: back := by simp
  have hslice := Text.slice?_append done pending (marker :: back)
  rw [hsource, hmarker] at hread
  rw [← List.append_assoc, ← Text.byteLength_append] at hslice
  simp only [replace, Scanner.source_between, Scanner.position_between, hread, hslice]
  cases Reference.byHeader .method back with
  | error failure => rfl
  | ok r =>
      simp only [Reference.shifted, ok_bind, call_shift]
      cases call expand pragma r <;> rfl

/-- Anything but a marker of code leaves the loop as it is. -/
theorem visitMarkers_other {front t : Text} {c : Char} {within : Nesting} (progress : Progress)
    (h : ¬ (within.region = .code ∧ c = marker)) :
    visitMarkers expand pragma (.between front (c :: t) within) progress = .next progress := by
  by_cases hcode : within.region = .code
  · have hc : ¬ some c = some marker := fun hs => h ⟨hcode, Option.some.inj hs⟩
    simp only [visitMarkers, Visitor.onCode, Scanner.inCode_between hcode, if_true,
      Scanner.here?_between, List.head?_cons]
    exact if_neg hc
  · have hin := mt (Scanner.between front (c :: t) within).inCode_eq_true_iff.mp hcode
    simp only [visitMarkers, Visitor.onCode, if_neg hin]

theorem visitMarkers_marker {front t : Text} {within : Nesting} (progress : Progress)
    (h : within.region = .code) :
    visitMarkers expand pragma (.between front (marker :: t) within) progress =
      match replace expand pragma (.between front (marker :: t) within) progress with
      | .ok progress => .resumeAt progress.done progress
      | .error failure => .fail failure progress := by
  rw [visitMarkers, Visitor.onCode, if_pos (Scanner.inCode_between h)]
  exact if_pos rfl

/-- The loop passes over a text without a marker of code. -/
theorem scanFor_unmarked {n : Nesting} {mid rest : Text} (cut : Nesting.Cut n mid rest)
    (h : marker ∉ n.code mid) (front : Text) (progress : Progress) :
    ∃ first ≤ mid.length, ∀ rounds,
      (Scanner.between front (mid ++ rest) n).scanFor (visitMarkers expand pragma)
          (first + rounds) progress =
        (Scanner.between (front ++ mid) rest (n.after mid)).scanFor (visitMarkers expand pragma)
          rounds progress := by
  induction cut generalizing front with
  | here =>
      refine ⟨0, Nat.le_refl _, ?_⟩
      intro rounds
      rw [List.append_nil, Nat.zero_add]
      rfl
  | @visit n within c mid rest hr _ ih =>
      rw [Nesting.code_visit hr.visit_in_front] at h
      have hc : ¬ (within.region = .code ∧ c = marker) := by
        intro hc
        rw [if_pos hc.1, hc.2] at h
        exact h (List.mem_cons_self ..)
      have hrest : marker ∉ within.settled.code mid := by
        intro hm
        split at h
        · exact h (List.mem_cons_of_mem _ hm)
        · exact h hm
      obtain ⟨first, hle, hscan⟩ := ih hrest (front ++ [c])
      refine ⟨first + 1, Nat.succ_le_succ hle, ?_⟩
      intro rounds
      rw [Nat.add_right_comm, List.cons_append,
        Scanner.scanFor_next hr (visitMarkers_other expand pragma progress hc), hscan,
        Nesting.after_visit hr.visit_in_front, List.append_assoc]
      rfl
  | @skip n next c mid rest hr _ ih =>
      rw [Nesting.code_skip hr.skip_in_front] at h
      obtain ⟨first, hle, hscan⟩ := ih h (front ++ [c])
      refine ⟨first + 1, Nat.succ_le_succ hle, ?_⟩
      intro rounds
      rw [Nat.add_right_comm, List.cons_append, Scanner.scanFor_skip hr, hscan,
        Nesting.after_skip hr.skip_in_front, List.append_assoc]
      rfl
  | @opening d ops mid rest _ ih =>
      rw [Nesting.code_opening] at h
      obtain ⟨first, hle, hscan⟩ := ih h (front ++ ['$', '{'])
      refine ⟨first + 1, Nat.succ_le_succ (Nat.le_succ_of_le hle), ?_⟩
      intro rounds
      rw [Nat.add_right_comm, List.cons_append, List.cons_append, Scanner.scanFor_opening, hscan,
        Nesting.after_opening, List.append_assoc]
      rfl

/-- The loop comes to the first marker of code, with rounds left for what follows it. -/
theorem scanFor_first {n : Nesting} {front back : Text} (first : Unmarked n front) (before : Text)
    (progress : Progress) {rounds : Nat} (h : (front ++ marker :: back).length < rounds) :
    ∃ more, back.length < more ∧
      (Scanner.between before (front ++ marker :: back) n).scanFor (visitMarkers expand pragma)
          rounds progress =
        (Scanner.between (before ++ front) (marker :: back) (n.after front)).scanFor
          (visitMarkers expand pragma) (more + 1) progress := by
  have hcut : Nesting.Cut n front (marker :: back) := Nesting.cut_of_code first.1
  obtain ⟨passed, hle, hscan⟩ := scanFor_unmarked expand pragma hcut first.2 before progress
  rw [List.length_append, List.length_cons] at h
  have hrounds : rounds = passed + (rounds - passed - 1 + 1) := by omega
  refine ⟨rounds - passed - 1, by omega, ?_⟩
  rw [← hscan, ← hrounds]

theorem reads_marker {n : Nesting} {t : Text} (h : n.region = .code) :
    n.Reads marker t.head? (.visit n) := by
  obtain ⟨region, d, ops⟩ := n
  cases h
  exact .plain (by decide)

theorem scanFor_marker_error {n : Nesting} {before back : Text} {progress : Progress}
    {failure : Failure} {rounds : Nat} (hn : n.region = .code)
    (h : replace expand pragma (.between before (marker :: back) n) progress = .error failure) :
    (Scanner.between before (marker :: back) n).scanFor (visitMarkers expand pragma) (rounds + 1)
        progress =
      .failed (.between before (marker :: back) n) progress failure := by
  refine Scanner.scanFor_fail (reads_marker hn) ?_
  rw [visitMarkers_marker expand pragma progress hn, h]

/-- Behind a reference the loop goes on in the nesting of its marker. -/
theorem scanFor_marker_ok {n : Nesting} {before used rest written : Text} {progress : Progress}
    {rounds : Nat} (hn : n.region = .code)
    (h : replace expand pragma (.between before (marker :: (used ++ rest)) n) progress =
      .ok ⟨written, Text.byteLength (before ++ marker :: used)⟩) :
    (Scanner.between before (marker :: (used ++ rest)) n).scanFor (visitMarkers expand pragma)
        (rounds + 1) progress =
      (Scanner.between (before ++ marker :: used) rest n).scanFor (visitMarkers expand pragma)
        rounds ⟨written, Text.byteLength (before ++ marker :: used)⟩ := by
  rw [Scanner.scanFor_resumeAt used rest (reads_marker hn) rfl, Nesting.settled_of_code hn]
  rw [visitMarkers_marker expand pragma progress hn, h]

end Loop

end MethodCall

end BindingCompiler
