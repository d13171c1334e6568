import BindingCompiler.Proofs.Markers

/-!
What an expression expands to, reference after reference. The loop over the markers is given as a
derivation: what stands in front of the first marker of code is taken over, the reference behind it
becomes a call, and what follows is expanded in the nesting of the marker. Every expression has a
derivation, and its result is what the loop comes to.
-/

namespace BindingCompiler.MethodCall

open Nesting

/-- What the loop over the markers of an expression comes to. -/
def conclude (expression : Text) : Outcome Progress Failure → Except Failure Text
  | .atEnd _ progress =>
      match expression.rest? progress.done with
      | some rest => .ok (progress.written ++ rest)
      | none => .error .stuck
  | .failed _ _ failure => .error failure
  | .stopped _ _ | .unfinished _ _ => .error .stuck

section Unfolding

variable (pragma : Text) {inner other : Text → Except Failure Text}

theorem call_congr {r : Reference} (h : ∀ a, r.arguments = some a → inner a.text = other a.text) :
    call inner pragma r = call other pragma r := by
  simp only [call]
  cases ha : r.arguments with
  | none => rfl
  | some a => simp only [h a ha]

/-- Only texts shorter than the source are expanded on the way. -/
theorem visitMarkers_congr {source : Text}
    (h : ∀ a : Text, a.length < source.length → inner a = other a) (s : Scanner)
    (progress : Progress) (hs : s.source = source) :
    visitMarkers inner pragma s progress = visitMarkers other pragma s progress := by
  have hreplace : replace inner pragma s progress = replace other pragma s progress := by
    simp only [replace]
    cases hread : Reference.read .method s.source (s.position + 1) with
    | error failure => rfl
    | ok r =>
        obtain ⟨before, t, hsource, hlies⟩ := Reference.exists_lies_of_read hread
        have hcall : call inner pragma r = call other pragma r := by
          refine call_congr pragma fun a ha => h a.text ?_
          have hlen := hlies.length_arguments ha
          rw [← hs, hsource, List.length_append]
          omega
        rw [ok_bind, ok_bind, hcall]
  simp only [visitMarkers, Visitor.onCode, hreplace]

end Unfolding

/-- The loop of an expression expands the arguments as it expands the expression. -/
theorem expand_eq (expression pragma : Text) :
    expand expression pragma =
      conclude expression
        ((Scanner.start expression).scan (visitMarkers (expand · pragma) pragma) ⟨[], 0⟩) := by
  have hinner : ∀ a : Text, a.length < expression.length →
      (if _ : a.length < expression.length then expand a pragma else .error .stuck) =
        expand a pragma := fun a ha => dif_pos ha
  have hscan := Scanner.scanFor_congr (visitMarkers_congr pragma hinner) (expression.byteLength + 1)
    (Scanner.start expression) rfl ⟨[], 0⟩
  rw [expand, Scanner.scan, Scanner.scan]
  exact congrArg (conclude expression) hscan

/-- What becomes of a text when a part in front of it was written already, so many bytes long. -/
def continued (written : Text) (bytes : Nat) : Except Failure Text → Except Failure Text
  | .ok text => .ok (written ++ text)
  | .error failure => .error (failure.map (·.shift bytes))

theorem continued_continued (written more : Text) (bytes further : Nat)
    (result : Except Failure Text) :
    continued written bytes (continued more further result) =
      continued (written ++ more) (further + bytes) result := by
  cases result with
  | ok text => exact congrArg Except.ok (List.append_assoc ..).symm
  | error failure => exact congrArg Except.error (failure.map_shift_shift ..)

theorem continued_nil (result : Except Failure Text) : continued [] 0 result = result := by
  cases result with
  | ok text => rfl
  | error failure => cases failure <;> rfl

theorem exists_of_continued_eq_ok {written out : Text} {bytes : Nat} {result : Except Failure Text}
    (h : continued written bytes result = .ok out) :
    ∃ text, result = .ok text ∧ out = written ++ text := by
  cases result with
  | error failure => cases h
  | ok text =>
      cases h
      exact ⟨text, rfl, rfl⟩

/-- What a text expands to that begins in some nesting. -/
inductive Expands (pragma : Text) : Nesting → Text → Except Failure Text → Prop where
  | unmarked {n t} (none : marker ∉ n.code t) : Expands pragma n t (.ok t)
  | unread {n front back failure} (first : Unmarked n front)
      (read : Reference.byHeader .method back = .error failure) :
      Expands pragma n (front ++ marker :: back)
        (.error (failure.map (·.shift (front.byteLength + 1))))
  | refused {n front back r failure} (first : Unmarked n front)
      (read : Reference.byHeader .method back = .ok r)
      (inside : ∀ a, r.arguments = some a →
        Expands pragma .outermost a.text (expand a.text pragma))
      (called : call (expand · pragma) pragma r = .error failure) :
      Expands pragma n (front ++ marker :: back)
        (.error (failure.map (·.shift (front.byteLength + 1))))
  | replaced {n front used rest r text result} (first : Unmarked n front)
      (read : Reference.byHeader .method (used ++ rest) = .ok r)
      (stop : r.stop = Text.byteLength used)
      (inside : ∀ a, r.arguments = some a →
        Expands pragma .outermost a.text (expand a.text pragma))
      (called : call (expand · pragma) pragma r = .ok text)
      (behind : Expands pragma (n.after front) rest result) :
      Expands pragma n (front ++ marker :: (used ++ rest))
        (continued (front ++ text) (Text.byteLength (front ++ marker :: used)) result)

section Loop

variable {pragma : Text} {n : Nesting} {t : Text} {result : Except Failure Text}

/-- The loop has come to the first marker, and replaces the reference behind it. -/
theorem replace_first (n : Nesting) (done pending front written : Text) {used rest text : Text}
    {r : Reference} (read : Reference.byHeader .method (used ++ rest) = .ok r)
    (stop : r.stop = Text.byteLength used) (called : call (expand · pragma) pragma r = .ok text) :
    replace (expand · pragma) pragma
        (.between (done ++ pending ++ front) (marker :: (used ++ rest)) n)
        ⟨written, done.byteLength⟩ =
      .ok ⟨written ++ (pending ++ front) ++ text,
        Text.byteLength (done ++ pending ++ front ++ marker :: used)⟩ := by
  have hreplace := replace_between (expand · pragma) pragma done (pending ++ front) (used ++ rest)
    written n
  have hmarker : marker.utf8Size = 1 := rfl
  have hplace : Text.byteLength used + (Text.byteLength (done ++ pending ++ front) + 1) =
      Text.byteLength (done ++ pending ++ front ++ marker :: used) := by
    rw [Text.byteLength_append _ (marker :: used), Text.byteLength, hmarker]
    omega
  rw [← List.append_assoc done, read] at hreplace
  simp only [called, stop, hplace] at hreplace
  exact hreplace

private theorem marker_place (before front : Text) :
    front.byteLength + 1 + before.byteLength = Text.byteLength (before ++ front) + 1 := by
  rw [Text.byteLength_append]
  omega

/-- The result of a derivation is what the loop comes to, wherever the text stands. -/
theorem Expands.conclude_eq (h : Expands pragma n t result) (done pending written : Text)
    {rounds : Nat} (hrounds : t.length < rounds) :
    conclude (done ++ pending ++ t)
        ((Scanner.between (done ++ pending) t n).scanFor (visitMarkers (expand · pragma) pragma)
          rounds ⟨written, done.byteLength⟩) =
      continued (written ++ pending) (Text.byteLength (done ++ pending)) result := by
  induction h generalizing done pending written rounds with
  | @unmarked n t none =>
      have hcut : Cut n t [] := cut_of_head (fun _ => nofun)
      obtain ⟨passed, hle, hscan⟩ := scanFor_unmarked (expand · pragma) pragma hcut none
        (done ++ pending) ⟨written, done.byteLength⟩
      have hsplit : rounds = passed + (rounds - passed - 1 + 1) := by omega
      have hrest := Text.rest?_append done (pending ++ t)
      rw [← List.append_assoc] at hrest
      rw [List.append_nil] at hscan
      rw [hsplit, hscan, Scanner.scanFor_end, conclude]
      dsimp only
      rw [hrest, continued, List.append_assoc]
  | @unread n front back failure first read =>
      obtain ⟨more, -, hscan⟩ := scanFor_first (expand · pragma) pragma first (done ++ pending)
        ⟨written, done.byteLength⟩ hrounds
      have hreplace := replace_between (expand · pragma) pragma done (pending ++ front) back written
        (n.after front)
      rw [← List.append_assoc done, read] at hreplace
      rw [hscan, scanFor_marker_error _ _ first.1 hreplace, conclude, continued,
        Failure.map_shift_shift, marker_place]
  | @refused n front back r failure first read inside called =>
      obtain ⟨more, -, hscan⟩ := scanFor_first (expand · pragma) pragma first (done ++ pending)
        ⟨written, done.byteLength⟩ hrounds
      have hreplace := replace_between (expand · pragma) pragma done (pending ++ front) back written
        (n.after front)
      rw [← List.append_assoc done, read] at hreplace
      simp only [called] at hreplace
      rw [hscan, scanFor_marker_error _ _ first.1 hreplace, conclude, continued,
        Failure.map_shift_shift, marker_place]
  | @replaced n front used rest r text result first read stop inside called behind _ ih =>
      obtain ⟨more, hmore, hscan⟩ := scanFor_first (expand · pragma) pragma first (done ++ pending)
        ⟨written, done.byteLength⟩ hrounds
      have hreplace := replace_first (n.after front) done pending front written read stop called
      have hrest : rest.length < more := by
        rw [List.length_append] at hmore
        omega
      have hbehind := ih (done ++ pending ++ front ++ marker :: used) []
        (written ++ (pending ++ front) ++ text) hrest
      have hsource : done ++ pending ++ front ++ marker :: used ++ [] ++ rest =
          done ++ pending ++ (front ++ marker :: (used ++ rest)) := by simp
      rw [hscan, scanFor_marker_ok _ _ first.1 hreplace, continued_continued]
      rw [hsource, List.append_nil, List.append_nil] at hbehind
      rw [hbehind]
      simp only [List.append_assoc, Text.byteLength_append]
      congr 1
      omega

theorem expand_eq_of_expands {e : Text} (h : Expands pragma .outermost e result) :
    expand e pragma = result := by
  have hrounds : e.length < e.byteLength + 1 := Nat.lt_succ_of_le (Text.length_le_byteLength e)
  have hloop := h.conclude_eq [] [] [] hrounds
  rw [expand_eq, Scanner.start_between]
  exact hloop.trans (continued_nil result)

theorem exists_expands (pragma : Text) (n : Nesting) (t : Text) :
    ∃ result, Expands pragma n t result := by
  cases unmarked_or_exists n t with
  | inl hnone => exact ⟨_, .unmarked hnone⟩
  | inr h =>
      obtain ⟨front, back, rfl, first⟩ := h
      cases hread : Reference.byHeader .method back with
      | error failure => exact ⟨_, .unread first hread⟩
      | ok r =>
          have hlies := Reference.lies_of_byHeader hread
          have hinside : ∀ a, r.arguments = some a →
              Expands pragma .outermost a.text (expand a.text pragma) := by
            intro a ha
            have hlen := hlies.length_arguments ha
            have hshorter : a.text.length < (front ++ marker :: back).length := by
              simp only [List.length_append, List.length_cons]
              omega
            obtain ⟨result, hresult⟩ := exists_expands pragma .outermost a.text
            rwa [expand_eq_of_expands hresult]
          cases hcall : call (expand · pragma) pragma r with
          | error failure => exact ⟨_, .refused first hread hinside hcall⟩
          | ok text =>
              obtain ⟨used, rest, rfl, hstop⟩ := hlies.exists_used
              have hshorter : rest.length < (front ++ marker :: (used ++ rest)).length := by
                simp only [List.length_append, List.length_cons]
                omega
              obtain ⟨result, hresult⟩ := exists_expands pragma (n.after front) rest
              exact ⟨_, .replaced first hread hstop hinside hcall hresult⟩
  termination_by t.length

theorem expands_expand (e pragma : Text) : Expands pragma .outermost e (expand e pragma) := by
  obtain ⟨result, h⟩ := exists_expands pragma .outermost e
  rwa [expand_eq_of_expands h]

/-- A text without a marker of code expands to itself. -/
theorem expand_of_unmarked {t : Text} (pragma : Text) (h : marker ∉ t.codeCharacters) :
    expand t pragma = .ok t := by
  rw [Text.codeCharacters_eq] at h
  exact expand_eq_of_expands (.unmarked h)

/-- A reference that can be read is called for, and the text behind it goes on from its marker. -/
theorem Expands.of_read {front used rest : Text} {r : Reference} (first : Unmarked n front)
    (read : Reference.byHeader .method (used ++ rest) = .ok r)
    (stop : r.stop = Text.byteLength used) (behind : Expands pragma (n.after front) rest result) :
    Expands pragma n (front ++ marker :: (used ++ rest))
      (match call (expand · pragma) pragma r with
      | .error failure => .error (failure.map (·.shift (front.byteLength + 1)))
      | .ok text =>
          continued (front ++ text) (Text.byteLength (front ++ marker :: used)) result) := by
  have inside : ∀ a, r.arguments = some a →
      Expands pragma .outermost a.text (expand a.text pragma) :=
    fun a _ => expands_expand a.text pragma
  cases called : call (expand · pragma) pragma r with
  | error failure => exact .refused first read inside called
  | ok text => exact .replaced first read stop inside called behind

/-- An expression with one reference in it expands to a call in place of the reference. -/
theorem expand_eq_of_read {front used rest name args operand : Text} {start : Nat}
    (first : Unmarked .outermost front)
    (read : Reference.byHeader .method (used ++ rest) =
      .ok ⟨name, some ⟨args, start⟩, Text.byteLength used⟩)
    (full : args.isAllBlank = false) (inside : expand args pragma = .ok operand)
    (others : marker ∉ (outermost.after front).code rest) :
    expand (front ++ marker :: (used ++ rest)) pragma =
      .ok (front ++ callByName pragma name [operand] ++ rest) := by
  have hbehind : Expands pragma (outermost.after front) rest (.ok rest) := .unmarked others
  have hexpands := Expands.of_read first read rfl hbehind
  rw [call] at hexpands
  dsimp only at hexpands
  rw [full, if_neg Bool.false_ne_true, inside] at hexpands
  exact expand_eq_of_expands hexpands

end Loop

end BindingCompiler.MethodCall
