import BindingCompiler.Proofs.Enclosure
import BindingCompiler.Proofs.Expansion

/-!
Which markers of an expression are replaced. The loop leaves the text between the parentheses of a
reference out and goes on as if nothing in it had been opened or closed. Where that is so, it comes
to the same places in the same nestings as a scan without interruption, and replaces the markers
that this scan shows in code; where it is not, the loop may take the rest of the expression for
something else.
-/

namespace BindingCompiler

/-- A character of a joined text is in the first part or in the second. -/
theorem Text.append_cases {front back mid rest : Text} {c : Char}
    (h : front ++ back = mid ++ c :: rest) :
    (∃ more, front = mid ++ c :: more) ∨
      ∃ more, mid = front ++ more ∧ back = more ++ c :: rest := by
  cases List.append_eq_append_iff.mp h with
  | inl h => exact .inr h
  | inr h =>
      obtain ⟨more, rfl, hrest⟩ := h
      cases more with
      | nil => exact .inr ⟨[], by simp, hrest.symm⟩
      | cons d more =>
          cases hrest
          exact .inl ⟨more, rfl⟩

namespace Nesting

theorem after_inert {n : Nesting} {t : Text} (hn : n.region = .code) (ht : ∀ c ∈ t, IsInert c) :
    n.after t = n :=
  after_of_pass? (pass?_inert hn ht)

end Nesting

namespace Reference

open Nesting

theorem arguments_shift {r : Reference} {a : Arguments} {bytes : Nat} (h : r.arguments = some a) :
    (r.shift bytes).arguments = some { a with start := a.start + bytes } := by
  rw [shift, h]
  rfl

/-- What a reference takes up is a name, and its arguments if it has any. -/
theorem Lies.used_cases {used rest : Text} {r : Reference} (h : Lies [] (used ++ rest) r)
    (stop : r.stop = Text.byteLength used) :
    (r.arguments = none ∧ IsNameText used) ∨
      ∃ front args : Text, r.arguments = some ⟨args, front.byteLength + 1⟩ ∧
        used = front ++ '(' :: (args ++ [')']) ∧ IsNameText front ∧
        (outermost.after args).region = .code := by
  generalize ht : used ++ rest = t at h
  cases h with
  | bare name =>
      have hall : used ++ rest = t ++ [] := by rw [ht, List.append_nil]
      obtain ⟨rfl, -⟩ := Text.append_inj hall stop.symm
      exact .inl ⟨rfl, name⟩
  | @applied front args back name code =>
      have hall : used ++ rest = front ++ '(' :: (args ++ [')']) ++ back := by rw [ht]; simp
      have hpar : Char.utf8Size '(' = 1 ∧ Char.utf8Size ')' = 1 := ⟨rfl, rfl⟩
      have hlen : used.byteLength = Text.byteLength (front ++ '(' :: (args ++ [')'])) := by
        rw [← stop]
        simp only [List.nil_append, Text.byteLength_append, Text.byteLength, hpar]
        omega
      obtain ⟨rfl, -⟩ := Text.append_inj hall hlen
      exact .inr ⟨front, args, rfl, rfl, name, code⟩

/-- A marker in what a reference takes up is in its arguments. -/
theorem Lies.marker_in_arguments {used rest mid more : Text} {r : Reference}
    (h : Lies [] (used ++ rest) r) (stop : r.stop = Text.byteLength used)
    (hmid : used = mid ++ MethodCall.marker :: more) :
    ∃ a, r.arguments = some a ∧ a.start ≤ Text.byteLength mid ∧
      Text.byteLength mid < a.start + a.text.byteLength := by
  have hname {t mid more : Text} (name : IsNameText t) :
      t ≠ mid ++ MethodCall.marker :: more := by
    intro ht
    have hpart := name MethodCall.marker (by rw [ht]; simp)
    exact absurd hpart (by decide)
  rcases h.used_cases stop with ⟨-, name⟩ | ⟨front, args, hargs, hused, name, -⟩
  · exact absurd hmid (hname name)
  · refine ⟨_, hargs, ?_⟩
    rw [hused] at hmid
    rcases Text.append_cases hmid with ⟨others, hfront⟩ | ⟨others, rfl, hothers⟩
    · exact absurd hfront (hname name)
    · cases others with
      | nil => cases hothers
      | cons c others =>
          obtain ⟨rfl, htail⟩ := List.cons.inj hothers
          have hopen : Text.byteLength ('(' :: others) = Text.byteLength others + 1 :=
            Nat.add_comm ..
          rw [Text.byteLength_append, hopen]
          rcases Text.append_cases htail with ⟨beyond, rfl⟩ | ⟨beyond, rfl, hbeyond⟩
          · have hmarker := Char.utf8Size_pos MethodCall.marker
            simp only [Text.byteLength_append, Text.byteLength]
            omega
          · cases beyond with
            | nil => cases hbeyond
            | cons d beyond => simp at hbeyond

/-- A reference leaves the nesting of its marker as it was if its arguments do. -/
theorem Lies.after_used {used rest : Text} {r : Reference} (h : Lies [] (used ++ rest) r)
    (stop : r.stop = Text.byteLength used) {n : Nesting} (hn : n.region = .code)
    (ha : ∀ a, r.arguments = some a → n.after a.text = n) : n.after used = n := by
  rcases h.used_cases stop with ⟨-, name⟩ | ⟨front, args, hargs, rfl, name, -⟩
  · exact after_inert hn name.isInert
  · have hfront := after_inert hn name.isInert
    have hopen : n.after ['('] = n := after_inert hn (isInert_of_all (by decide))
    have hclose : n.after [')'] = n := after_inert hn (isInert_of_all (by decide))
    have hinside : n.after args = n := ha _ hargs
    have hsplit : front ++ '(' :: (args ++ [')']) = front ++ (['('] ++ (args ++ [')'])) := rfl
    rw [hsplit, (cut_of_code (by rwa [hfront])).after_append, hfront,
      (cut_of_code (by rwa [hopen])).after_append, hopen,
      (cut_of_code (by rwa [hinside])).after_append, hinside, hclose]

end Reference

namespace MethodCall

open Nesting

/-- The loop of an expression comes to a marker of code, and the reference behind it can be read. -/
structure Replaces (expression pragma : Text) (s : Scanner) (r : Reference) : Prop where
  comes : ∃ progress, Scanner.ComesTo (visitMarkers (expand · pragma) pragma)
    (.start expression) ⟨[], 0⟩ s progress
  code : s.inCode = true
  marked : s.here? = some marker
  read : Reference.read .method s.source (s.position + 1) = .ok r

/-- The loop of an expression comes to a place, and has accounted for some of the text in front. -/
def Passes (expression pragma before rest : Text) (n : Nesting) : Prop :=
  ∃ done pending written, before = done ++ pending ∧
    Scanner.ComesTo (visitMarkers (expand · pragma) pragma) (.start expression) ⟨[], 0⟩
      (.between before rest n) ⟨written, Text.byteLength done⟩

section Passing

variable {e pragma before front back used rest text : Text} {n : Nesting} {r : Reference}

theorem Passes.start (e pragma : Text) : Passes e pragma [] e .outermost := by
  refine ⟨[], [], [], rfl, ?_⟩
  rw [← Scanner.start_between]
  exact .refl _ _

/-- The loop comes to the first marker of what lies in front of it. -/
theorem Passes.first (h : Passes e pragma before (front ++ marker :: back) n)
    (first : Unmarked n front) :
    Passes e pragma (before ++ front) (marker :: back) (n.after front) := by
  obtain ⟨done, pending, written, rfl, hcomes⟩ := h
  refine ⟨done, pending ++ front, written, List.append_assoc .., hcomes.trans ?_⟩
  obtain ⟨passed, -, hscan⟩ := scanFor_unmarked (expand · pragma) pragma
    (cut_of_code first.1 : Cut n front (marker :: back)) first.2 (done ++ pending)
    ⟨written, done.byteLength⟩
  exact ⟨passed, hscan 0⟩

theorem Passes.replaces (h : Passes e pragma before (marker :: back) n) (hn : n.region = .code)
    (read : Reference.byHeader .method back = .ok r) :
    Replaces e pragma (.between before (marker :: back) n) (r.shift (before.byteLength + 1)) := by
  obtain ⟨done, pending, written, rfl, hcomes⟩ := h
  refine ⟨⟨_, hcomes⟩, Scanner.inCode_between hn, rfl, ?_⟩
  have hread := Reference.read_eq .method (done ++ pending ++ [marker]) back
  have hmarker : Text.byteLength (done ++ pending ++ [marker]) =
      Text.byteLength (done ++ pending) + 1 := Text.byteLength_append ..
  rw [hmarker, read, List.append_assoc] at hread
  exact hread

/-- Behind a reference the loop goes on in the nesting of its marker. -/
theorem Passes.behind (h : Passes e pragma before (marker :: (used ++ rest)) n)
    (hn : n.region = .code) (read : Reference.byHeader .method (used ++ rest) = .ok r)
    (stop : r.stop = Text.byteLength used) (called : call (expand · pragma) pragma r = .ok text) :
    Passes e pragma (before ++ marker :: used) rest n := by
  obtain ⟨done, pending, written, rfl, hcomes⟩ := h
  have hreplace := replace_first n done pending [] written read stop called
  rw [List.append_nil, List.append_nil] at hreplace
  refine ⟨done ++ pending ++ marker :: used, [], written ++ pending ++ text,
    (List.append_nil _).symm, hcomes.trans ?_⟩
  exact ⟨1, scanFor_marker_ok _ _ hn hreplace⟩

end Passing

section Uninterrupted

variable {e pragma : Text}

/-- The parts of a text on either side of its markers, marker after marker. -/
def aroundMarkers : Text → List (Text × Text)
  | [] => []
  | c :: t =>
      let others := (aroundMarkers t).map fun (front, back) => (c :: front, back)
      if c = marker then ([], t) :: others else others

theorem mem_aroundMarkers (front back : Text) :
    (front, back) ∈ aroundMarkers (front ++ marker :: back) := by
  induction front with
  | nil =>
      rw [List.nil_append, aroundMarkers]
      exact List.mem_cons_self ..
  | cons c front ih =>
      have hothers : (c :: front, back) ∈
          (aroundMarkers (front ++ marker :: back)).map fun (front, back) => (c :: front, back) :=
        List.mem_map.mpr ⟨_, ih, rfl⟩
      rw [List.cons_append, aroundMarkers]
      dsimp only
      split
      · exact List.mem_cons_of_mem _ hothers
      · exact hothers

/-- Every reference that is replaced leaves the nesting of its marker as it was. -/
def LeavesNestings (e pragma : Text) : Prop :=
  ∀ s r a, Replaces e pragma s r → r.arguments = some a → s.nesting.after a.text = s.nesting

theorem LeavesNestings.near (h : LeavesNestings e pragma) {s : Scanner} {near : Reference}
    {bytes : Nat} (hr : Replaces e pragma s (near.shift bytes)) :
    ∀ a, near.arguments = some a → s.nesting.after a.text = s.nesting :=
  fun a ha => h s _ { a with start := a.start + bytes } hr (Reference.arguments_shift ha)

/-- The place lies in the arguments of a reference that is replaced. -/
def InsideArguments (e pragma : Text) (position : Nat) : Prop :=
  ∃ s r a, Replaces e pragma s r ∧ r.arguments = some a ∧ a.start ≤ position ∧
    position < a.start + a.text.byteLength

/-- A marker of code in joined texts is one of the first text alone, or lies in the second. -/
theorem mem_code_or_behind {before front back : Text} {n : Nesting} {s : Scanner}
    (h : (Scanner.between before (front ++ back) n).Reaches s) (hcode : s.inCode = true)
    (hhere : s.here? = some marker) :
    marker ∈ n.code front ∨ marker ∈ back ∧ Text.byteLength (before ++ front) ≤ s.position := by
  obtain ⟨mid, rest, hsplit, -, rfl⟩ := Scanner.exists_cut_of_reaches h
  rw [Scanner.inCode_eq_true_iff, Scanner.nesting_between] at hcode
  obtain ⟨others, rfl⟩ := List.head?_eq_some_iff.mp hhere
  rcases Text.append_cases hsplit with ⟨more, rfl⟩ | ⟨more, rfl, rfl⟩
  · have hcut : Cut n mid (marker :: more) := cut_of_code hcode
    rw [hcut.code_append, code_visit (reads_marker hcode), if_pos hcode]
    exact .inl (List.mem_append_right _ (List.mem_cons_self ..))
  · rw [Scanner.position_between, ← List.append_assoc, Text.byteLength_append (before ++ front)]
    exact .inr ⟨by simp, Nat.le_add_right ..⟩

/-- A marker that the uninterrupted scan shows in code is replaced, or lies in the arguments of a
reference that is. -/
theorem Expands.exists_replaces (hleaves : LeavesNestings e pragma) {n : Nesting} {t : Text}
    {result : Except Failure Text} (h : Expands pragma n t result) {out : Text}
    (hout : result = .ok out) {before : Text} (hpasses : Passes e pragma before t n) {s : Scanner}
    (hs : (Scanner.between before t n).Reaches s) (hcode : s.inCode = true)
    (hhere : s.here? = some marker) (houtside : ¬ InsideArguments e pragma s.position) :
    ∃ r, Replaces e pragma s r := by
  induction h generalizing before out with
  | @unmarked n t none =>
      rw [← List.append_nil t] at hs
      rcases mem_code_or_behind hs hcode hhere with hmem | ⟨hmem, -⟩
      · exact absurd hmem none
      · cases hmem
  | unread => cases hout
  | refused => cases hout
  | @replaced n front used rest r text result first read stop inside called behind _ ih =>
      have hmarker := hpasses.first first
      have hreplaces := hmarker.replaces first.1 read
      have hlies := Reference.lies_of_byHeader read
      have hused : (n.after front).after used = n.after front :=
        hlies.after_used stop first.1 (hleaves.near hreplaces)
      have hfront : Cut n front (marker :: (used ++ rest)) := cut_of_code first.1
      rcases Scanner.reaches_across hfront hs with hlt | hs
      · rcases mem_code_or_behind hs hcode hhere with hmem | ⟨-, hle⟩
        · exact absurd hmem first.2
        · omega
      · rw [Scanner.reaches_visit (reads_marker first.1), settled_of_code first.1] at hs
        rcases hs with rfl | hs
        · exact ⟨_, hreplaces⟩
        · have hcut : Cut (n.after front) used rest := cut_of_code (by rw [hused]; exact first.1)
          have hbefore : before ++ front ++ [marker] ++ used =
              before ++ front ++ marker :: used := by simp
          rcases Scanner.reaches_across hcut hs with hlt | hs
          · obtain ⟨mid, others, hsplit, -, rfl⟩ := Scanner.exists_cut_of_reaches hs
            obtain ⟨others, rfl⟩ := List.head?_eq_some_iff.mp hhere
            rw [Scanner.position_between] at hlt houtside
            rcases Text.append_cases hsplit with ⟨more, hmid⟩ | ⟨more, rfl, -⟩
            · obtain ⟨a, ha, hstart, hend⟩ := hlies.marker_in_arguments stop hmid
              have hplace : Text.byteLength (before ++ front ++ [marker] ++ mid) =
                  mid.byteLength + (Text.byteLength (before ++ front) + 1) := by
                have hone : marker.utf8Size = 1 := rfl
                simp only [Text.byteLength_append, Text.byteLength, hone]
                omega
              refine absurd ⟨_, _, _, hreplaces, Reference.arguments_shift ha, ?_, ?_⟩ houtside
              · rw [hplace]
                exact Nat.add_le_add_right hstart _
              · dsimp only
                omega
            · rw [← List.append_assoc,
                Text.byteLength_append (before ++ front ++ [marker] ++ used)] at hlt
              omega
          · rw [hused, hbefore] at hs
            obtain ⟨others, hothers, -⟩ := exists_of_continued_eq_ok hout
            exact ih hothers (hmarker.behind first.1 read stop called) hs

/-- The reference that is replaced is the one that stands behind the marker, and the loop goes on
where it ends. -/
theorem Replaces.exists_used {front back : Text} {s : Scanner} {r : Reference}
    (h : Replaces e pragma s r) (hsource : s.source = front ++ marker :: back)
    (hplace : s.position = front.byteLength) :
    ∃ used rest near, back = used ++ rest ∧ Reference.byHeader .method back = .ok near ∧
      near.stop = Text.byteLength used ∧ r = near.shift (front.byteLength + 1) ∧
      r.stop = Text.byteLength (front ++ marker :: used) := by
  have hread := h.read
  rw [hsource, hplace] at hread
  exact exists_used_of_read hread

/-- The loop comes to a marker where the expression has one. -/
theorem exists_of_comesTo_marker {s : Scanner} {progress : Progress}
    (hcomes : Scanner.ComesTo (visitMarkers (expand · pragma) pragma) (.start e) ⟨[], 0⟩ s progress)
    (hhere : s.here? = some marker) :
    ∃ front back, e = front ++ marker :: back ∧ s.position = front.byteLength := by
  have hsource : s.source = e := hcomes.source_eq
  rw [Scanner.here?, s.ahead_eq, hsource] at hhere
  obtain ⟨front, back, he, hplace⟩ := Text.exists_of_onward hhere
  exact ⟨front, back, he, hplace.symm⟩

/-- A reference that is replaced stands behind some marker of the expression. -/
theorem Replaces.exists_marker {s : Scanner} {r : Reference} (h : Replaces e pragma s r) :
    ∃ front back near, (front, back) ∈ aroundMarkers e ∧
      Reference.byHeader .method back = .ok near ∧ r = near.shift (Text.byteLength front + 1) := by
  obtain ⟨progress, hcomes⟩ := h.comes
  obtain ⟨front, back, rfl, hplace⟩ := exists_of_comesTo_marker hcomes h.marked
  obtain ⟨used, rest, near, -, hnear, -, hr, -⟩ := h.exists_used hcomes.source_eq hplace
  exact ⟨front, back, near, mem_aroundMarkers front back, hnear, hr⟩

/-- If the uninterrupted scan comes to a marker, it comes to the place behind the reference too,
with the nesting in which the loop goes on there. -/
theorem Replaces.reaches_behind (hleaves : LeavesNestings e pragma) {s : Scanner} {r : Reference}
    (h : Replaces e pragma s r) (hs : (Scanner.start e).Reaches s) :
    (Scanner.start e).Reaches (s.moveTo r.stop) := by
  refine hs.trans ?_
  rw [Scanner.start_between] at hs
  obtain ⟨front, rest, rfl, -, rfl⟩ := Scanner.exists_cut_of_reaches hs
  obtain ⟨back, rfl⟩ := List.head?_eq_some_iff.mp h.marked
  have hcode : (outermost.after front).region = .code := (Scanner.inCode_eq_true_iff _).mp h.code
  obtain ⟨used, rest, near, rfl, hnear, hstop, rfl, hend⟩ := h.exists_used rfl rfl
  have hused : (outermost.after front).after (marker :: used) = outermost.after front := by
    rw [after_visit (reads_marker hcode), settled_of_code hcode]
    exact (Reference.lies_of_byHeader hnear).after_used hstop hcode (hleaves.near h)
  have hplace := Scanner.moveTo_between front (marker :: used) rest (outermost.after front)
  have hcut : Cut (outermost.after front) (marker :: used) rest :=
    cut_of_code (by rw [hused]; exact hcode)
  have hreaches := Scanner.reaches_cut hcut front
  rw [hused, ← hplace] at hreaches
  rw [hend]
  exact hreaches

theorem exists_read_of_replace {expand : Text → Except Failure Text} {s : Scanner}
    {progress next : Progress} (h : replace expand pragma s progress = .ok next) :
    ∃ r, Reference.read .method s.source (s.position + 1) = .ok r ∧ next.done = r.stop := by
  rw [replace] at h
  obtain ⟨r, hread, h⟩ := exists_of_bind_eq_ok h
  refine ⟨r, hread, ?_⟩
  split at h
  · obtain ⟨text, -, h⟩ := exists_of_bind_eq_ok h
    cases h
    rfl
  · cases h

/-- A round of the loop from a place of the uninterrupted scan leads to a place of that scan. -/
theorem reaches_of_round (hleaves : LeavesNestings e pragma) {t s : Scanner} {m progress : Progress}
    (ht : (Scanner.start e).Reaches t)
    (hcomes : Scanner.ComesTo (visitMarkers (expand · pragma) pragma) (.start e) ⟨[], 0⟩ t m)
    (h : t.scanFor (visitMarkers (expand · pragma) pragma) 1 m = .unfinished s progress) :
    (Scanner.start e).Reaches s := by
  have hstart := ht
  rw [Scanner.start_between] at hstart
  obtain ⟨front, rest, -, -, rfl⟩ := Scanner.exists_cut_of_reaches hstart
  rw [List.nil_append] at ht hcomes h
  generalize outermost.after front = n at ht hcomes h
  cases rest with
  | nil => cases h
  | cons c rest =>
      have hr := reads_read n c rest.head?
      cases hread : n.read (some c) rest.head? with
      | skip width next =>
          rw [hread] at hr
          rcases hr.skip_cases with rfl | ⟨rfl, rfl, hnext, hregion, rfl⟩
          · rw [Scanner.scanFor_skip hr] at h
            cases h
            exact ht.trans ((Scanner.reaches_skip hr).mpr (.inr .refl))
          · obtain ⟨rest, rfl⟩ := List.head?_eq_some_iff.mp hnext
            obtain ⟨region, d, ops⟩ := n
            cases hregion
            rw [Scanner.scanFor_opening] at h
            cases h
            exact ht.trans (Scanner.reaches_opening.mpr (.inr .refl))
      | visit within =>
          rw [hread] at hr
          by_cases hmarker : within.region = .code ∧ c = marker
          · obtain ⟨hcode, rfl⟩ := hmarker
            have hn : n.region = .code := hr.region_visit.symm.trans hcode
            cases hreplace : replace (expand · pragma) pragma
                (.between front (marker :: rest) n) m with
            | error failure =>
                rw [scanFor_marker_error _ _ hn hreplace] at h
                cases h
            | ok next =>
                obtain ⟨r, hread, hdone⟩ := exists_read_of_replace hreplace
                have hreplaces : Replaces e pragma (.between front (marker :: rest) n) r :=
                  ⟨⟨m, hcomes⟩, Scanner.inCode_between hn, rfl, hread⟩
                have hbehind := hreplaces.reaches_behind hleaves ht
                obtain ⟨used, rest, near, rfl, -, -, -, hend⟩ := hreplaces.exists_used rfl rfl
                have hnext : next = ⟨next.written, Text.byteLength (front ++ marker :: used)⟩ := by
                  rw [← hend, ← hdone]
                have hplace := Scanner.moveTo_between front (marker :: used) rest n
                rw [hnext] at hreplace
                rw [scanFor_marker_ok _ _ hn hreplace] at h
                cases h
                rw [← hplace, ← hend]
                exact hbehind
          · rw [Scanner.scanFor_next hr (visitMarkers_other _ _ m hmarker)] at h
            cases h
            exact ht.trans ((Scanner.reaches_visit hr).mpr (.inr .refl))

/-- The loop comes to no place but those of the uninterrupted scan. -/
theorem reaches_of_comesTo (hleaves : LeavesNestings e pragma) {s : Scanner} {progress : Progress}
    (h : Scanner.ComesTo (visitMarkers (expand · pragma) pragma) (.start e) ⟨[], 0⟩ s progress) :
    (Scanner.start e).Reaches s := by
  obtain ⟨rounds, h⟩ := h
  induction rounds generalizing s progress with
  | zero =>
      cases h
      exact .refl
  | succ rounds ih =>
      rw [Scanner.scanFor_add] at h
      split at h
      · next t m hscan => exact reaches_of_round hleaves (ih hscan) ⟨rounds, hscan⟩ h
      · next hended => exact absurd h (hended s progress)

/-- Where every replaced reference leaves the nesting as it was, the markers that are replaced are
those that the uninterrupted scan shows in code, but for the arguments of replaced references, and
the loop goes on in the nesting of that scan. -/
theorem replaced_iff_reached {out : Text} (h : expand e pragma = .ok out)
    (hleaves : LeavesNestings e pragma) :
    (∀ s : Scanner, s.inCode = true → s.here? = some marker →
      ¬ InsideArguments e pragma s.position →
      ((∃ r, Replaces e pragma s r) ↔ (Scanner.start e).Reaches s)) ∧
    ∀ s r, Replaces e pragma s r → (Scanner.start e).Reaches (s.moveTo r.stop) := by
  refine ⟨?_, ?_⟩
  · intro s hcode hhere houtside
    constructor
    · intro hr
      obtain ⟨r, hr⟩ := hr
      obtain ⟨progress, hcomes⟩ := hr.comes
      exact reaches_of_comesTo hleaves hcomes
    · intro hs
      have hexpands := expands_expand e pragma
      rw [h] at hexpands
      rw [Scanner.start_between] at hs
      exact hexpands.exists_replaces hleaves rfl (.start e pragma) hs hcode hhere houtside
  · intro s r hr
    obtain ⟨progress, hcomes⟩ := hr.comes
    exact hr.reaches_behind hleaves (reaches_of_comesTo hleaves hcomes)

end Uninterrupted

theorem replaced_iff_reached_call :
    expand "#f(x)#g".toList "$commit".toList =
      .ok "$commit(\x27f\x27, x)$commit(\x27g\x27)".toList ∧
    LeavesNestings "#f(x)#g".toList "$commit".toList ∧
    ∃ r, Replaces "#f(x)#g".toList "$commit".toList
      (.between "#f(x)".toList "#g".toList .outermost) r := by
  have hargs : expand "x".toList "$commit".toList = .ok "x".toList :=
    expand_of_unmarked _ (by decide)
  have hlast : Expands "$commit".toList outermost "#g".toList (.ok "$commit(\x27g\x27)".toList) :=
    @Expands.of_read _ _ (.ok []) [] "g".toList [] ⟨"g".toList, none, 1⟩ ⟨rfl, by decide⟩ rfl rfl
      (.unmarked (by decide))
  have hread : Reference.byHeader .method ("f(x)".toList ++ "#g".toList) =
      .ok ⟨"f".toList, some ⟨"x".toList, 2⟩, 4⟩ := rfl
  have hcall := expand_eq_of_expands
    (@Expands.of_read _ outermost _ [] _ _ _ ⟨rfl, by decide⟩ hread rfl hlast)
  rw [call] at hcall
  dsimp only at hcall
  rw [hargs] at hcall
  have hresult : expand "#f(x)#g".toList "$commit".toList =
      .ok "$commit(\x27f\x27, x)$commit(\x27g\x27)".toList := hcall
  have hplaces {s : Scanner} {r : Reference} {a : Arguments}
      (h : Replaces "#f(x)#g".toList "$commit".toList s r) (ha : r.arguments = some a) :
      a = ⟨"x".toList, 3⟩ := by
    obtain ⟨front, back, near, hsplit, hnear, rfl⟩ := h.exists_marker
    have hplaces : (front, back) ∈ [([], "f(x)#g".toList), ("#f(x)".toList, "g".toList)] := hsplit
    simp only [List.mem_cons, List.not_mem_nil, or_false, Prod.mk.injEq] at hplaces
    rcases hplaces with ⟨rfl, rfl⟩ | ⟨rfl, rfl⟩
    · cases hread.symm.trans hnear
      cases ha
      rfl
    · have hbare : Reference.byHeader .method "g".toList = .ok ⟨"g".toList, none, 1⟩ := rfl
      cases hbare.symm.trans hnear
      cases ha
  have hleaves : LeavesNestings "#f(x)#g".toList "$commit".toList := by
    intro s r a h ha
    rw [hplaces h ha]
    exact after_inert ((Scanner.inCode_eq_true_iff s).mp h.code) (isInert_of_all (by decide))
  have houtside : ¬ InsideArguments "#f(x)#g".toList "$commit".toList 5 := by
    intro h
    obtain ⟨s, r, a, h, ha, -, hlt⟩ := h
    rw [hplaces h ha] at hlt
    exact absurd hlt (by decide)
  have hcut : Cut outermost "#f(x)".toList "#g".toList := cut_of_code rfl
  refine ⟨hresult, hleaves, ((replaced_iff_reached hresult hleaves).1 _ rfl rfl houtside).mpr ?_⟩
  exact Scanner.start_between ▸ Scanner.reaches_cut hcut []

/-- A brace that the arguments leave open is left out with them. The brace that would close it then
closes the interpolation, and the marker behind it is taken for text of the template literal. -/
theorem marker_missed_behind_brace :
    Text.codeCharacters "\x60$\x7b#a(\x7b)\x7d#b()\x60".toList = "#a(\x7b)\x7d#b()".toList ∧
    expand "\x60$\x7b#a(\x7b)\x7d#b()\x60".toList "$commit".toList =
      .ok "\x60$\x7b$commit(\x27a\x27, \x7b)\x7d#b()\x60".toList := by
  refine ⟨by decide +kernel, ?_⟩
  have hargs : expand "\x7b".toList "$commit".toList = .ok "\x7b".toList :=
    expand_of_unmarked _ (by decide)
  have hread : Reference.byHeader .method ("a(\x7b)".toList ++ "\x7d#b()\x60".toList) =
      .ok ⟨"a".toList, some ⟨"\x7b".toList, 2⟩, 4⟩ := rfl
  exact @expand_eq_of_read _ "\x60$\x7b".toList _ _ _ _ _ _ ⟨rfl, by decide⟩ hread rfl hargs
    (by decide)

end MethodCall

end BindingCompiler
