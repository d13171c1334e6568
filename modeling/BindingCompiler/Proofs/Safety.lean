import BindingCompiler.Proofs.Boundaries
import BindingCompiler.Proofs.Counts
import BindingCompiler.Proofs.Replacements
import BindingCompiler.Proofs.Windows

/-!
Nothing is out of range. Of every pass over a text: each slice lies between two boundaries in order,
each count stays above zero where it is counted down and below the bound that the length of the text
stays below, each jump goes forward, and each text that is compiled in turn is shorter. So every
pass ends, with a text or with a problem whose excerpt can be cut.
-/

namespace BindingCompiler

/-- A text came out, or a problem inside the source, and the window around its place fits whatever
text it is cut from. -/
def Reported (source : Text) : Except Failure Text → Prop
  | .ok _ => True
  | .error (.problem p) => p.position ≤ source.byteLength ∧
      ∀ shown padding, (Window.around shown p.position padding).Fits shown
  | .error .stuck => False

theorem reported_of_evident {t : Text} {result : Except Failure Text}
    (h : ∀ failure, result = .error failure → failure.Evident t) : Reported t result := by
  cases result with
  | ok out => trivial
  | error failure =>
      have hshown := h failure rfl
      cases failure with
      | stuck => exact hshown
      | problem p =>
          exact ⟨Cause.Evident.le_byteLength hshown,
            fun shown => Window.fits_around shown p.position⟩

theorem Nesting.read_of_plain {n : Nesting} {c : Char} {next : Option Char}
    (hn : n.region = .code) (hc : IsPlain c) : n.read (some c) next = .visit n := by
  obtain ⟨region, d, ops⟩ := n
  cases hn
  exact (Reads.plain hc).read_eq

theorem Scanner.atEnd_of_here? {s : Scanner} {c : Char} (h : s.here? = some c) :
    s.atEnd = false := by
  obtain ⟨source, position, nesting, pending, ⟨leftover, chars⟩, hahead⟩ := s
  cases chars with
  | nil => cases leftover <;> cases h
  | cons d chars => exact Bool.and_false _

/-- If the visitor fails at a plain character of code that a scan comes to, so does the scan, once
it has rounds enough. -/
theorem Scanner.ComesTo.failed_at_plain {σ ε : Type} {visit : Visitor σ ε} {s t : Scanner}
    {memory m : σ} (h : ComesTo visit s memory t m) (hcode : t.inCode = true) {c : Char}
    (hhere : t.here? = some c) (hc : Nesting.IsPlain c) {error : ε}
    (hv : (visit t m).verdict = .fail error) (rounds : Nat) :
    (∃ u k, s.scanFor visit rounds memory = .unfinished u k) ∨
      ∃ u k, s.scanFor visit rounds memory = .failed u k error := by
  have hread : t.nesting.read t.here? t.next? = .visit t.nesting := by
    rw [hhere]
    exact Nesting.read_of_plain ((inCode_eq_true_iff t).mp hcode) hc
  exact h.failed (atEnd_of_here? hhere) hread hv rounds

namespace Reference

/-- The arguments that a parenthesis opens, behind a name that begins at an offset. -/
structure ArgumentsSafe (bound : Nat) (source : Text) (start : Nat) (opening : Scanner) :
    Prop where
  name : source.Spans start opening.position
  counts : opening.advance.CountsBelow bound visitArguments id 1
  positive : ∀ s depth, Scanner.ComesTo visitArguments opening.advance 1 s depth → 0 < depth
  closed : ∀ closing depth, opening.advance.scan visitArguments 1 = .stopped closing depth →
    source.Spans opening.advance.position closing.position

/-- Nothing is out of range when a reference is read. -/
structure Safe (bound : Nat) (kind : ReferenceKind) (source : Text) (offset : Nat) : Prop where
  rest : source.Spans (Scanner.startAt source offset).position source.byteLength
  counts : (Scanner.startAt source offset).CountsBelow bound (visitName kind) (fun _ => 0)
    (Scanner.startAt source offset).position
  arguments : ∀ opening seen,
    (Scanner.startAt source offset).scan (visitName kind)
        (Scanner.startAt source offset).position = .stopped opening seen →
      ArgumentsSafe bound source (Scanner.startAt source offset).position opening

theorem visitArguments_countsUp : visitArguments.CountsUp id := by
  intro s depth
  simp only [visitArguments, Visitor.onCode]
  split
  · split
    all_goals simp only [Reaction.next, Reaction.fail, Reaction.stop, id]
    all_goals omega
  · exact Nat.le_succ _

theorem visitArguments_positive (s : Scanner) (depth : Nat) (h : 0 < depth) :
    (visitArguments s depth).verdict = .next → 0 < (visitArguments s depth).memory := by
  simp only [visitArguments, Visitor.onCode]
  split
  · split
    · exact fun _ => Nat.succ_pos _
    · exact absurd h (Nat.lt_irrefl _)
    · intro hnext
      cases hnext
    · exact fun _ => Nat.succ_pos _
    · exact fun _ => h
  · exact fun _ => h

theorem visitName_countsUp (kind : ReferenceKind) : (visitName kind).CountsUp (fun _ => 0) :=
  fun _ _ => Nat.zero_le _

theorem safe_append {bound : Nat} (kind : ReferenceKind) (before t : Text)
    (h : Text.byteLength (before ++ t) < bound) :
    Safe bound kind (before ++ t) before.byteLength := by
  have hlen := h
  rw [Text.byteLength_append] at hlen
  refine ⟨?_, ?_, ?_⟩
  all_goals rw [Scanner.startAt_between, Scanner.position_between]
  · have hspans := Text.spans_append before t []
    rwa [List.append_nil] at hspans
  · apply Scanner.countsBelow_outermost (visitName_quiet kind).forward (visitName_countsUp kind)
    omega
  · intro opening seen hscan
    obtain ⟨header, rest, rfl, rfl⟩ := exists_of_scan_visitName hscan
    have hopen : Char.utf8Size '(' = 1 := rfl
    rw [Text.byteLength_append, Text.byteLength, hopen] at hlen
    refine ⟨Text.spans_append before header ('(' :: rest), ?_, ?_, ?_⟩
    all_goals rw [Scanner.advance_between]
    · apply Scanner.countsBelow_outermost visitArguments_quiet.forward visitArguments_countsUp
      rw [id]
      omega
    · exact fun s depth hs => hs.holds Nat.one_pos visitArguments_positive
    · intro closing depth hclosing
      obtain ⟨args, others, rfl, rfl⟩ := exists_of_scan_visitArguments hclosing
      have hspans := Text.spans_append (before ++ header ++ ['(']) args (')' :: others)
      simp only [List.append_assoc, List.singleton_append] at hspans ⊢
      exact hspans

/-- A reference begins where the source can be cut, and nowhere else. -/
theorem read_eq_stuck_iff (kind : ReferenceKind) (source : Text) (offset : Nat) :
    read kind source offset = .error .stuck ↔
      ¬ source.IsBoundary (min offset source.byteLength) := by
  refine ⟨?_, read_eq_stuck⟩
  rintro h ⟨before, t, rfl, hplace⟩
  rw [read_min, ← hplace, read_eq] at h
  cases hr : byHeader kind t with
  | ok r =>
      rw [hr] at h
      cases h
  | error failure =>
      obtain ⟨cause, hcause, -⟩ := kind?_of_byHeader hr
      cases failure with
      | stuck => cases hcause
      | problem p =>
          rw [hr] at h
          cases h

end Reference

namespace FilterChain

/-- Nothing is out of range when a chain is compiled. -/
structure Safe (bound : Nat) (pragma e : Text) : Prop where
  counts : (Scanner.start e).CountsBelow bound visitSegments (·.brackets) ⟨0, 0, []⟩
  separator : ∀ s progress,
    Scanner.ComesTo visitSegments (.start e) ⟨0, 0, []⟩ s progress → s.inCode = true →
      s.nesting.depth = 0 → progress.brackets = 0 → onSeparator s = true →
        0 < s.position ∧ e.Spans progress.start (s.position - 1)
  last : ∀ s progress, (Scanner.start e).scan visitSegments ⟨0, 0, []⟩ = .atEnd s progress →
    e.Spans progress.start e.byteLength
  filters : ∀ segments, split e = .ok segments → ∀ segment ∈ segments,
    Reference.Safe bound .filter segment.text.trim 0
  behind : ∀ (filter : Text) r, Reference.read .filter filter 0 = .ok r →
    filter.Spans r.stop filter.byteLength
  reported : Reported e (compile e pragma)

theorem visitSegments_countsUp : visitSegments.CountsUp (·.brackets) := by
  intro s progress
  have hcount : s.here?.elim progress.brackets (countBracket · progress.brackets) ≤
      progress.brackets + 1 := by
    cases s.here? with
    | none => exact Nat.le_succ _
    | some c =>
        simp only [Option.elim_some, countBracket]
        split
        · exact Nat.le_refl _
        · split
          · omega
          · exact Nat.le_succ _
  simp only [visitSegments, Visitor.onCode]
  split
  · split
    · split
      · exact hcount
      · exact Nat.le_succ _
    · exact hcount
  · exact Nat.le_succ _

/-- In front of a separator at the top, a segment ends that can be cut out. -/
theorem spans_of_separator {e : Text} {s : Scanner} {progress : Progress}
    (hcomes : Scanner.ComesTo visitSegments (.start e) ⟨0, 0, []⟩ s progress)
    (hcode : s.inCode = true) (hdepth : s.nesting.depth = 0) (hbrackets : progress.brackets = 0)
    (hseparator : onSeparator s = true) :
    0 < s.position ∧ e.Spans progress.start (s.position - 1) := by
  have hsource : s.source = e := hcomes.source_eq
  obtain ⟨hhere, hbefore⟩ : s.here? = some '>' ∧ s.before? = some '|' := by
    simpa [onSeparator] using hseparator
  refine ⟨?_, ?_⟩
  · apply Nat.pos_of_ne_zero
    intro hzero
    rw [Scanner.before?, if_pos hzero] at hbefore
    cases hbefore
  · rw [← Text.isSome_slice?_iff, ← hsource]
    cases hslice : s.source.slice? progress.start (s.position - 1) with
    | some text => rfl
    | none =>
        -- The visitor would fail here, and the segments of no expression are out of reach.
        have hv : (visitSegments s progress).verdict = .fail .stuck := by
          have hcount : countBracket '>' 0 = 0 := rfl
          simp only [visitSegments, Visitor.onCode, hcode, hhere, hdepth, hbrackets, hseparator,
            hslice, Option.elim_some, hcount, and_self, if_true]
          rfl
        have hsplit := split_eq e
        rcases hcomes.failed_at_plain hcode hhere (by decide) hv (e.byteLength + 1) with
          ⟨u, k, hscan⟩ | ⟨u, k, hscan⟩
        all_goals
          have hend : (Scanner.start e).scan visitSegments ⟨0, 0, []⟩ = _ := hscan
          simp only [split, hend] at hsplit
          cases hsplit

theorem spans_last {e : Text} {s : Scanner} {progress : Progress}
    (h : (Scanner.start e).scan visitSegments ⟨0, 0, []⟩ = .atEnd s progress) :
    e.Spans progress.start e.byteLength := by
  have hsplit := split_eq e
  simp only [split, h] at hsplit
  rw [← Text.isSome_rest?_iff]
  cases hrest : e.rest? progress.start with
  | some text => rfl
  | none =>
      rw [hrest] at hsplit
      cases hsplit

theorem byteLength_le_of_mem_split {e : Text} {segments : List Segment} {segment : Segment}
    (h : split e = .ok segments) (hmem : segment ∈ segments) :
    segment.text.trim.byteLength ≤ e.byteLength := by
  have he := intercalate_texts e
  rw [split_eq] at h
  cases h
  refine Nat.le_trans segment.text.byteLength_trim_le ?_
  cases htexts : texts .outermost 0 [] e with
  | nil => exact absurd htexts (texts_ne_nil e)
  | cons base filters =>
      rw [htexts] at he hmem
      rw [← he]
      cases hmem with
      | head =>
          cases filters with
          | nil => exact Nat.le_of_eq (by rw [List.intercalate_singleton])
          | cons filter filters =>
              rw [List.intercalate_cons_cons, List.append_assoc, Text.byteLength_append]
              exact Nat.le_add_right _ _
      | tail _ hmem =>
          obtain ⟨before, back, hsource, -⟩ := exists_of_mem_filters hmem
          simp only [hsource, Text.byteLength_append]
          omega

theorem safe_of_byteLength_lt {bound : Nat} (pragma : Text) {e : Text} (h : e.byteLength < bound) :
    Safe bound pragma e where
  counts := by
    rw [Scanner.start_between]
    apply Scanner.countsBelow_outermost visitSegments_quiet.forward visitSegments_countsUp
    rwa [Nat.zero_add]
  separator := fun _ _ => spans_of_separator
  last := fun _ _ => spans_last
  filters := by
    intro segments hsplit segment hmem
    have hle := byteLength_le_of_mem_split hsplit hmem
    exact Reference.safe_append .filter [] segment.text.trim (Nat.lt_of_le_of_lt hle h)
  behind := by
    intro filter r hread
    obtain ⟨-, rest, hrest⟩ := rest_of_read hread
    rw [← Text.isSome_rest?_iff, hrest]
    rfl
  reported := by
    refine reported_of_evident fun failure hfailure => ?_
    have hshown := evident_of_compile hfailure []
    rwa [List.append_nil] at hshown

end FilterChain

namespace MethodCall

/-- Nothing is out of range in the loop over the markers of an expression. -/
structure LoopSafe (bound : Nat) (pragma e : Text) : Prop where
  counts : (Scanner.start e).CountsBelow bound (visitMarkers (expand · pragma) pragma)
    (fun _ => 0) ⟨[], 0⟩
  reference : ∀ s progress,
    Scanner.ComesTo (visitMarkers (expand · pragma) pragma) (.start e) ⟨[], 0⟩ s progress →
      s.inCode = true → s.here? = some marker → Reference.Safe bound .method e (s.position + 1)
  jump : ∀ s progress r,
    Scanner.ComesTo (visitMarkers (expand · pragma) pragma) (.start e) ⟨[], 0⟩ s progress →
      s.inCode = true → s.here? = some marker →
      Reference.read .method e (s.position + 1) = .ok r →
        e.Spans progress.done s.position ∧ s.position < r.stop ∧ e.IsBoundary r.stop
  last : ∀ s progress,
    (Scanner.start e).scan (visitMarkers (expand · pragma) pragma) ⟨[], 0⟩ = .atEnd s progress →
      e.Spans progress.done e.byteLength
  reported : Reported e (expand e pragma)

/-- Nothing is out of range when an expression is expanded, nor when the arguments of its references
are, which are shorter. -/
inductive Safe (bound : Nat) (pragma : Text) : Text → Prop where
  | intro {e : Text} (loop : LoopSafe bound pragma e)
      (shorter : ∀ s r a, Replaces e pragma s r → r.arguments = some a →
        a.text.byteLength < e.byteLength)
      (inside : ∀ s r a, Replaces e pragma s r → r.arguments = some a → Safe bound pragma a.text) :
      Safe bound pragma e

section Loop

variable {expand : Text → Except Failure Text} {pragma e : Text} {s : Scanner}
  {progress : Progress}

theorem visitMarkers_countsUp : (visitMarkers expand pragma).CountsUp (fun _ => 0) :=
  fun _ _ => Nat.zero_le _

theorem visitMarkers_forward : (visitMarkers expand pragma).Forward := by
  intro front c back n progress place h
  simp only [visitMarkers, Visitor.onCode] at h
  split at h
  · split at h
    · next hhere =>
        cases hhere
        split at h
        · next more hreplace =>
            cases h
            obtain ⟨r, hread, hdone⟩ := exists_read_of_replace hreplace
            obtain ⟨used, rest, -, rfl, -, -, -, hstop⟩ := exists_used_of_read hread
            exact ⟨used, rest, rfl, hdone.trans hstop⟩
        · cases h
    · cases h
  · cases h

end Loop

section Expression

variable {pragma e : Text} {s : Scanner} {progress : Progress}

/-- What stands in front of a reference that was read, and is not written yet, can be cut out, and
the loop goes on behind the marker. -/
theorem spans_of_read
    (hcomes : Scanner.ComesTo (visitMarkers (expand · pragma) pragma) (.start e) ⟨[], 0⟩ s progress)
    (hcode : s.inCode = true) (hhere : s.here? = some marker) (r : Reference)
    (hread : Reference.read .method e (s.position + 1) = .ok r) :
    e.Spans progress.done s.position ∧ s.position < r.stop ∧ e.IsBoundary r.stop := by
  have hsource : s.source = e := hcomes.source_eq
  refine ⟨?_, ?_⟩
  · rw [← Text.isSome_slice?_iff]
    cases hslice : e.slice? progress.done s.position with
    | some text => rfl
    | none =>
        have hreplace : replace (expand · pragma) pragma s progress = .error .stuck := by
          simp only [replace, hsource, hread, hslice]
          rfl
        have hv : (visitMarkers (expand · pragma) pragma s progress).verdict = .fail .stuck := by
          simp only [visitMarkers, Visitor.onCode, hcode, hhere, hreplace, if_true]
          rfl
        have hstuck : expand e pragma = .error .stuck := by
          rw [expand_eq]
          rcases hcomes.failed_at_plain hcode hhere (by decide) hv (e.byteLength + 1) with
            ⟨u, k, hscan⟩ | ⟨u, k, hscan⟩
          all_goals exact congrArg (conclude e) hscan
        exact absurd (evident_of_expand hstuck) id
  · obtain ⟨front, back, rfl, hplace⟩ := exists_of_comesTo_marker hcomes hhere
    rw [hplace] at hread ⊢
    obtain ⟨used, rest, -, rfl, -, -, -, hstop⟩ := exists_used_of_read hread
    have hone : marker.utf8Size = 1 := rfl
    have hend := Text.isBoundary_append (front ++ marker :: used) rest
    rw [List.append_assoc, List.cons_append, ← hstop] at hend
    refine ⟨?_, hend⟩
    rw [hstop, Text.byteLength_append, Text.byteLength, hone]
    omega

theorem spans_last
    (h : (Scanner.start e).scan (visitMarkers (expand · pragma) pragma) ⟨[], 0⟩ =
      .atEnd s progress) : e.Spans progress.done e.byteLength := by
  rw [← Text.isSome_rest?_iff]
  cases hrest : e.rest? progress.done with
  | some rest => rfl
  | none =>
      have hstuck : expand e pragma = .error .stuck := by
        rw [expand_eq, h]
        simp only [conclude, hrest]
      exact absurd (evident_of_expand hstuck) id

theorem loopSafe_of_byteLength_lt {bound : Nat} (pragma : Text) (h : e.byteLength < bound) :
    LoopSafe bound pragma e where
  counts := by
    rw [Scanner.start_between]
    apply Scanner.countsBelow_outermost visitMarkers_forward visitMarkers_countsUp
    rwa [Nat.zero_add]
  reference := by
    intro s progress hcomes hcode hhere
    obtain ⟨front, back, rfl, hplace⟩ := exists_of_comesTo_marker hcomes hhere
    have hmarker : Text.byteLength (front ++ [marker]) = front.byteLength + 1 :=
      Text.byteLength_append ..
    have hsource : front ++ marker :: back = front ++ [marker] ++ back := by simp
    rw [hplace, ← hmarker, hsource]
    exact Reference.safe_append .method _ _ (hsource ▸ h)
  jump := fun _ _ r hcomes hcode hhere => spans_of_read hcomes hcode hhere r
  last := fun _ _ => spans_last
  reported := reported_of_evident fun _ => evident_of_expand

theorem byteLength_arguments {r : Reference} {a : Arguments} (h : Replaces e pragma s r)
    (ha : r.arguments = some a) : a.text.byteLength < e.byteLength := by
  obtain ⟨progress, hcomes⟩ := h.comes
  obtain ⟨before, t, hsource, hlies⟩ := Reference.exists_lies_of_read h.read
  have hlen := hlies.byteLength_arguments ha
  have he : e = before ++ t := hcomes.source_eq.symm.trans hsource
  rw [he, Text.byteLength_append]
  omega

theorem safe_of_byteLength_lt {bound : Nat} (pragma : Text) {e : Text} (h : e.byteLength < bound) :
    Safe bound pragma e := by
  refine .intro (loopSafe_of_byteLength_lt pragma h)
    (fun _ _ _ hreplaces ha => byteLength_arguments hreplaces ha) ?_
  intro s r a hreplaces ha
  have hshorter := byteLength_arguments hreplaces ha
  exact safe_of_byteLength_lt pragma (Nat.lt_trans hshorter h)
  termination_by e.byteLength

end Expression

end MethodCall

namespace TemplateText

/-- Nothing is out of range in a tag whose expression begins at an offset. -/
structure TagSafe (bound : Nat) (pragmas : Pragmas) (t : Text) (start : Nat) : Prop where
  counts : (Scanner.startAt t start).CountsBelow bound visitTag id 1
  positive : ∀ s depth, Scanner.ComesTo visitTag (Scanner.startAt t start) 1 s depth → 0 < depth
  closed : ∀ stop, tagEnd t start = .ok stop →
    0 < stop ∧ t.Spans start stop ∧ t.Spans (stop + 2) t.byteLength
  filters : ∀ stop expression, tagEnd t start = .ok stop → t.slice? start stop = some expression →
    FilterChain.Safe bound pragmas.filter expression.trim

/-- Nothing is out of range when a template is compiled, neither in its first tag nor behind it,
where a shorter template is left. -/
inductive Safe (bound : Nat) (pragmas : Pragmas) : Text → Prop where
  | intro {t : Text}
      (literal : ∀ before, beforeTag? t = some before → t.Spans 0 before.byteLength)
      (tag : ∀ before, beforeTag? t = some before →
        TagSafe bound pragmas t (before.byteLength + tagOpening.byteLength))
      (shorter : ∀ before stop rest, beforeTag? t = some before →
        tagEnd t (before.byteLength + tagOpening.byteLength) = .ok stop →
        t.rest? (stop + 2) = some rest → rest.byteLength < t.byteLength)
      (others : ∀ before stop rest, beforeTag? t = some before →
        tagEnd t (before.byteLength + tagOpening.byteLength) = .ok stop →
        t.rest? (stop + 2) = some rest → Safe bound pragmas rest)
      (reported : Reported t (compile pragmas t)) :
      Safe bound pragmas t

theorem visitTag_countsUp : visitTag.CountsUp id := by
  intro s depth
  simp only [visitTag, Visitor.onCode]
  split
  · split
    case h_3 =>
        split
        all_goals exact Nat.zero_le _
    all_goals simp only [Reaction.next, Reaction.fail, id]
    all_goals omega
  · exact Nat.le_succ _

theorem visitTag_positive (s : Scanner) (depth : Nat) (h : 0 < depth) :
    (visitTag s depth).verdict = .next → 0 < (visitTag s depth).memory := by
  simp only [visitTag, Visitor.onCode]
  split
  · split
    · exact fun _ => Nat.succ_pos _
    · exact absurd h (Nat.lt_irrefl _)
    · split
      all_goals
        intro hnext
        cases hnext
    · exact fun _ => Nat.succ_pos _
    · exact fun _ => h
  · exact fun _ => h

section Tag

variable {bound : Nat} {pragmas : Pragmas}

theorem tagSafe_of_byteLength_lt {front back : Text} (hf : 0 < front.byteLength)
    (h : Text.byteLength (front ++ back) < bound) :
    TagSafe bound pragmas (front ++ back) front.byteLength where
  counts := by
    rw [Text.byteLength_append] at h
    rw [Scanner.startAt_between]
    apply Scanner.countsBelow_outermost visitTag_quiet.forward visitTag_countsUp
    rw [id]
    omega
  positive := fun s depth hs => hs.holds Nat.one_pos visitTag_positive
  closed := by
    intro stop hstop
    obtain ⟨body, rest, rfl, -, rfl⟩ := exists_body_of_tagEnd hstop
    have hbehind := Text.spans_append (front ++ body ++ tagClosing) rest []
    have hend : Text.byteLength (front ++ body ++ tagClosing) =
        Text.byteLength (front ++ body) + 2 := Text.byteLength_append ..
    rw [List.append_nil, hend] at hbehind
    simp only [List.append_assoc] at hbehind ⊢
    refine ⟨?_, Text.spans_append front body (tagClosing ++ rest), hbehind⟩
    rw [Text.byteLength_append]
    omega
  filters := by
    intro stop expression _ hslice
    obtain ⟨before, behind, hsource, -, -⟩ := Text.slice?_eq_some_iff.mp hslice
    have hle := expression.byteLength_trim_le
    rw [hsource, Text.byteLength_append, Text.byteLength_append] at h
    exact FilterChain.safe_of_byteLength_lt pragmas.filter (by omega)

theorem safe_of_byteLength_lt {t : Text} (h : t.byteLength < bound) : Safe bound pragmas t := by
  have hshorter (stop : Nat) (rest : Text) (hrest : t.rest? (stop + 2) = some rest) :
      rest.byteLength < t.byteLength := by
    have hlen := Text.byteLength_of_rest? hrest
    omega
  refine .intro ?_ ?_ (fun _ stop rest _ _ => hshorter stop rest) ?_ ?_
  · intro before hb
    obtain ⟨back, rfl⟩ := exists_of_beforeTag? hb
    exact Text.spans_append [] before (tagOpening ++ back)
  · intro before hb
    obtain ⟨back, rfl⟩ := exists_of_beforeTag? hb
    have hstart : Text.byteLength (before ++ tagOpening) =
        before.byteLength + tagOpening.byteLength := Text.byteLength_append ..
    rw [← hstart, ← List.append_assoc]
    rw [← List.append_assoc] at h
    refine tagSafe_of_byteLength_lt ?_ h
    rw [hstart]
    exact Nat.add_pos_right _ Nat.two_pos
  · intro before stop rest _ _ hrest
    have hlt := hshorter stop rest hrest
    exact safe_of_byteLength_lt (Nat.lt_trans hlt h)
  · exact reported_of_evident fun _ hfailure => evident_of_pieces (compile_eq_error_iff.mp hfailure)
  termination_by t.byteLength

end Tag

end TemplateText

/-- Whatever a text of fewer than `2 ^ 32` bytes holds, no slice, count or jump goes wrong when it
is compiled as a chain, as an expression with methods or as a template, at any depth of references
and tags, and each of the three ends with a text or with a problem that can be shown. A reference
can be read wherever the text can be cut, and nowhere else. -/
theorem passes_safe (pragmas : Pragmas) (t : Text) (h : t.byteLength < UInt32.size) :
    FilterChain.Safe UInt32.size pragmas.filter t ∧ MethodCall.Safe UInt32.size pragmas.method t ∧
    TemplateText.Safe UInt32.size pragmas t ∧
    ∀ kind offset, Reference.read kind t offset = .error .stuck ↔
      ¬ t.IsBoundary (min offset t.byteLength) :=
  ⟨FilterChain.safe_of_byteLength_lt pragmas.filter h,
    MethodCall.safe_of_byteLength_lt pragmas.method h, TemplateText.safe_of_byteLength_lt h,
    fun kind offset => Reference.read_eq_stuck_iff kind t offset⟩

/-- A reference with a character of two bytes in its arguments, which a filter follows. -/
theorem passes_safe_wide :
    Text.byteLength "#m(\u00e9)|>f".toList < UInt32.size ∧
    FilterChain.Safe UInt32.size (Pragmas.filter {}) "#m(\u00e9)|>f".toList ∧
    MethodCall.Safe UInt32.size (Pragmas.method {}) "#m(\u00e9)|>f".toList ∧
    TemplateText.Safe UInt32.size {} "#m(\u00e9)|>f".toList ∧
    Reference.read .method "#m(\u00e9)|>f".toList 1 ≠ .error .stuck ∧
    Reference.read .method "#m(\u00e9)|>f".toList 4 = .error .stuck := by
  have hlen : Text.byteLength "#m(\u00e9)|>f".toList < UInt32.size := by decide
  obtain ⟨hfilter, hmethod, htemplate, hread⟩ := passes_safe {} _ hlen
  exact ⟨hlen, hfilter, hmethod, htemplate, fun h => (hread .method 1).mp h (by decide),
    (hread .method 4).mpr (by decide)⟩

end BindingCompiler
