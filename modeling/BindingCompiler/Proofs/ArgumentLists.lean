import BindingCompiler.Proofs.Concatenation
import BindingCompiler.Proofs.Judgements
import BindingCompiler.Proofs.Windows

/-!
Argument lists, written and read back. A text behind an opening parenthesis is an argument text, a
closing parenthesis and a rest in one way at most. Reading finds this way, whatever the rest is,
and where there is none it says that the parenthesis is not closed.
-/

namespace BindingCompiler.Reference

open Nesting

/-- The parentheses of enclosed text match, but for those that were open in front of it. -/
theorem matching_of_enclosed? {n : Nesting} {depth : Nat} {t args : Text}
    (h : enclosed? n depth t = some args) : Matching depth (n.code args) := by
  induction n, t using passage_induction generalizing depth args with
  | nil n => cases h
  | visit n c t within hr ih =>
      rw [enclosed?_visit hr] at h
      split at h
      · next hstop =>
          cases h
          exact matching_nil_iff.mpr hstop.2.2
      · next hstop =>
          obtain ⟨inner, hinner, rfl⟩ := Option.map_eq_some_iff.mp h
          have hmatching := ih hinner
          obtain ⟨rest, rfl, -⟩ := exists_of_enclosed? hinner
          rw [code_visit hr.visit_in_front]
          by_cases hw : within.region = .code
          · rw [if_pos hw]
            exact (matching_cons_iff hw fun hc => hstop ⟨hw, hc⟩).mpr hmatching
          · rw [if_neg hw]
            rwa [parenthesesAt, if_neg hw] at hmatching
  | skip n c t next hr ih =>
      rw [enclosed?_skip hr] at h
      obtain ⟨inner, hinner, rfl⟩ := Option.map_eq_some_iff.mp h
      have hmatching := ih hinner
      obtain ⟨rest, rfl, -⟩ := exists_of_enclosed? hinner
      rwa [code_skip hr.skip_in_front]
  | opening d ops t ih =>
      rw [enclosed?_opening] at h
      obtain ⟨inner, hinner, rfl⟩ := Option.map_eq_some_iff.mp h
      rw [code_opening]
      exact ih hinner

/-- What stands in front of the parenthesis that closes an argument list is an argument text, and
no other text in front of a parenthesis is. -/
theorem enclosed?_eq_some_iff {t args : Text} :
    enclosed? .outermost 0 t = some args ↔
      ∃ rest, t = args ++ ')' :: rest ∧ args.IsArgumentText := by
  constructor
  · intro h
    obtain ⟨rest, ht, hcode⟩ := exists_of_enclosed? h
    exact ⟨rest, ht, (isArgumentText_iff args).mpr ⟨hcode, matching_of_enclosed? h⟩⟩
  · intro h
    obtain ⟨rest, rfl, hargs⟩ := h
    obtain ⟨hcode, hmatching⟩ := (isArgumentText_iff args).mp hargs
    exact enclosed?_of_matching (cut_of_code hcode) rfl hcode hmatching

theorem enclosed?_eq_none_iff {t : Text} :
    enclosed? .outermost 0 t = none ↔ ¬ ∃ args rest, t = args ++ ')' :: rest ∧
      Text.IsArgumentText args := by
  rw [Option.eq_none_iff_forall_ne_some, not_exists]
  exact forall_congr' fun args => not_congr enclosed?_eq_some_iff

/-- An argument text ends at the parenthesis that closes it, so no text has two of them. -/
theorem argumentText_unique {args args' rest rest' : Text} (hargs : args.IsArgumentText)
    (hargs' : args'.IsArgumentText) (h : args ++ ')' :: rest = args' ++ ')' :: rest') :
    args = args' ∧ rest = rest' := by
  have hfirst : enclosed? .outermost 0 (args ++ ')' :: rest) = some args :=
    enclosed?_eq_some_iff.mpr ⟨rest, rfl, hargs⟩
  have hsecond : enclosed? .outermost 0 (args ++ ')' :: rest) = some args' :=
    enclosed?_eq_some_iff.mpr ⟨rest', h, hargs'⟩
  cases hfirst.symm.trans hsecond
  exact ⟨rfl, (List.cons.inj (List.append_cancel_left h)).2⟩

/-- A header that is not blank may start a name by itself, whatever stands behind it. -/
theorem MayStart.append {header : Text} (h : MayStart header) (full : header.isAllBlank = false)
    (rest : Text) : MayStart (header ++ rest) := by
  obtain ⟨lead, c, back, rfl, hlead, hc⟩ := Text.exists_of_not_isAllBlank full
  have hstart := h lead c back rfl hlead hc
  rw [List.append_assoc, List.cons_append]
  exact mayStart_of_head hlead hc hstart

section Lists

variable {kind : ReferenceKind} {before header args rest : Text}

/-- A header behind which the search for the end of an argument list begins. -/
structure Opens (header : Text) : Prop where
  name : IsNameText header
  full : header.isAllBlank = false
  starts : MayStart header

theorem Opens.of_isIdentifier {name : Text} (h : name.IsIdentifier) : Opens name := by
  obtain ⟨hne, hchars, hstart⟩ := h
  obtain ⟨first, others, rfl⟩ := List.exists_cons_of_ne_nil hne
  have hfirst := isBlank_eq_false_of_isNameChar (hchars first (List.mem_cons_self ..))
  refine ⟨fun c hc => .inl (hchars c hc), ?_, ?_⟩
  · simp [Text.isAllBlank, hfirst]
  · exact @mayStart_of_head [] others first rfl hfirst (hstart first rfl)

theorem read_argumentList (opens : Opens header) (hargs : args.IsArgumentText) (rest : Text) :
    read kind (before ++ (header ++ '(' :: (args ++ ')' :: rest))) before.byteLength =
      .ok ⟨header.trim, some ⟨args, Text.byteLength (before ++ header) + 1⟩,
        Text.byteLength (before ++ header) + 1 + args.byteLength + 1⟩ :=
  (Judges.applied (opens.starts.append opens.full _) opens.name opens.full
    (enclosed?_eq_some_iff.mpr ⟨rest, rfl, hargs⟩)).read_eq

theorem read_eq_unclosed_iff (opens : Opens header) (back : Text) :
    read kind (before ++ (header ++ '(' :: back)) before.byteLength =
        .error (.found (.unclosedArguments kind) (Text.byteLength (before ++ header))) ↔
      ¬ ∃ args rest, back = args ++ ')' :: rest ∧ Text.IsArgumentText args := by
  constructor
  · intro h hsplit
    obtain ⟨args, rest, rfl, hargs⟩ := hsplit
    rw [read_argumentList opens hargs] at h
    cases h
  · intro h
    exact (Judges.unclosedArguments (opens.starts.append opens.full _) opens.name opens.full
      (enclosed?_eq_none_iff.mpr h)).read_eq

/-- Arguments that were read stand between their parentheses, and are an argument text. -/
theorem exists_of_read_arguments {source : Text} {offset : Nat} {r : Reference} {a : Arguments}
    (h : read kind source offset = .ok r) (ha : r.arguments = some a) :
    ∃ front rest : Text, source = front ++ '(' :: (a.text ++ ')' :: rest) ∧
      a.start = front.byteLength + 1 ∧ r.stop = a.start + a.text.byteLength + 1 ∧
      a.text.IsArgumentText := by
  have hplace : source.IsBoundary (min offset source.byteLength) := by
    apply Decidable.byContradiction
    intro hplace
    rw [read_eq_stuck hplace] at h
    cases h
  obtain ⟨before, t, rfl, hbefore⟩ := hplace
  rw [read_min, ← hbefore] at h
  have hjudges := judges_read kind before t
  rw [h] at hjudges
  cases hjudges with
  | bare => cases ha
  | @applied header back args starts name full inside =>
      cases ha
      obtain ⟨rest, rfl, hargs⟩ := enclosed?_eq_some_iff.mp inside
      exact ⟨before ++ header, rest, (List.append_assoc ..).symm, rfl, rfl, hargs⟩

theorem slices_of_read {source : Text} {offset : Nat} {r : Reference} {a : Arguments}
    (h : read kind source offset = .ok r) (ha : r.arguments = some a) :
    source.slice? (a.start - 1) a.start = some ['('] ∧
      source.slice? (r.stop - 1) r.stop = some [')'] ∧
      source.slice? a.start (r.stop - 1) = some a.text := by
  obtain ⟨front, rest, rfl, hstart, hstop, -⟩ := exists_of_read_arguments h ha
  have hopen : Text.byteLength ['('] = 1 := rfl
  have hclose : Text.byteLength [')'] = 1 := rfl
  have hlen : Text.byteLength (front ++ ['(']) = a.start := by
    rw [Text.byteLength_append, hopen, hstart]
  have hinside : Text.byteLength (front ++ '(' :: a.text) = r.stop - 1 := by
    rw [← List.singleton_append, ← List.append_assoc, Text.byteLength_append, hlen, hstop]
    rfl
  refine ⟨?_, ?_, ?_⟩
  · refine Text.slice?_eq_some_iff.mpr ⟨front, a.text ++ ')' :: rest, rfl, ?_, hlen⟩
    omega
  · refine Text.slice?_eq_some_iff.mpr ⟨front ++ '(' :: a.text, rest, by simp, hinside, ?_⟩
    rw [Text.byteLength_append, hinside, hclose]
    omega
  · refine Text.slice?_eq_some_iff.mpr ⟨front ++ ['('], ')' :: rest, by simp, hlen, ?_⟩
    rw [← hinside]
    simp

end Lists

/-- A name, an argument text in parentheses and whatever follows are read as that name and that
text. What is read as arguments stands between parentheses of the source and is an argument text.
Behind the parenthesis of a valid header the text is an argument text, a closing parenthesis and a
rest in one way at most; reading finds it, and where there is none the problem is the parenthesis. -/
theorem arguments_round_trip (kind : ReferenceKind) :
    (∀ name args rest : Text, name.IsIdentifier → args.IsArgumentText →
      read kind (name ++ '(' :: (args ++ ')' :: rest)) 0 =
        .ok ⟨name, some ⟨args, name.byteLength + 1⟩, name.byteLength + args.byteLength + 2⟩) ∧
    (∀ (source : Text) (offset : Nat) (r : Reference) (a : Arguments),
      read kind source offset = .ok r → r.arguments = some a →
      source.slice? (a.start - 1) a.start = some ['('] ∧
      source.slice? (r.stop - 1) r.stop = some [')'] ∧
      source.slice? a.start (r.stop - 1) = some a.text ∧ a.text.IsArgumentText) ∧
    ∀ before header back : Text,
      IsNameText header → header.isAllBlank = false → MayStart header →
      (read kind (before ++ (header ++ '(' :: back)) before.byteLength =
          .error (.found (.unclosedArguments kind) (Text.byteLength (before ++ header))) ↔
        ¬ ∃ args rest, back = args ++ ')' :: rest ∧ Text.IsArgumentText args) ∧
      ∀ args rest : Text, back = args ++ ')' :: rest → args.IsArgumentText →
        read kind (before ++ (header ++ '(' :: back)) before.byteLength =
          .ok ⟨header.trim, some ⟨args, Text.byteLength (before ++ header) + 1⟩,
            Text.byteLength (before ++ header) + args.byteLength + 2⟩ ∧
        ∀ args' rest' : Text, back = args' ++ ')' :: rest' → args'.IsArgumentText →
          args' = args ∧ rest' = rest := by
  have hstop (place : Nat) (args : Text) : place + 1 + args.byteLength + 1 =
      place + args.byteLength + 2 := by omega
  refine ⟨?_, ?_, ?_⟩
  · intro name args rest hname hargs
    have hread := @read_argumentList kind [] name args (.of_isIdentifier hname) hargs rest
    have htrim : name.trim = name :=
      Text.trim_eq_self fun c hc => isBlank_eq_false_of_isNameChar (hname.chars c hc)
    rw [htrim, hstop] at hread
    exact hread
  · intro source offset r a h ha
    obtain ⟨-, -, -, -, -, hargs⟩ := exists_of_read_arguments h ha
    obtain ⟨hopen, hclose, htext⟩ := slices_of_read h ha
    exact ⟨hopen, hclose, htext, hargs⟩
  · intro before header back name full starts
    have opens : Opens header := ⟨name, full, starts⟩
    refine ⟨read_eq_unclosed_iff opens back, ?_⟩
    intro args rest hback hargs
    subst hback
    refine ⟨?_, ?_⟩
    · rw [← hstop]
      exact read_argumentList opens hargs rest
    · intro args' rest' hback hargs'
      exact argumentText_unique hargs' hargs hback.symm

/-- Parentheses in a template literal and in its interpolation; the parenthesis behind the first
argument list is open. -/
theorem arguments_round_trip_template :
    Text.IsIdentifier "pad".toList ∧ Text.IsArgumentText "\x60)$\x7bf(1)\x7d\x60, (2)".toList ∧
    read .filter "pad(\x60)$\x7bf(1)\x7d\x60, (2))(".toList 0 =
      .ok ⟨"pad".toList, some ⟨"\x60)$\x7bf(1)\x7d\x60, (2)".toList, 4⟩, 20⟩ ∧
    Text.slice? "pad(\x60)$\x7bf(1)\x7d\x60, (2))(".toList 3 4 = some ['('] ∧
    IsNameText "pad".toList ∧ Text.isAllBlank "pad".toList = false ∧ MayStart "pad".toList ∧
    read .filter ('#' :: ("pad".toList ++ '(' :: "(1)".toList)) 1 =
      .error (.found (.unclosedArguments .filter) 4) := by
  have hname : Text.IsIdentifier "pad".toList := by decide
  have hargs : Text.IsArgumentText "\x60)$\x7bf(1)\x7d\x60, (2)".toList := by decide +kernel
  obtain ⟨hnameText, hfull, hstarts⟩ := Opens.of_isIdentifier hname
  obtain ⟨hwritten, hslices, hsplit⟩ := arguments_round_trip .filter
  have hread := hwritten _ _ "(".toList hname hargs
  have hopen := (hsplit ['#'] _ "(1)".toList hnameText hfull hstarts).1.mpr
    (enclosed?_eq_none_iff.mp rfl)
  exact ⟨hname, hargs, hread, (hslices _ 0 _ _ hread rfl).1, hnameText, hfull, hstarts, hopen⟩

end BindingCompiler.Reference
