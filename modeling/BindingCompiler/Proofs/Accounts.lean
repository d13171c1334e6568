import BindingCompiler.Proofs.Progress
import Mathlib.Logic.ExistsUnique

/-!
What becomes of every byte in a scan. A byte belongs to a character that is shown, in code or in a
string, or to a blank or a mark of one of five kinds that are not shown. A scan without jumps takes
each byte at one place and in one of these roles.
-/

namespace BindingCompiler

/-- What a scan makes of the bytes that it takes in one round. -/
inductive Role where
  /-- A character shown in code. -/
  | code
  /-- A character shown in a string. -/
  | content
  /-- A blank of code. -/
  | blank
  /-- A mark that begins or ends a string. -/
  | delimiter
  /-- A backslash in front of a character that it makes plain. -/
  | escape
  /-- The dollar sign and the brace that open an interpolation. -/
  | opening
  /-- The brace that closes an interpolation. -/
  | closing
  deriving DecidableEq, Repr

namespace Scanner

/-- So many bytes from a place on have a role, in a scan that showed its visitor these scanners.
Characters that are shown are told by the visits alone, and the others by the text and by where in
it the place stands. -/
inductive Takes (seen : List Scanner) (s : Scanner) : Role → Nat → Prop where
  | code {shown} (visit : shown ∈ seen ∧ shown.position = s.position)
      (code : shown.inCode = true) : Takes seen s .code shown.width
  | content {shown} (visit : shown ∈ seen ∧ shown.position = s.position)
      (string : shown.inCode = false) : Takes seen s .content shown.width
  | blank {c} (here : s.here? = some c) (code : s.nesting.region = .code)
      (blank : isCodeBlank c = true) : Takes seen s .blank 1
  | beginsQuoted {quote : Quote} (here : s.here? = some quote.mark)
      (code : s.nesting.region = .code) : Takes seen s .delimiter 1
  | beginsTemplate (here : s.here? = some templateMark) (code : s.nesting.region = .code) :
      Takes seen s .delimiter 1
  | ends {c} (here : s.here? = some c) (mark : s.nesting.region.delimiter? = some c)
      (plain : s.nesting.region.isEscaping = false) : Takes seen s .delimiter 1
  | escape (here : s.here? = some '\\') (string : s.nesting.region.isString = true)
      (plain : s.nesting.region.isEscaping = false) : Takes seen s .escape 1
  | opening (here : s.here? = some '$') (next : s.next? = some '{')
      (literal : s.nesting.region = .template false) : Takes seen s .opening 2
  | closing (here : s.here? = some '}') (code : s.nesting.region = .code)
      (last : s.nesting.openings.head? = some (s.nesting.depth - 1)) : Takes seen s .closing 1

/-- The role of a character that is read in some way. -/
private def roleOf (c : Char) : Reading → Role
  | .visit within => if within.region.isString then .content else .code
  | .skip _ _ =>
      if c = '\\' then .escape
      else if c = '$' then .opening
      else if c = '}' then .closing
      else if isCodeBlank c then .blank
      else .delimiter

private def widthOf (c : Char) : Reading → Nat
  | .visit _ => c.utf8Size
  | .skip width _ => width

/-- The visits at a place are the reading of the place. -/
def VisitsAt (seen : List Scanner) (s : Scanner) : Prop :=
  ∀ shown, (shown ∈ seen ∧ shown.position = s.position) ↔ s.atEnd = false ∧
    ∃ within, s.nesting.read s.here? s.next? = .visit within ∧ shown = { s with nesting := within }

section Roles

variable {front t : Text} {n : Nesting} {c : Char} {seen : List Scanner} {role : Role} {width : Nat}

private theorem roleOf_blank {after : Nesting} (h : isCodeBlank c = true) :
    roleOf c (.skip width after) = .blank := by
  have hne (d : Char) (hd : isCodeBlank d = false) : c ≠ d := by
    rintro rfl
    rw [h] at hd
    cases hd
  simp only [roleOf, if_neg (hne '\\' rfl), if_neg (hne '$' rfl), if_neg (hne '}' rfl), h, if_true]

/-- A visit at a place is of the character there, in the nesting that it is read in. -/
private theorem exists_of_visit {shown : Scanner}
    (visits : VisitsAt seen (between front (c :: t) n))
    (visit : shown ∈ seen ∧ shown.position = (between front (c :: t) n).position) :
    ∃ within, n.Reads c t.head? (.visit within) ∧ shown = between front (c :: t) within := by
  obtain ⟨-, within, hread, rfl⟩ := (visits shown).mp visit
  have hread' : n.read (some c) t.head? = .visit within := hread
  exact ⟨within, hread' ▸ Nesting.reads_read n c t.head?, rfl⟩

/-- The bytes at a place have no role but the one that the reading of the place gives them. -/
private theorem exists_reads_of_takes (visits : VisitsAt seen (between front (c :: t) n))
    (h : Takes seen (between front (c :: t) n) role width) :
    ∃ r, n.Reads c t.head? r ∧ role = roleOf c r ∧ width = widthOf c r := by
  obtain ⟨region, d, ops⟩ := n
  cases h with
  | code visit code =>
      obtain ⟨within, hr, rfl⟩ := exists_of_visit visits visit
      rw [inCode, nesting_between, Bool.not_eq_true'] at code
      exact ⟨_, hr, (if_neg (by rw [code]; exact Bool.false_ne_true)).symm, rfl⟩
  | content visit string =>
      obtain ⟨within, hr, rfl⟩ := exists_of_visit visits visit
      rw [inCode, nesting_between, Bool.not_eq_false'] at string
      exact ⟨_, hr, (if_pos string).symm, rfl⟩
  | blank here code blank =>
      cases here
      cases code
      exact ⟨_, .blank blank, (roleOf_blank blank).symm, rfl⟩
  | @beginsQuoted quote here code =>
      cases here
      cases code
      refine ⟨_, .openQuote, ?_, rfl⟩
      cases quote <;> rfl
  | beginsTemplate here code =>
      cases here
      cases code
      exact ⟨_, .openTemplate, rfl, rfl⟩
  | ends here mark plain =>
      cases here
      cases region with
      | code => cases mark
      | quoted quote escaping =>
          cases mark
          cases plain
          refine ⟨_, .closeQuote, ?_, rfl⟩
          cases quote <;> rfl
      | template escaping =>
          cases mark
          cases plain
          exact ⟨_, .closeTemplate, rfl, rfl⟩
  | escape here string plain =>
      cases here
      cases region with
      | code => cases string
      | quoted quote escaping =>
          cases plain
          exact ⟨_, .escapeQuoted, rfl, rfl⟩
      | template escaping =>
          cases plain
          exact ⟨_, .escapeTemplate, rfl, rfl⟩
  | opening here next literal =>
      have hbrace : t.head? = some '{' := next
      cases here
      cases literal
      rw [hbrace]
      exact ⟨_, .openInterpolation, rfl, rfl⟩
  | closing here code last =>
      cases here
      cases code
      have hlast : ops.head? = some (d - 1) := last
      obtain ⟨outer, rfl⟩ := List.head?_eq_some_iff.mp hlast
      exact ⟨_, .closeInterpolation, rfl, rfl⟩

/-- The bytes of a character have the role that its reading gives them. -/
private theorem takes_of_reads (visits : VisitsAt seen (between front (c :: t) n)) {r : Reading}
    (hr : n.Reads c t.head? r) :
    Takes seen (between front (c :: t) n) (roleOf c r) (widthOf c r) := by
  have visited {within : Nesting} (h : n.Reads c t.head? (.visit within)) :
      Takes seen (between front (c :: t) n) (roleOf c (.visit within)) c.utf8Size := by
    have hvisit := (visits (between front (c :: t) within)).mpr ⟨rfl, within, h.read_eq, rfl⟩
    cases hstring : within.region.isString with
    | true =>
        rw [roleOf, if_pos hstring]
        exact .content hvisit (by rw [inCode, nesting_between, hstring]; rfl)
    | false =>
        rw [roleOf, if_neg (by rw [hstring]; exact Bool.false_ne_true)]
        exact .code hvisit (by rw [inCode, nesting_between, hstring]; rfl)
  generalize hnext : t.head? = next at hr
  cases hr with
  | @openQuote quote => cases quote <;> exact .beginsQuoted rfl rfl
  | openTemplate => exact .beginsTemplate rfl rfl
  | closeInterpolation => exact .closing rfl rfl rfl
  | blank h =>
      rw [roleOf_blank h]
      exact .blank rfl rfl h
  | @closeQuote quote => cases quote <;> exact .ends rfl rfl rfl
  | escapeQuoted | escapeTemplate => exact .escape rfl rfl rfl
  | openInterpolation => exact .opening rfl hnext rfl
  | closeTemplate => exact .ends rfl rfl rfl
  | openBrace => exact visited .openBrace
  | closeBrace h => exact visited (.closeBrace h)
  | plain h => exact visited (.plain h)
  | quoted mark escape => exact visited (.quoted mark escape)
  | escapedQuoted => exact visited .escapedQuoted
  | template opening mark escape => exact visited (.template (hnext ▸ opening) mark escape)
  | escapedTemplate => exact visited .escapedTemplate

end Roles

section Places

variable {front t : Text} {n next : Nesting} {s : Scanner} {seen : List Scanner}

theorem byteLength_le_of_mem_shown (h : s ∈ n.shown front t) : front.byteLength ≤ s.position := by
  obtain ⟨mid, rest, within, -, rfl⟩ := Nesting.exists_of_mem_shown h
  rw [position_between, Text.byteLength_append]
  exact Nat.le_add_right _ _

/-- A place that is not shown itself has no visit if all visits lie behind it. -/
private theorem visitsAt_skip {width : Nat}
    (here : s.nesting.read s.here? s.next? = .skip width next)
    (behind : ∀ shown ∈ seen, s.position < shown.position) : VisitsAt seen s := by
  intro shown
  constructor
  · rintro ⟨hmem, hplace⟩
    have := behind shown hmem
    omega
  · rintro ⟨-, within, hread, -⟩
    cases here.symm.trans hread

/-- A scan that nothing interrupts visits what it reads as content, and nothing else. -/
theorem visitsAt_of_reaches (h : (between front t n).Reaches s) :
    VisitsAt (n.shown front t) s := by
  induction n, t using Nesting.passage_induction generalizing front with
  | nil n =>
      cases reaches_nil.mp h
      intro shown
      constructor
      · exact fun h => nomatch h.1
      · exact fun h => nomatch h.1
  | visit n c t within hr ih =>
      have hlater {place : Nat} (h : Text.byteLength (front ++ [c]) ≤ place) :
          front.byteLength < place := by
        have hsize := c.utf8Size_pos
        rw [Text.byteLength_append, Text.byteLength_singleton] at h
        omega
      rw [Nesting.shown_visit hr]
      rcases (reaches_visit hr).mp h with rfl | hs
      · intro shown
        constructor
        · rintro ⟨hmem, hplace⟩
          cases hmem with
          | head => exact ⟨rfl, within, hr.read_eq, rfl⟩
          | tail _ hmem =>
              have := hlater (byteLength_le_of_mem_shown hmem)
              rw [hplace] at this
              exact absurd this (Nat.lt_irrefl _)
        · rintro ⟨-, within', hread, rfl⟩
          cases hr.read_eq.symm.trans hread
          exact ⟨List.mem_cons_self .., rfl⟩
      · intro shown
        rw [← ih hs shown, List.mem_cons]
        constructor
        · rintro ⟨rfl | hmem, hplace⟩
          · have := hlater (byteLength_le_position hs)
            rw [← hplace] at this
            exact absurd this (Nat.lt_irrefl _)
          · exact ⟨hmem, hplace⟩
        · exact fun h => ⟨.inr h.1, h.2⟩
  | skip n c t next hr ih =>
      rw [Nesting.shown_skip hr]
      rcases (reaches_skip hr).mp h with rfl | hs
      · refine visitsAt_skip hr.read_eq fun shown hmem => ?_
        have hle := byteLength_le_of_mem_shown hmem
        have hsize := c.utf8Size_pos
        rw [Text.byteLength_append, Text.byteLength_singleton] at hle
        rw [position_between]
        omega
      · exact ih hs
  | opening d ops t ih =>
      rw [Nesting.shown_opening]
      rcases reaches_opening.mp h with rfl | hs
      · refine visitsAt_skip rfl fun shown hmem => ?_
        have hle := byteLength_le_of_mem_shown hmem
        have hmark : Text.byteLength ['$', '{'] = 2 := rfl
        rw [Text.byteLength_append, hmark] at hle
        rw [position_between]
        omega
      · exact ih hs

end Places

section Bytes

variable {front t : Text} {n : Nesting} {c : Char} {seen : List Scanner} {byte : Nat}

/-- A byte is one of those that have the role from the place on. -/
def TakesByte (seen : List Scanner) (s : Scanner) (role : Role) (byte : Nat) : Prop :=
  ∃ width, s.Takes seen role width ∧ s.position ≤ byte ∧ byte < s.position + width

/-- The bytes of a round are taken where it begins, and all others behind it. -/
private theorem existsUnique_round {r : Reading} (hr : n.Reads c t.head? r)
    {behind : Scanner} (visits : VisitsAt seen (between front (c :: t) n))
    (reaches : ∀ s, (between front (c :: t) n).Reaches s ↔
      s = between front (c :: t) n ∨ behind.Reaches s)
    (later : ∀ s, behind.Reaches s → front.byteLength + widthOf c r ≤ s.position)
    (rest : front.byteLength + widthOf c r ≤ byte →
      ∃! taken : Scanner × Role, behind.Reaches taken.1 ∧ TakesByte seen taken.1 taken.2 byte)
    (hbyte : front.byteLength ≤ byte) :
    ∃! taken : Scanner × Role, (between front (c :: t) n).Reaches taken.1 ∧
      TakesByte seen taken.1 taken.2 byte := by
  have only {role : Role} {width : Nat} (h : Takes seen (between front (c :: t) n) role width) :
      role = roleOf c r ∧ width = widthOf c r := by
    obtain ⟨other, hother, hrole⟩ := exists_reads_of_takes visits h
    cases hr.read_eq.symm.trans hother.read_eq
    exact hrole
  by_cases hlt : byte < front.byteLength + widthOf c r
  · refine ⟨⟨between front (c :: t) n, roleOf c r⟩,
      ⟨.refl, _, takes_of_reads visits hr, hbyte, hlt⟩, ?_⟩
    rintro ⟨s, role⟩ ⟨hs, width, takes, hle, -⟩
    rcases (reaches s).mp hs with rfl | hbehind
    · exact congrArg _ (only takes).1
    · have := later s hbehind
      dsimp only at hle
      omega
  · obtain ⟨taken, ⟨htaken, htakes⟩, hunique⟩ := rest (Nat.le_of_not_lt hlt)
    refine ⟨taken, ⟨(reaches _).mpr (.inr htaken), htakes⟩, ?_⟩
    rintro ⟨s, role⟩ ⟨hs, width, takes, hle, hend⟩
    rcases (reaches s).mp hs with rfl | hbehind
    · rw [(only takes).2] at hend
      exact absurd hend hlt
    · exact hunique _ ⟨hbehind, width, takes, hle, hend⟩

/-- A scan that nothing interrupts takes each byte ahead of it at one place and in one role. -/
theorem existsUnique_takesByte
    (visits : ∀ s, (between front t n).Reaches s → VisitsAt seen s)
    (hle : front.byteLength ≤ byte) (hlt : byte < Text.byteLength (front ++ t)) :
    ∃! taken : Scanner × Role, (between front t n).Reaches taken.1 ∧
      TakesByte seen taken.1 taken.2 byte := by
  induction n, t using Nesting.passage_induction generalizing front with
  | nil n =>
      rw [List.append_nil] at hlt
      omega
  | visit n c t within hr ih =>
      have hend : Text.byteLength (front ++ [c]) = front.byteLength + c.utf8Size :=
        Text.byteLength_append ..
      refine existsUnique_round hr (visits _ .refl) (fun s => reaches_visit hr)
        (fun s hs => hend ▸ byteLength_le_position hs) (fun hbehind => ?_) hle
      exact ih (fun s hs => visits s ((reaches_visit hr).mpr (.inr hs))) (hend ▸ hbehind)
        (by rwa [List.append_assoc])
  | skip n c t next hr ih =>
      have hend : Text.byteLength (front ++ [c]) = front.byteLength + 1 := by
        rw [Text.byteLength_append, Text.byteLength_singleton, hr.utf8Size_eq_one]
      refine existsUnique_round hr (visits _ .refl) (fun s => reaches_skip hr)
        (fun s hs => hend ▸ byteLength_le_position hs) (fun hbehind => ?_) hle
      exact ih (fun s hs => visits s ((reaches_skip hr).mpr (.inr hs))) (hend ▸ hbehind)
        (by rwa [List.append_assoc])
  | opening d ops t ih =>
      have hend : Text.byteLength (front ++ ['$', '{']) = front.byteLength + 2 :=
        Text.byteLength_append ..
      refine existsUnique_round .openInterpolation (visits _ .refl) (fun s => reaches_opening)
        (fun s hs => hend ▸ byteLength_le_position hs) (fun hbehind => ?_) hle
      exact ih (fun s hs => visits s (reaches_opening.mpr (.inr hs))) (hend ▸ hbehind)
        (by rwa [List.append_assoc])

end Bytes

section Scans

variable {σ ε : Type}

/-- A scan that is let go on comes to the end of the text and goes only forward; if it is asked for
no jump, every byte is taken at one place and in one role. -/
theorem scan_accounts_for_bytes (visit : Visitor σ ε) (source : Text) (start : Nat) (memory : σ)
    (boundary : source.IsBoundary start) (goes : (startAt source start).GoesOn visit memory) :
    ∃ finish m seen,
      (startAt source start).scan visit memory = .atEnd finish m ∧
      (startAt source start).scan visit.noting (memory, []) = .atEnd finish (m, seen) ∧
      finish.position = source.byteLength ∧
      (seen.map position).Pairwise (· < ·) ∧
      (∀ shown ∈ seen, source.IsBoundary shown.position ∧
        ∃ m', (startAt source start).Shows visit memory shown m') ∧
      ((startAt source start).AsksNothing visit memory →
        ∀ byte, start ≤ byte → byte < source.byteLength →
          ∃! taken : Scanner × Role,
            (∃ m', ComesTo visit (startAt source start) memory taken.1 m') ∧
              TakesByte seen taken.1 taken.2 byte) := by
  obtain ⟨front, back, rfl, rfl⟩ := boundary
  rw [startAt_between] at goes ⊢
  have hrounds : back.length < Text.byteLength (front ++ back) + 1 := by
    have hlength := back.length_le_byteLength
    rw [Text.byteLength_append]
    omega
  obtain ⟨last, m, seen, notes, hscan⟩ :=
    exists_notes _ front back .outermost memory [] goes hrounds
  refine ⟨_, m, seen, scanFor_of_noting visit _ _ _ _ hscan, hscan, rfl, notes.increasing, ?_, ?_⟩
  · exact fun shown hmem => ⟨(notes.places shown hmem).2, notes.visits shown hmem⟩
  · intro asksNothing byte hle hlt
    have hseen := notes.complete asksNothing
    simp only [exists_comesTo_iff goes asksNothing]
    exact existsUnique_takesByte (fun s hs => hseen ▸ visitsAt_of_reaches hs) hle hlt

/-- A visitor that has the second of three letters left out. -/
def leaping : Visitor Unit Empty := fun shown memory =>
  if shown.position = 0 then .resumeAt 2 memory else .next memory

theorem goesOn_leaping : (startAt "abc".toList 0).GoesOn leaping () := by
  intro shown m hshows
  by_cases hfirst : shown.position = 0
  · have hleap : leaping shown m = .resumeAt 2 m := if_pos hfirst
    rw [hleap]
    refine ⟨rfl, ?_⟩
    rintro _ ⟨⟩
    rw [hshows.source_eq, hfirst]
    exact ⟨⟨['a', 'b'], ['c'], rfl, rfl⟩, Nat.two_pos⟩
  · have hleap : leaping shown m = .next m := if_neg hfirst
    rw [hleap]
    exact ⟨rfl, nofun⟩

/-- A visitor that only looks on. -/
def watching : Visitor Unit Empty := .observing fun _ memory => memory

/-- One scan leaps over a letter, and one begins at a template literal behind a wide one. -/
theorem scan_accounts_for_bytes_template :
    (Text.IsBoundary "abc".toList 0 ∧ (startAt "abc".toList 0).GoesOn leaping () ∧
      ∃ finish, (startAt "abc".toList 0).scan leaping () = .atEnd finish () ∧
        finish.position = 3) ∧
    Text.IsBoundary "é\x60$\x7bb\x7d\x60".toList 2 ∧
    (startAt "é\x60$\x7bb\x7d\x60".toList 2).GoesOn watching () ∧
    (startAt "é\x60$\x7bb\x7d\x60".toList 2).AsksNothing watching () ∧
      ∃ seen, ∃! taken : Scanner × Role,
        (∃ m, ComesTo watching (startAt "é\x60$\x7bb\x7d\x60".toList 2) () taken.1 m) ∧
          TakesByte seen taken.1 taken.2 3 := by
  have boundary : Text.IsBoundary "abc".toList 0 := ⟨[], "abc".toList, rfl, rfl⟩
  have behind : Text.IsBoundary "é\x60$\x7bb\x7d\x60".toList 2 :=
    ⟨['é'], "\x60$\x7bb\x7d\x60".toList, rfl, rfl⟩
  have goes : (startAt "é\x60$\x7bb\x7d\x60".toList 2).GoesOn watching () :=
    fun _ _ _ => ⟨rfl, nofun⟩
  have asksNothing : (startAt "é\x60$\x7bb\x7d\x60".toList 2).AsksNothing watching () :=
    fun _ _ _ => rfl
  obtain ⟨finish, m, -, hscan, -, hend, -⟩ :=
    scan_accounts_for_bytes leaping _ 0 () boundary goesOn_leaping
  obtain ⟨-, -, seen, -, -, -, -, -, htaken⟩ :=
    scan_accounts_for_bytes watching _ 2 () behind goes
  exact ⟨⟨boundary, goesOn_leaping, finish, hscan, hend⟩, behind, goes, asksNothing, seen,
    htaken asksNothing 3 (by decide) (by decide)⟩

end Scans

end Scanner

end BindingCompiler
