import BindingCompiler.Proofs.Balance
import BindingCompiler.Proofs.CodeCharacters
import BindingCompiler.Proofs.Results

/-!
How a reference is read, in one equation. Its header goes up to the first character that belongs to
no name, and that character decides what follows. Reading behind some other text is reading the
text alone with all offsets moved.
-/

namespace BindingCompiler

private theorem toNat_of_isNameChar {c : Char} (h : isNameChar c = true) :
    32 < c.toNat ∧ c.toNat < 128 := by
  change (((decide (c.val ≥ 'A'.val ∧ c.val ≤ 'Z'.val) ||
    (decide (c.val ≥ 'a'.val) && decide (c.val ≤ 'z'.val))) ||
    (decide (c.val ≥ '0'.val) && decide (c.val ≤ '9'.val))) || c == '_' || c == '$') = true at h
  simp only [Bool.or_eq_true, Bool.and_eq_true, beq_iff_eq, decide_eq_true_eq, ge_iff_le,
    UInt32.le_iff_toNat_le] at h
  rcases h with (((⟨hl, hu⟩ | ⟨hl, hu⟩) | ⟨hl, hu⟩) | rfl) | rfl
  case inl.inr | inr => decide
  all_goals
    exact ⟨Nat.lt_of_lt_of_le (by decide) hl, Nat.lt_of_le_of_lt hu (by decide)⟩

theorem utf8Size_of_isNameChar {c : Char} (h : isNameChar c = true) : c.utf8Size = 1 :=
  Char.utf8Size_eq_one_iff.mpr
    (UInt32.le_iff_toNat_le.mpr (Nat.le_of_lt_succ (toNat_of_isNameChar h).2))

theorem isBlank_eq_false_of_isNameChar {c : Char} (h : isNameChar c = true) :
    isBlank c = false := by
  obtain ⟨hlow, hhigh⟩ := toNat_of_isNameChar h
  cases hb : isBlank c with
  | false => rfl
  | true =>
      have hcode : ¬ isCodeBlank c = true := fun hc => by
        have := Nesting.toNat_of_isCodeBlank hc
        omega
      -- The blanks that are none of code all lie above the ASCII characters.
      simp only [isBlank, hcode, Bool.false_or, Bool.or_eq_true, beq_iff_eq, Bool.and_eq_true,
        decide_eq_true_eq, Char.le_def, UInt32.le_iff_toNat_le] at hb
      simp only [Char.toNat] at hhigh
      rcases hb with (((((((rfl | rfl) | rfl) | ⟨hb, -⟩) | rfl) | rfl) | rfl) | rfl) | rfl
      all_goals
        first
        | exact absurd hhigh (by decide)
        | exact absurd (Nat.lt_of_le_of_lt hb hhigh) (by decide)

theorem Nesting.isPlain_of_isNameChar {c : Char} (h : isNameChar c = true) : IsPlain c := by
  obtain ⟨hq, hm, ho, hc⟩ := isInert_of_isNameChar h
  refine ⟨hq, hm, ho, hc, ?_⟩
  cases hb : isCodeBlank c with
  | false => rfl
  | true =>
      have hle := toNat_of_isCodeBlank hb
      have hlt := (toNat_of_isNameChar h).1
      omega

theorem Scanner.inCode_between {front back : Text} {n : Nesting} (h : n.region = .code) :
    (between front back n).inCode = true :=
  (inCode_eq_true_iff _).mpr h

/-- A name proper: name characters alone, and in front none that cannot start a name. -/
structure Text.IsIdentifier (t : Text) : Prop where
  nonempty : t ≠ []
  chars : ∀ c ∈ t, isNameChar c = true
  start : ∀ c ∈ t.head?, cannotStartName c = false

theorem Text.isIdentifier_iff (t : Text) : t.IsIdentifier ↔
    t ≠ [] ∧ t.all isNameChar = true ∧ t.head?.any cannotStartName = false := by
  have hfields : t.IsIdentifier ↔
      t ≠ [] ∧ (∀ c ∈ t, isNameChar c = true) ∧ ∀ c ∈ t.head?, cannotStartName c = false :=
    ⟨fun h => ⟨h.nonempty, h.chars, h.start⟩, fun h => ⟨h.1, h.2.1, h.2.2⟩⟩
  rw [hfields, List.all_eq_true]
  cases t with
  | nil => simp
  | cons c t => simp

instance (t : Text) : Decidable t.IsIdentifier :=
  decidable_of_iff' _ t.isIdentifier_iff

namespace Reference

/-- A character that may stand in front of an argument list. -/
def isHeaderChar (c : Char) : Bool :=
  isNameChar c || isCodeBlank c

section Gaps

variable {kind : ReferenceKind} {done gap mid back : Text} {c : Char} {n : Nesting}

theorem foreign?_blank (done back : Text) (h : ∀ c ∈ gap, isCodeBlank c = true) :
    foreign? (done ++ (gap ++ back)) done.byteLength (Text.byteLength (done ++ gap)) = none := by
  rw [foreign?, Text.byteLength_append, Text.slice?_append]
  simp only [List.all_eq_true.mpr h, if_true, ite_self]

/-- The first character that is no blank is foreign, whatever follows it. -/
theorem foreign?_cons (done mid back : Text) (h : ∀ c ∈ gap, isCodeBlank c = true)
    (hc : isCodeBlank c = false) :
    foreign? (done ++ (gap ++ c :: mid ++ back)) done.byteLength
        (Text.byteLength (done ++ (gap ++ c :: mid))) =
      some (Text.byteLength (done ++ gap)) := by
  have hsize := Char.utf8Size_pos c
  have hne : done.byteLength ≠ Text.byteLength (done ++ (gap ++ c :: mid)) := by
    simp only [Text.byteLength_append, Text.byteLength]
    omega
  have hall : (gap ++ c :: mid).all isCodeBlank = false := by
    rw [List.all_append, List.all_cons, hc, Bool.false_and, Bool.and_false]
  have hstop : ¬ isCodeBlank c = true := by simp [hc]
  have htake : (gap ++ c :: mid).takeWhile isCodeBlank = gap := by
    rw [List.takeWhile_append_of_pos h, List.takeWhile_cons_of_neg hstop, List.append_nil]
  rw [foreign?, if_neg hne, Text.byteLength_append done, Text.slice?_append]
  simp only [hall, Bool.false_eq_true, if_false, htake, Text.byteLength_append]

private theorem visitName_between (kind : ReferenceKind) (done back : Text) (c : Char)
    (hn : n.region = .code) (hgap : ∀ c ∈ gap, isCodeBlank c = true) :
    visitName kind (.between (done ++ gap) (c :: back) n) done.byteLength =
      if c = '(' then .stop done.byteLength
      else if isNameChar c then .next (Text.byteLength (done ++ gap) + 1)
      else .fail (.found (.invalidCharacter kind) (Text.byteLength (done ++ gap)))
        done.byteLength := by
  have hnone := foreign?_blank done (c :: back) hgap
  have hin := @Scanner.inCode_between (done ++ gap) (c :: back) n hn
  rw [← List.append_assoc] at hnone
  simp only [visitName, Scanner.source_between, Scanner.position_between, hnone, hin,
    Scanner.here?_between, List.head?_cons]
  split
  · next h => rw [if_pos (Option.some.inj h)]
  · next d hd _ h =>
      cases h
      rw [if_neg hd]
  · next h => exact absurd rfl (h c rfl)

private theorem visitName_foreign (done mid back : Text) (n : Nesting)
    (hgap : ∀ c ∈ gap, isCodeBlank c = true) (hc : isCodeBlank c = false) :
    visitName kind (.between (done ++ gap ++ [c] ++ mid) back n) done.byteLength =
      .fail (.found (.invalidCharacter kind) (Text.byteLength (done ++ gap))) done.byteLength := by
  have hsome := foreign?_cons done mid back hgap hc
  have hfront : done ++ (gap ++ c :: mid) = done ++ gap ++ [c] ++ mid := by simp
  rw [hfront, ← List.append_assoc, hfront] at hsome
  simp only [visitName, Scanner.source_between, Scanner.position_between, hsome]

end Gaps

section Names

variable (kind : ReferenceKind) (finish : Scanner)

/-- The scan for a name passes over a header; what it has seen to be good lies behind a gap. -/
private theorem watch_header (done gap rest : Text) {header : Text}
    (hgap : ∀ c ∈ gap, isCodeBlank c = true) (hheader : ∀ c ∈ header, isHeaderChar c = true) :
    ∃ done' gap' : Text, done' ++ gap' = done ++ gap ++ header ∧
      (∀ c ∈ gap', isCodeBlank c = true) ∧
      (visitName kind).watch finish (Nesting.outermost.shown (done ++ gap) (header ++ rest))
          done.byteLength =
        (visitName kind).watch finish (Nesting.outermost.shown (done' ++ gap') rest)
          done'.byteLength := by
  induction header generalizing done gap with
  | nil => exact ⟨done, gap, (List.append_nil _).symm, hgap, rfl⟩
  | cons c header ih =>
      have hrest : ∀ c ∈ header, isHeaderChar c = true :=
        fun e he => hheader e (List.mem_cons_of_mem _ he)
      by_cases hname : isNameChar c = true
      · have hr : Nesting.outermost.Reads c (header ++ rest).head? (.visit .outermost) :=
          .plain (Nesting.isPlain_of_isNameChar hname)
        have hopen : c ≠ '(' := by
          intro h
          rw [h] at hname
          exact absurd hname (by decide)
        have hv := visitName_between kind done (header ++ rest) c
          (n := Nesting.outermost) rfl hgap
        rw [if_neg hopen, if_pos hname] at hv
        have hlen : Text.byteLength (done ++ gap) + 1 = Text.byteLength (done ++ gap ++ [c]) := by
          rw [Text.byteLength_append _ [c], Text.byteLength_singleton,
            utf8Size_of_isNameChar hname]
        obtain ⟨done', gap', hsplit, hgap', hwatch⟩ := ih (done ++ gap ++ [c]) [] nofun hrest
        rw [List.append_nil] at hsplit hwatch
        refine ⟨done', gap', by rw [hsplit, List.append_assoc _ [c]]; rfl, hgap', ?_⟩
        rw [List.cons_append, Nesting.shown_visit hr, Visitor.watch_next hv, hlen]
        exact hwatch
      · have hblank : isCodeBlank c = true := by
          have := hheader c (List.mem_cons_self ..)
          simpa [isHeaderChar, hname] using this
        have hr : Nesting.outermost.Reads c (header ++ rest).head? (.skip 1 .outermost) :=
          .blank hblank
        have hgap' : ∀ e ∈ gap ++ [c], isCodeBlank e = true := by
          intro e he
          cases List.mem_append.mp he with
          | inl he => exact hgap e he
          | inr he => rwa [List.mem_singleton.mp he]
        obtain ⟨done', gap'', hsplit, hgap'', hwatch⟩ := ih done (gap ++ [c]) hgap' hrest
        rw [← List.append_assoc] at hsplit hwatch
        refine ⟨done', gap'', by rw [hsplit, List.append_assoc _ [c]]; rfl, hgap'', ?_⟩
        rw [List.cons_append, Nesting.shown_skip hr]
        exact hwatch

private theorem watch_end (before : Text) {header : Text}
    (hheader : ∀ c ∈ header, isHeaderChar c = true) :
    ∃ seen, (visitName kind).watch finish (Nesting.outermost.shown before header)
        before.byteLength = .atEnd finish seen ∧
      foreign? (before ++ header) seen (Text.byteLength (before ++ header)) = none := by
  obtain ⟨done, gap, hsplit, hgap, hwatch⟩ := watch_header kind finish before [] [] nofun hheader
  have hforeign := foreign?_blank done [] hgap
  rw [List.append_nil] at hforeign hsplit
  rw [List.append_nil, List.append_nil] at hwatch
  exact ⟨_, hwatch, by rw [← hsplit]; exact hforeign⟩

private theorem watch_opening (before rest : Text) {header : Text}
    (hheader : ∀ c ∈ header, isHeaderChar c = true) :
    ∃ seen, (visitName kind).watch finish (Nesting.outermost.shown before (header ++ '(' :: rest))
        before.byteLength =
      .stopped (.between (before ++ header) ('(' :: rest) .outermost) seen := by
  obtain ⟨done, gap, hsplit, hgap, hwatch⟩ :=
    watch_header kind finish before [] ('(' :: rest) nofun hheader
  have hr : Nesting.outermost.Reads '(' rest.head? (.visit .outermost) := .plain (by decide)
  have hv := visitName_between kind done rest '(' (n := Nesting.outermost) rfl hgap
  rw [List.append_nil] at hsplit hwatch
  rw [if_pos rfl] at hv
  exact ⟨_, by rw [hwatch, Nesting.shown_visit hr, Visitor.watch_stop hv, hsplit]⟩

/-- A character that belongs to no name is where the scan fails, or where the text up to the end
turns out to be foreign. -/
private theorem watch_foreign (before back : Text) {header : Text} {c : Char}
    (hheader : ∀ c ∈ header, isHeaderChar c = true) (hother : isHeaderChar c = false)
    (hc : c ≠ '(') :
    (∃ s seen, (visitName kind).watch finish (Nesting.outermost.shown before (header ++ c :: back))
        before.byteLength =
      .failed s seen (.found (.invalidCharacter kind) (Text.byteLength (before ++ header)))) ∨
    ∃ seen, (visitName kind).watch finish (Nesting.outermost.shown before (header ++ c :: back))
        before.byteLength = .atEnd finish seen ∧
      foreign? (before ++ (header ++ c :: back)) seen
          (Text.byteLength (before ++ (header ++ c :: back))) =
        some (Text.byteLength (before ++ header)) := by
  obtain ⟨done, gap, hsplit, hgap, hwatch⟩ :=
    watch_header kind finish before [] (c :: back) nofun hheader
  have hboth : isNameChar c = false ∧ isCodeBlank c = false := by
    simpa [isHeaderChar] using hother
  obtain ⟨hname, hblank⟩ := hboth
  rw [List.append_nil] at hsplit hwatch
  rw [hwatch, ← List.append_assoc before, ← hsplit]
  cases hread : Nesting.outermost.read (some c) back.head? with
  | visit within =>
      have hr : Nesting.outermost.Reads c back.head? (.visit within) :=
        hread ▸ Nesting.reads_read ..
      have hv := visitName_between kind done back c hr.region_visit hgap
      rw [if_neg hc, hname, if_neg Bool.false_ne_true] at hv
      exact .inl ⟨_, _, by rw [Nesting.shown_visit hr, Visitor.watch_fail hv]⟩
  | skip width next =>
      have hr : Nesting.outermost.Reads c back.head? (.skip width next) :=
        hread ▸ Nesting.reads_read ..
      have hwidth : width = 1 := by
        cases hr.skip_cases with
        | inl h => exact h
        | inr h => cases h.2.2.2.1
      subst hwidth
      rw [Nesting.shown_skip hr]
      cases hs : next.shown (done ++ gap ++ [c]) back with
      | nil =>
          have hforeign := foreign?_cons done back [] hgap hblank
          rw [List.append_nil, ← List.append_assoc] at hforeign
          exact .inr ⟨_, rfl, hforeign⟩
      | cons s shown =>
          obtain ⟨mid, rest, within, -, rfl⟩ :=
            Nesting.exists_of_mem_shown (hs ▸ List.mem_cons_self ..)
          exact .inl ⟨_, _, Visitor.watch_fail (visitName_foreign done mid rest within hgap hblank)⟩

end Names

theorem visitName_quiet (kind : ReferenceKind) : (visitName kind).Quiet := by
  intro s seen
  simp only [visitName]
  repeat' split
  all_goals rfl

/-- The scan for a name stops only at an opening parenthesis that nothing encloses. -/
theorem exists_of_scan_visitName {kind : ReferenceKind} {before t : Text} {s : Scanner} {seen : Nat}
    (h : (Scanner.between before t .outermost).scan (visitName kind) before.byteLength =
      .stopped s seen) :
    ∃ header rest, t = header ++ '(' :: rest ∧
      s = .between (before ++ header) ('(' :: rest) .outermost := by
  have hsplit : t.takeWhile isHeaderChar ++ t.dropWhile isHeaderChar = t :=
    List.takeWhile_append_dropWhile
  have hheader : ∀ c ∈ t.takeWhile isHeaderChar, isHeaderChar c = true :=
    fun c hc => List.all_eq_true.mp List.all_takeWhile c hc
  have hend := List.head?_dropWhile_not isHeaderChar t
  rw [Scanner.scan_between (visitName_quiet kind)] at h
  generalize t.takeWhile isHeaderChar = header at hsplit hheader
  generalize t.dropWhile isHeaderChar = rest at hsplit hend
  subst hsplit
  generalize Scanner.between (before ++ (header ++ rest)) []
    (Nesting.outermost.after (header ++ rest)) = finish at h
  cases rest with
  | nil =>
      obtain ⟨seen, hwatch, -⟩ := watch_end kind finish before hheader
      rw [List.append_nil, hwatch] at h
      cases h
  | cons c rest =>
      by_cases hc : c = '('
      · subst hc
        obtain ⟨seen, hwatch⟩ := watch_opening kind finish before rest hheader
        rw [hwatch] at h
        cases h
        exact ⟨header, rest, rfl, rfl⟩
      · rcases watch_foreign kind finish before rest hheader hend hc with
          ⟨_, _, hwatch⟩ | ⟨_, hwatch, -⟩
        all_goals
          rw [hwatch] at h
          cases h

/-- The parentheses that are open behind a content character. -/
def parenthesesAt (within : Nesting) (depth : Nat) (c : Char) : Nat :=
  if within.region = .code then
    if c = '(' then depth + 1 else if c = ')' then depth - 1 else depth
  else
    depth

/-- The text in front of the parenthesis of code that closes one more than are open. -/
def enclosed? (n : Nesting) (depth : Nat) : Text → Option Text
  | [] => none
  | c :: t =>
      match n.read (some c) t.head?, t with
      | .visit within, t =>
          if within.region = .code ∧ c = ')' ∧ depth = 0 then some []
          else (enclosed? within.settled (parenthesesAt within depth c) t).map (c :: ·)
      | .skip 2 next, d :: t => (enclosed? next depth t).map (c :: d :: ·)
      | .skip _ next, t => (enclosed? next depth t).map (c :: ·)

section Rounds

variable {n m : Nesting} {depth d : Nat} {ops : List Nat} {t : Text} {c : Char}

theorem enclosed?_visit (h : n.Reads c t.head? (.visit m)) :
    enclosed? n depth (c :: t) =
      if m.region = .code ∧ c = ')' ∧ depth = 0 then some []
      else (enclosed? m.settled (parenthesesAt m depth c) t).map (c :: ·) := by
  rw [enclosed?.eq_def]
  simp only [h.read_eq]

theorem enclosed?_skip (h : n.Reads c t.head? (.skip 1 m)) :
    enclosed? n depth (c :: t) = (enclosed? m depth t).map (c :: ·) := by
  rw [enclosed?.eq_def]
  simp only [h.read_eq]

theorem enclosed?_opening :
    enclosed? ⟨.template false, d, ops⟩ depth ('$' :: '{' :: t) =
      (enclosed? ⟨.code, d + 1, d :: ops⟩ depth t).map ('$' :: '{' :: ·) := rfl

end Rounds

theorem visitArguments_quiet : visitArguments.Quiet := by
  apply Visitor.onCode_quiet
  intro s depth
  dsimp only
  split <;> rfl

private theorem visitArguments_between (front t : Text) (c : Char) (within : Nesting)
    (depth : Nat) :
    visitArguments (.between front (c :: t) within) (depth + 1) =
      if within.region = .code ∧ c = ')' ∧ depth = 0 then .stop 0
      else .next (parenthesesAt within depth c + 1) := by
  by_cases hcode : within.region = .code
  · have hin := @Scanner.inCode_between front (c :: t) within hcode
    simp only [visitArguments, Visitor.onCode, hin, if_true, Scanner.here?_between,
      List.head?_cons, hcode, true_and, parenthesesAt]
    by_cases hopen : c = '('
    · subst hopen
      rfl
    · by_cases hclose : c = ')'
      · subst hclose
        cases depth <;> rfl
      · rw [if_neg fun h => hclose h.1, if_neg hopen, if_neg hclose]
        split
        case h_5 => rfl
        case h_1 h => exact absurd (Option.some.inj h) hopen
        all_goals
          next h _ => exact absurd (Option.some.inj h) hclose
  · have hin := mt (Scanner.between front (c :: t) within).inCode_eq_true_iff.mp hcode
    rw [if_neg fun h => hcode h.1]
    simp only [visitArguments, Visitor.onCode, if_neg hin, parenthesesAt, if_neg hcode]

/-- The scan of arguments stops where they end, if they do. -/
private theorem watch_visitArguments (finish : Scanner) (n : Nesting) (front t : Text)
    (depth : Nat) :
    match enclosed? n depth t with
    | some args => ∃ rest, t = args ++ ')' :: rest ∧ (n.after args).region = .code ∧
        visitArguments.watch finish (n.shown front t) (depth + 1) =
          .stopped (.between (front ++ args) (')' :: rest) (n.after args)) 0
    | none => ∃ m, visitArguments.watch finish (n.shown front t) (depth + 1) = .atEnd finish m := by
  induction n, t using Nesting.passage_induction generalizing front depth with
  | nil n => exact ⟨_, rfl⟩
  | visit n c t within hr ih =>
      have hv := visitArguments_between front t c within depth
      rw [enclosed?_visit hr, Nesting.shown_visit hr]
      by_cases hstop : within.region = .code ∧ c = ')' ∧ depth = 0
      · rw [if_pos hstop] at hv ⊢
        obtain ⟨hcode, rfl, -⟩ := hstop
        cases hr.eq_of_plain (by decide) hcode
        refine ⟨t, rfl, hcode, ?_⟩
        rw [Visitor.watch_stop hv, List.append_nil]
        rfl
      · rw [if_neg hstop] at hv ⊢
        have hrest := ih (front ++ [c]) (parenthesesAt within depth c)
        rw [Visitor.watch_next hv]
        cases henclosed : enclosed? within.settled (parenthesesAt within depth c) t with
        | none =>
            rw [henclosed] at hrest
            exact hrest
        | some args =>
            rw [henclosed] at hrest
            obtain ⟨rest, rfl, hcode, hwatch⟩ := hrest
            refine ⟨rest, rfl, ?_, ?_⟩
            · rwa [Nesting.after_visit hr.visit_in_front]
            · rw [hwatch, Nesting.after_visit hr.visit_in_front, List.append_assoc]
              rfl
  | skip n c t next hr ih =>
      have hrest := ih (front ++ [c]) depth
      rw [enclosed?_skip hr, Nesting.shown_skip hr]
      cases henclosed : enclosed? next depth t with
      | none =>
          rw [henclosed] at hrest
          exact hrest
      | some args =>
          rw [henclosed] at hrest
          obtain ⟨rest, rfl, hcode, hwatch⟩ := hrest
          refine ⟨rest, rfl, ?_, ?_⟩
          · rwa [Nesting.after_skip hr.skip_in_front]
          · rw [hwatch, Nesting.after_skip hr.skip_in_front, List.append_assoc]
            rfl
  | opening d ops t ih =>
      have hrest := ih (front ++ ['$', '{']) depth
      rw [enclosed?_opening, Nesting.shown_opening]
      cases henclosed : enclosed? ⟨.code, d + 1, d :: ops⟩ depth t with
      | none =>
          rw [henclosed] at hrest
          exact hrest
      | some args =>
          rw [henclosed] at hrest
          obtain ⟨rest, rfl, hcode, hwatch⟩ := hrest
          refine ⟨rest, rfl, hcode, ?_⟩
          rw [hwatch, List.append_assoc]
          rfl

/-- The scan for the end of arguments stops only at a closing parenthesis. -/
theorem exists_of_scan_visitArguments {front t : Text} {n : Nesting} {s : Scanner} {depth : Nat}
    (h : (Scanner.between front t n).scan visitArguments 1 = .stopped s depth) :
    ∃ args rest, t = args ++ ')' :: rest ∧
      s = .between (front ++ args) (')' :: rest) (n.after args) := by
  have hwatch := watch_visitArguments (.between (front ++ t) [] (n.after t)) n front t 0
  rw [Scanner.scan_between visitArguments_quiet] at h
  cases henclosed : enclosed? n 0 t with
  | none =>
      rw [henclosed] at hwatch
      obtain ⟨m, hwatch⟩ := hwatch
      rw [hwatch] at h
      cases h
  | some args =>
      rw [henclosed] at hwatch
      obtain ⟨rest, ht, -, hwatch⟩ := hwatch
      rw [hwatch] at h
      cases h
      exact ⟨args, rest, ht, rfl⟩

/-- Arguments end in code, at a parenthesis. -/
theorem exists_of_enclosed? {n : Nesting} {depth : Nat} {t args : Text}
    (h : enclosed? n depth t = some args) :
    ∃ rest, t = args ++ ')' :: rest ∧ (n.after args).region = .code := by
  have hwatch := watch_visitArguments (.start t) n [] t depth
  rw [h] at hwatch
  obtain ⟨rest, ht, hcode, -⟩ := hwatch
  exact ⟨rest, ht, hcode⟩

/-- What a header comes to with the text behind it. -/
def endHeader (kind : ReferenceKind) (header : Text) : Text → Except Failure Reference
  | [] =>
      if header.isAllBlank then .error (.found (.missingName kind) 0)
      else .ok ⟨header.trim, none, header.byteLength⟩
  | c :: rest =>
      if c ≠ '(' then .error (.found (.invalidCharacter kind) header.byteLength)
      else if header.isAllBlank then .error (.found (.missingName kind) 0)
      else
        match enclosed? .outermost 0 rest with
        | none => .error (.found (.unclosedArguments kind) header.byteLength)
        | some args =>
            .ok ⟨header.trim, some ⟨args, header.byteLength + 1⟩,
              header.byteLength + 1 + args.byteLength + 1⟩

theorem endHeader_opening (kind : ReferenceKind) (header rest : Text) :
    endHeader kind header ('(' :: rest) =
      if header.isAllBlank then .error (.found (.missingName kind) 0)
      else
        match enclosed? .outermost 0 rest with
        | none => .error (.found (.unclosedArguments kind) header.byteLength)
        | some args =>
            .ok ⟨header.trim, some ⟨args, header.byteLength + 1⟩,
              header.byteLength + 1 + args.byteLength + 1⟩ := by
  rw [endHeader, if_neg (not_not_intro rfl)]

/-- What reading a reference comes to, by its header. -/
def byHeader (kind : ReferenceKind) (t : Text) : Except Failure Reference :=
  if t.trimStart.head?.any cannotStartName then
    .error (.found (.invalidStart kind) t.indent)
  else
    endHeader kind (t.takeWhile isHeaderChar) (t.dropWhile isHeaderChar)

/-- The same reference in a text that holds the source so many bytes further on. -/
def shift (r : Reference) (bytes : Nat) : Reference :=
  { r with
    arguments := r.arguments.map fun a => { a with start := a.start + bytes }
    stop := r.stop + bytes }

/-- What was read, or why not, seen from a text that holds the source so many bytes further on. -/
def shifted (bytes : Nat) : Except Failure Reference → Except Failure Reference
  | .ok r => .ok (r.shift bytes)
  | .error failure => .error (failure.map (·.shift bytes))

theorem shifted_found (bytes : Nat) (cause : Cause) (position : Nat) :
    shifted bytes (.error (.found cause position)) = .error (.found cause (position + bytes)) := rfl

private theorem readName_eq (kind : ReferenceKind) (before t rest : Text) :
    readName kind (before ++ (t ++ rest)) before.byteLength (Text.byteLength (before ++ t)) =
      if t.isAllBlank then .error (.found (.missingName kind) before.byteLength)
      else .ok t.trim := by
  rw [readName, Text.byteLength_append, Text.slice?_append]

private theorem readArguments_eq (kind : ReferenceKind) (front back : Text) :
    readArguments kind (.between front ('(' :: back) .outermost) =
      match enclosed? .outermost 0 back with
      | none => .error (.found (.unclosedArguments kind) front.byteLength)
      | some args => .ok ⟨args, front.byteLength + 1⟩ := by
  have hwatch := watch_visitArguments
    (.between (front ++ ['('] ++ back) [] (Nesting.outermost.after back)) .outermost
    (front ++ ['(']) back 0
  simp only [readArguments, Scanner.advance_between, Scanner.scan_between visitArguments_quiet]
  cases henclosed : enclosed? .outermost 0 back with
  | none =>
      rw [henclosed] at hwatch
      obtain ⟨m, hwatch⟩ := hwatch
      simp only [hwatch, Scanner.position_between]
  | some args =>
      rw [henclosed] at hwatch
      obtain ⟨rest, rfl, -, hwatch⟩ := hwatch
      have hslice := Text.slice?_append (front ++ ['(']) args (')' :: rest)
      rw [List.append_assoc front, ← Text.byteLength_append] at hslice
      simp only [hwatch, Scanner.source_between, Scanner.position_between]
      have hopen : front ++ '(' :: (args ++ ')' :: rest) =
          front ++ (['('] ++ (args ++ ')' :: rest)) := rfl
      rw [hopen, hslice]
      simp only [Text.byteLength_append]
      rfl

theorem read_eq (kind : ReferenceKind) (before t : Text) :
    read kind (before ++ t) before.byteLength = shifted before.byteLength (byHeader kind t) := by
  have hsplit : t.takeWhile isHeaderChar ++ t.dropWhile isHeaderChar = t :=
    List.takeWhile_append_dropWhile
  have hheader : ∀ c ∈ t.takeWhile isHeaderChar, isHeaderChar c = true :=
    fun c hc => List.all_eq_true.mp List.all_takeWhile c hc
  simp only [read, Scanner.startAt_between, Scanner.position_between, Text.rest?_append,
    Scanner.scan_between (visitName_quiet kind), byHeader]
  by_cases hstart : t.trimStart.head?.any cannotStartName = true
  · rw [if_pos hstart, if_pos hstart, shifted_found, Nat.add_comm]
    rfl
  · rw [if_neg hstart, if_neg hstart]
    have hend := List.head?_dropWhile_not isHeaderChar t
    generalize t.takeWhile isHeaderChar = header at hsplit hheader ⊢
    generalize t.dropWhile isHeaderChar = rest at hsplit hend ⊢
    subst hsplit
    have hplace : Text.byteLength (before ++ header) =
        Text.byteLength header + before.byteLength := by
      rw [Text.byteLength_append, Nat.add_comm]
    have hname := readName_eq kind before header rest
    generalize hfinish : Scanner.between (before ++ (header ++ rest)) []
      (Nesting.outermost.after (header ++ rest)) = finish
    cases rest with
    | nil =>
        obtain ⟨seen, hwatch, hforeign⟩ := watch_end kind finish before hheader
        rw [List.append_nil] at hname ⊢
        simp only [hwatch, hforeign, hname, endHeader]
        cases Text.isAllBlank header with
        | true =>
            rw [if_pos rfl, if_pos rfl, shifted_found, Nat.zero_add]
            rfl
        | false =>
            rw [if_neg Bool.false_ne_true, if_neg Bool.false_ne_true, hplace]
            rfl
    | cons c rest =>
        by_cases hc : c = '('
        · subst hc
          obtain ⟨seen, hwatch⟩ := watch_opening kind finish before rest hheader
          have hargs := readArguments_eq kind (before ++ header) rest
          rw [hplace] at hargs hname
          simp only [hwatch, Scanner.position_between, hplace, hname, hargs, endHeader_opening]
          cases Text.isAllBlank header with
          | true =>
              rw [if_pos rfl, if_pos rfl, shifted_found, Nat.zero_add]
              rfl
          | false =>
              rw [if_neg Bool.false_ne_true, if_neg Bool.false_ne_true]
              cases enclosed? .outermost 0 rest with
              | none => rfl
              | some args =>
                  have hinside : Text.byteLength header + before.byteLength + 1 =
                      Text.byteLength header + 1 + before.byteLength := Nat.add_right_comm ..
                  have hstop : Text.byteLength header + 1 + before.byteLength + args.byteLength + 1 =
                      Text.byteLength header + 1 + args.byteLength + 1 + before.byteLength := by
                    omega
                  rw [hinside, ok_bind, ok_bind, hstop]
                  rfl
        · have hother : isHeaderChar c = false := hend
          have hresult : endHeader kind header (c :: rest) =
              .error (.found (.invalidCharacter kind) (Text.byteLength header)) := if_pos hc
          rw [hresult, shifted_found, ← hplace]
          cases watch_foreign kind finish before rest hheader hother hc with
          | inl h =>
              obtain ⟨s, seen, hwatch⟩ := h
              simp only [hwatch]
              rfl
          | inr h =>
              obtain ⟨seen, hwatch, hforeign⟩ := h
              simp only [hwatch, hforeign]
              rfl

theorem read_start (kind : ReferenceKind) (t : Text) : read kind t 0 = byHeader kind t := by
  have hread := read_eq kind [] t
  have hfailure (failure : Failure) : failure.map (·.shift 0) = failure := by
    cases failure <;> rfl
  cases hr : byHeader kind t with
  | error failure =>
      rw [hr] at hread
      exact hread.trans (congrArg Except.error (hfailure failure))
  | ok r =>
      rw [hr] at hread
      obtain ⟨name, arguments, stop⟩ := r
      cases arguments <;> exact hread

end Reference

end BindingCompiler
