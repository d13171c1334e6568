import BindingCompiler.Command.Arguments
import BindingCompiler.Proofs.Results
import Mathlib.Data.List.Basic

/-!
Which arguments make a request, and which one. Acceptance does not depend on the order of the
arguments: every option is one for a pragma, and there is one text. What is reported otherwise does
depend on it: the first argument that is at fault with those in front of it.
-/

namespace BindingCompiler

/-- How an option for a pragma begins. The rest of it is the name. -/
def PragmaRole.option : PragmaRole → Text
  | template => "--template-pragma=".toList
  | filter => "--filter-pragma=".toList
  | method => "--method-pragma=".toList

namespace CompileRequest

/-- The argument begins as an option does. -/
def Dashed (argument : Text) : Prop :=
  "--".toList <+: argument

/-- The argument is an option for a pragma. -/
def NamesPragma (argument : Text) : Prop :=
  ∃ role : PragmaRole, role.option <+: argument

instance (argument : Text) : Decidable (Dashed argument) :=
  inferInstanceAs (Decidable (_ <+: _))

/-- The arguments that are source texts. -/
def texts (arguments : List Text) : List Text :=
  arguments.filter (¬ Dashed ·)

/-- The options for a pragma. -/
def optionsFor (role : PragmaRole) (arguments : List Text) : List Text :=
  arguments.filter (role.option <+: ·)

/-- The names that the options for a pragma give. -/
def names (role : PragmaRole) (arguments : List Text) : List Text :=
  (optionsFor role arguments).map (·.drop role.option.length)

/-- The pragmas that the last options for them name. -/
def Chosen (arguments : List Text) (start chosen : Pragmas) : Prop :=
  ∀ role, chosen.name role = (names role arguments).getLast?.getD (start.name role)

/-- An argument behind others is at fault, with what is reported of it. -/
inductive Offends (before : List Text) : Text → Text → Prop where
  | unknownOption {a} (dashed : Dashed a) (unknown : ¬ NamesPragma a) :
      Offends before a ("unknown option '".toList ++ a ++ ['\x27'])
  | secondText {a} (text : ¬ Dashed a) (earlier : ∃ b ∈ before, ¬ Dashed b) :
      Offends before a ("unexpected argument '".toList ++ a ++ ['\x27'])

/-- No argument is at fault. -/
def Clean (arguments : List Text) : Prop :=
  ∀ before a after message, arguments = before ++ a :: after → ¬ Offends before a message

/-- The first argument that is at fault, with what is reported of it. -/
def FirstOffence (arguments : List Text) (message : Text) : Prop :=
  ∃ before a after, arguments = before ++ a :: after ∧ Clean before ∧ Offends before a message

section Reading

variable {role other : PragmaRole} {a name : Text} {arguments rest : List Text}

theorem option_prefix_inj (h : role.option <+: other.option) : role = other := by
  revert h
  cases role <;> cases other <;> decide

/-- No argument is an option for two pragmas. -/
theorem eq_of_options (h : role.option <+: a) (h' : other.option <+: a) : role = other := by
  cases List.prefix_or_prefix_of_prefix h h' with
  | inl h => exact option_prefix_inj h
  | inr h => exact (option_prefix_inj h).symm

theorem dashed_of_option (h : role.option <+: a) : Dashed a := by
  refine List.IsPrefix.trans ?_ h
  cases role <;> decide

theorem mem_options (role : PragmaRole) : (role.option, role) ∈ options := by
  cases role <;> decide

theorem eq_option_of_mem {start : Text} (h : (start, role) ∈ options) : start = role.option := by
  simp only [options, List.mem_cons, Prod.mk.injEq, List.not_mem_nil, or_false] at h
  rcases h with ⟨rfl, rfl⟩ | ⟨rfl, rfl⟩ | ⟨rfl, rfl⟩ <;> rfl

theorem readOption?_eq_some_iff : readOption? a = some (role, name) ↔ role.option ++ name = a := by
  have read {role name} (h : readOption? a = some (role, name)) : role.option ++ name = a := by
    obtain ⟨⟨start, given⟩, hmem, hread⟩ := List.exists_of_findSome?_eq_some h
    obtain ⟨rest, hrest, hpair⟩ := Option.map_eq_some_iff.mp hread
    cases hpair
    rw [← eq_option_of_mem hmem]
    exact List.append_eq_of_isPrefixOf?_eq_some hrest
  constructor
  · exact read
  · intro h
    cases hread : readOption? a with
    | none =>
        have hnone := List.findSome?_eq_none_iff.mp hread _ (mem_options role)
        simp [List.isPrefixOf?_eq_some_iff_append_eq.mpr h] at hnone
    | some given =>
        obtain ⟨other, rest⟩ := given
        have hrest := read hread
        cases eq_of_options ⟨name, h⟩ ⟨rest, hrest⟩
        rw [List.append_cancel_left (hrest.trans h.symm)]

theorem readOption?_eq_none (h : ¬ NamesPragma a) : readOption? a = none := by
  cases hread : readOption? a with
  | none => rfl
  | some given => exact absurd ⟨given.1, given.2, readOption?_eq_some_iff.mp hread⟩ h

variable {d : Draft}

theorem add_option (d : Draft) (role : PragmaRole) (name : Text) :
    d.add (role.option ++ name) = .ok { d with pragmas := d.pragmas.set role name } := by
  rw [Draft.add, readOption?_eq_some_iff.mpr rfl]

theorem add_unknown (d : Draft) (dashed : Dashed a) (unknown : ¬ NamesPragma a) :
    d.add a = .error (.unknownOption a) := by
  rw [Draft.add, readOption?_eq_none unknown]
  exact if_pos (List.isPrefixOf_iff_prefix.mpr dashed)

theorem add_text (d : Draft) (text : ¬ Dashed a) :
    d.add a = if d.text.isSome then .error (.unexpectedArgument a)
      else .ok { d with text := some a } := by
  have unknown : ¬ NamesPragma a := fun ⟨_, h⟩ => text (dashed_of_option h)
  rw [Draft.add, readOption?_eq_none unknown]
  exact if_neg fun h => text (List.isPrefixOf_iff_prefix.mp h)

/-- An argument is an option for a pragma, an unknown option, or a text. -/
theorem argument_cases (a : Text) :
    (∃ (role : PragmaRole) (name : Text), a = role.option ++ name) ∨
      (Dashed a ∧ ¬ NamesPragma a) ∨ ¬ Dashed a := by
  by_cases dashed : Dashed a
  · by_cases known : NamesPragma a
    · obtain ⟨role, name, rfl⟩ := known
      exact .inl ⟨role, name, rfl⟩
    · exact .inr (.inl ⟨dashed, known⟩)
  · exact .inr (.inr dashed)

end Reading

section Arguments

variable {arguments other : List Text} {a : Text} {d d' : Draft} {role : PragmaRole}

theorem texts_cons_dashed (h : Dashed a) (rest : List Text) : texts (a :: rest) = texts rest :=
  List.filter_cons_of_neg (by simpa using h)

theorem texts_cons_text (h : ¬ Dashed a) (rest : List Text) :
    texts (a :: rest) = a :: texts rest :=
  List.filter_cons_of_pos (by simpa using h)

theorem names_cons_option (role : PragmaRole) (name : Text) (rest : List Text) :
    names role ((role.option ++ name) :: rest) = name :: names role rest := by
  rw [names, optionsFor, List.filter_cons_of_pos (by simp), List.map_cons, List.drop_left]
  rfl

theorem names_cons_other (h : ¬ role.option <+: a) (rest : List Text) :
    names role (a :: rest) = names role rest := by
  rw [names, optionsFor, List.filter_cons_of_neg (by simpa using h)]
  rfl

/-- An option takes the place of the name that its pragma had. -/
theorem chosen_cons_option {start chosen : Pragmas} (role : PragmaRole) (name : Text)
    (rest : List Text) : Chosen ((role.option ++ name) :: rest) start chosen ↔
      Chosen rest (start.set role name) chosen := by
  apply forall_congr'
  intro other
  by_cases h : other = role
  · subst h
    rw [names_cons_option, Pragmas.name_set, if_pos rfl]
    cases hlast : (names other rest).getLast? <;> simp [List.getLast?_cons, hlast]
  · have hother : ¬ other.option <+: role.option ++ name :=
      fun h' => h (eq_of_options h' (List.prefix_append ..))
    rw [names_cons_other hother, Pragmas.name_set, if_neg h]

theorem chosen_cons_other {start chosen : Pragmas} (h : ¬ NamesPragma a) (rest : List Text) :
    Chosen (a :: rest) start chosen ↔ Chosen rest start chosen := by
  apply forall_congr'
  intro role
  rw [names_cons_other (fun hrole => h ⟨role, hrole⟩)]

theorem chosen_nil {start chosen : Pragmas} : Chosen [] start chosen ↔ chosen = start := by
  constructor
  · exact Pragmas.ext_name
  · intro h role
    rw [h]
    rfl

/-- Arguments are read to their end if every option is one for a pragma, and there is one text at
most among them and in the draft. -/
theorem foldlM_add_eq_ok_iff : arguments.foldlM Draft.add d = .ok d' ↔
    (∀ a ∈ arguments, Dashed a → NamesPragma a) ∧
      d.text.toList ++ texts arguments = d'.text.toList ∧
        Chosen arguments d.pragmas d'.pragmas := by
  induction arguments generalizing d with
  | nil =>
      obtain ⟨text, pragmas⟩ := d
      obtain ⟨text', pragmas'⟩ := d'
      have hrun : [].foldlM Draft.add ⟨text, pragmas⟩ = .ok ⟨text, pragmas⟩ := rfl
      rw [hrun, chosen_nil]
      cases text <;> cases text' <;> simp [texts, eq_comm]
  | cons a arguments ih =>
      rw [List.foldlM_cons, List.forall_mem_cons]
      rcases argument_cases a with ⟨role, name, rfl⟩ | ⟨dashed, unknown⟩ | text
      · have known : NamesPragma (role.option ++ name) := ⟨role, List.prefix_append ..⟩
        have dashed : Dashed (role.option ++ name) := dashed_of_option (List.prefix_append ..)
        rw [add_option, ok_bind, ih, texts_cons_dashed dashed, chosen_cons_option]
        simp only [known, implies_true, true_and]
      · rw [add_unknown d dashed unknown, error_bind]
        simp only [reduceCtorEq, false_iff]
        exact fun h => unknown (h.1.1 dashed)
      · have unknown : ¬ NamesPragma a := fun ⟨_, h⟩ => text (dashed_of_option h)
        rw [add_text d text, texts_cons_text text, chosen_cons_other unknown]
        cases htext : d.text with
        | none =>
            rw [Option.isSome_none, if_neg Bool.false_ne_true, ok_bind, ih]
            simp only [text, false_implies, true_and, Option.toList_some, Option.toList_none,
              List.cons_append, List.nil_append]
        | some earlier =>
            rw [Option.isSome_some, if_pos rfl, error_bind]
            cases d'.text <;> simp

theorem exists_chosen (arguments : List Text) (start : Pragmas) :
    ∃ chosen, Chosen arguments start chosen := by
  let last (role : PragmaRole) : Text := (names role arguments).getLast?.getD (start.name role)
  refine ⟨⟨last .template, last .filter, last .method⟩, ?_⟩
  intro role
  cases role <;> rfl

theorem ofArguments_eq (arguments : List Text) : ofArguments arguments =
    match arguments.foldlM Draft.add {} with
    | .error error => .error error
    | .ok ⟨some text, pragmas⟩ => .ok ⟨text, pragmas⟩
    | .ok ⟨none, _⟩ => .error .missingText := by
  rw [ofArguments]
  rcases arguments.foldlM Draft.add {} with error | ⟨_ | text, pragmas⟩ <;> rfl

theorem ofArguments_eq_ok_iff {request : CompileRequest} : ofArguments arguments = .ok request ↔
    (∀ a ∈ arguments, Dashed a → NamesPragma a) ∧ texts arguments = [request.text] ∧
      Chosen arguments {} request.pragmas := by
  have hread := @foldlM_add_eq_ok_iff arguments {} ⟨some request.text, request.pragmas⟩
  rw [Option.toList_none, List.nil_append, Option.toList_some] at hread
  rw [← hread, ofArguments_eq]
  obtain ⟨text, pragmas⟩ := request
  rcases arguments.foldlM Draft.add {} with error | ⟨_ | text, pragmas⟩ <;> simp

theorem mem_texts : a ∈ texts arguments ↔ a ∈ arguments ∧ ¬ Dashed a := by
  simp [texts, List.mem_filter]

/-- An argument is at fault where reading the arguments in front of it leaves a draft that it
cannot be added to. -/
theorem offends_iff {before : List Text} {message : Text}
    (h : before.foldlM Draft.add {} = .ok d) :
    Offends before a message ↔ ∃ error, d.add a = .error error ∧ error.message = message := by
  obtain ⟨-, htexts, -⟩ := foldlM_add_eq_ok_iff.mp h
  rw [Option.toList_none, List.nil_append] at htexts
  have earlier : (∃ b ∈ before, ¬ Dashed b) ↔ d.text.isSome = true := by
    simp only [← mem_texts, htexts, Option.mem_toList, Option.isSome_iff_exists]
  constructor
  · intro h
    cases h with
    | unknownOption dashed unknown => exact ⟨_, add_unknown d dashed unknown, rfl⟩
    | secondText text hbefore =>
        exact ⟨_, (add_text d text).trans (if_pos (earlier.mp hbefore)), rfl⟩
  · rintro ⟨error, hadd, rfl⟩
    rcases argument_cases a with ⟨role, name, rfl⟩ | ⟨dashed, unknown⟩ | text
    · rw [add_option] at hadd
      cases hadd
    · rw [add_unknown d dashed unknown] at hadd
      cases hadd
      exact .unknownOption dashed unknown
    · rw [add_text d text] at hadd
      split at hadd
      · next htext =>
          cases hadd
          exact .secondText text (earlier.mpr htext)
      · cases hadd

theorem clean_iff : Clean arguments ↔ ∃ d, arguments.foldlM Draft.add {} = .ok d := by
  constructor
  · intro h
    cases hread : arguments.foldlM Draft.add {} with
    | ok d => exact ⟨d, rfl⟩
    | error error =>
        obtain ⟨before, a, after, d, hsplit, hbefore, hadd⟩ := foldlM_eq_error_iff.mp hread
        exact absurd ((offends_iff hbefore).mpr ⟨error, hadd, rfl⟩) (h before a after _ hsplit)
  · rintro ⟨d, hread⟩ before a after message rfl hoffends
    rw [List.foldlM_append] at hread
    obtain ⟨d', hbefore, hafter⟩ := exists_of_bind_eq_ok hread
    obtain ⟨error, hadd, -⟩ := (offends_iff hbefore).mp hoffends
    rw [List.foldlM_cons, hadd] at hafter
    cases hafter

theorem firstOffence_iff {message : Text} : FirstOffence arguments message ↔
    ∃ error, arguments.foldlM Draft.add {} = .error error ∧ error.message = message := by
  constructor
  · rintro ⟨before, a, after, hsplit, hclean, hoffends⟩
    obtain ⟨d, hbefore⟩ := clean_iff.mp hclean
    obtain ⟨error, hadd, hmessage⟩ := (offends_iff hbefore).mp hoffends
    exact ⟨error, foldlM_eq_error_iff.mpr ⟨before, a, after, d, hsplit, hbefore, hadd⟩, hmessage⟩
  · rintro ⟨error, hread, hmessage⟩
    obtain ⟨before, a, after, d, hsplit, hbefore, hadd⟩ := foldlM_eq_error_iff.mp hread
    exact ⟨before, a, after, hsplit, clean_iff.mpr ⟨d, hbefore⟩,
      (offends_iff hbefore).mpr ⟨error, hadd, hmessage⟩⟩

/-- What is reported of a fault is not that a text is missing. -/
theorem Offends.ne_missingText {before : List Text} {message : Text}
    (h : Offends before a message) : message ≠ ArgumentError.missingText.message := by
  cases h <;> nofun

/-- What is reported is the first fault, or that there is no text where nothing is at fault. -/
theorem reports_iff {message : Text} :
    (ofArguments arguments).mapError ArgumentError.message = .error message ↔
      FirstOffence arguments message ∨
        message = ArgumentError.missingText.message ∧ Clean arguments ∧ texts arguments = [] := by
  rw [firstOffence_iff, clean_iff, ofArguments_eq]
  rcases hread : arguments.foldlM Draft.add {} with error | ⟨text, pragmas⟩
  · simp [Except.mapError]
  · obtain ⟨-, htexts, -⟩ := foldlM_add_eq_ok_iff.mp hread
    rw [Option.toList_none, List.nil_append] at htexts
    cases text <;> simp [Except.mapError, htexts, eq_comm]

/-- Arguments make a request exactly when every option is one for a pragma and there is one text;
the request has that text and, for each pragma, what its last option names, so that only the order
among the options for one pragma counts. Of other arguments the first is reported that is an unknown
option or a second text, and where there is none, that the text is missing. -/
theorem request_of_arguments (arguments : List Text) :
    ((∃ request, ofArguments arguments = .ok request) ↔
      (∀ a ∈ arguments, Dashed a → NamesPragma a) ∧ (texts arguments).length = 1) ∧
    (∀ request, ofArguments arguments = .ok request →
      texts arguments = [request.text] ∧ Chosen arguments {} request.pragmas ∧
      ∀ other : List Text, other.Perm arguments →
        (∀ role, optionsFor role other = optionsFor role arguments) →
          ofArguments other = .ok request) ∧
    (∀ message, (ofArguments arguments).mapError ArgumentError.message = .error message ↔
      FirstOffence arguments message ∨
        message = "missing source text".toList ∧ Clean arguments ∧ texts arguments = []) ∧
    ((ofArguments arguments).mapError ArgumentError.message =
        .error "missing source text".toList ↔ Clean arguments ∧ texts arguments = []) := by
  refine ⟨?_, ?_, fun message => reports_iff, ?_⟩
  · constructor
    · rintro ⟨request, h⟩
      obtain ⟨known, htexts, -⟩ := ofArguments_eq_ok_iff.mp h
      exact ⟨known, by rw [htexts, List.length_singleton]⟩
    · rintro ⟨known, hlength⟩
      obtain ⟨text, htexts⟩ := List.length_eq_one_iff.mp hlength
      obtain ⟨pragmas, hchosen⟩ := exists_chosen arguments {}
      exact ⟨⟨text, pragmas⟩, ofArguments_eq_ok_iff.mpr ⟨known, htexts, hchosen⟩⟩
  · intro request h
    obtain ⟨known, htexts, hchosen⟩ := ofArguments_eq_ok_iff.mp h
    refine ⟨htexts, hchosen, ?_⟩
    intro other hperm hoptions
    have hother : texts other = [request.text] := by
      rw [← List.perm_singleton, ← htexts]
      exact hperm.filter _
    refine ofArguments_eq_ok_iff.mpr ⟨fun a ha => known a (hperm.mem_iff.mp ha), hother, ?_⟩
    intro role
    rw [names, hoptions role]
    exact hchosen role
  · refine reports_iff.trans ⟨?_, fun h => .inr ⟨rfl, h⟩⟩
    rintro (⟨before, a, after, hsplit, hclean, hoffends⟩ | ⟨-, h⟩)
    · exact absurd rfl hoffends.ne_missingText
    · exact h

/-- An option that is repeated, one that gives the empty name, and the text between them may change
places as long as the repeated options keep their order. -/
theorem request_of_arguments_reordered :
    let arguments := ["--filter-pragma=F".toList, "a=b".toList, "--method-pragma=".toList,
      "--filter-pragma=G".toList]
    let other := ["--method-pragma=".toList, "--filter-pragma=F".toList, "--filter-pragma=G".toList,
      "a=b".toList]
    let request : CompileRequest :=
      ⟨"a=b".toList, { filter := "G".toList, method := [] }⟩
    ofArguments arguments = .ok request ∧ other.Perm arguments ∧
      (∀ role, optionsFor role other = optionsFor role arguments) ∧
      ofArguments other = .ok request := by
  intro arguments other request
  have hread : ofArguments arguments = .ok request := by decide
  have hperm : other.Perm arguments := by decide
  have hoptions : ∀ role, optionsFor role other = optionsFor role arguments := by
    intro role
    cases role <;> decide
  have hother := ((request_of_arguments arguments).2.1 request hread).2.2 other hperm hoptions
  exact ⟨hread, hperm, hoptions, hother⟩

end Arguments

end CompileRequest

end BindingCompiler
