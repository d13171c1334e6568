import BindingCompiler.Proofs.Evidence

/-!
The names of the runtime functions in compiled text. No pass reads what it has written, so that the
names are opaque to it: a text is at fault whatever the names are, or it is compiled to a sequence
of pieces, the same for all names, in which some of the pieces are slots that the names fill.
-/

namespace BindingCompiler

/-- A piece of compiled text: a text that stands there for all names, or the place of a name. -/
inductive Piece where
  | text (t : Text)
  | slot (role : PragmaRole)
  deriving DecidableEq, Repr

def Piece.fill (p : Pragmas) : Piece → Text
  | text t => t
  | slot role => p.name role

/-- The text of pieces with the names in their slots. -/
def Pragmas.fill (p : Pragmas) (pieces : List Piece) : Text :=
  pieces.flatMap (·.fill p)

/-- The pieces have slots for no other roles. -/
def SlotsIn (roles : List PragmaRole) (pieces : List Piece) : Prop :=
  ∀ role, .slot role ∈ pieces → role ∈ roles

/-- For all names there is one outcome: the same problem, or the same pieces. -/
inductive FixedBut (roles : List PragmaRole) (run : Pragmas → Except Failure Text) : Prop where
  | fails (problem : Problem) (same : ∀ p, run p = .error (.problem problem))
  | returns (pieces : List Piece) (slots : SlotsIn roles pieces)
      (same : ∀ p, run p = .ok (p.fill pieces))

section Pieces

variable {roles : List PragmaRole} {p : Pragmas} {pieces others : List Piece}

theorem fill_append : p.fill (pieces ++ others) = p.fill pieces ++ p.fill others :=
  List.flatMap_append

theorem fill_text (t : Text) : p.fill [.text t] = t :=
  List.append_nil t

theorem fill_intercalate (separator : List Piece) (parts : List (List Piece)) :
    p.fill (List.intercalate separator parts) =
      List.intercalate (p.fill separator) (parts.map p.fill) := by
  induction parts with
  | nil => rfl
  | cons part parts ih =>
      cases parts with
      | nil => simp
      | cons next parts =>
          rw [List.intercalate_cons_cons, fill_append, fill_append, ih]
          simp only [List.map_cons, List.intercalate_cons_cons]

theorem slotsIn_text (t : Text) : SlotsIn roles [.text t] := by
  intro role h
  cases List.mem_singleton.mp h

theorem slotsIn_slot {role : PragmaRole} (h : role ∈ roles) : SlotsIn roles [.slot role] := by
  intro other hother
  cases List.mem_singleton.mp hother
  exact h

theorem SlotsIn.append (h : SlotsIn roles pieces) (h' : SlotsIn roles others) :
    SlotsIn roles (pieces ++ others) := by
  intro role hrole
  cases List.mem_append.mp hrole with
  | inl hrole => exact h role hrole
  | inr hrole => exact h' role hrole

theorem SlotsIn.mono {more : List PragmaRole} (h : SlotsIn roles pieces) (hsub : roles ⊆ more) :
    SlotsIn more pieces :=
  fun role hrole => hsub (h role hrole)

theorem SlotsIn.intercalate {separator : List Piece} (hs : SlotsIn roles separator)
    {parts : List (List Piece)} (h : ∀ part ∈ parts, SlotsIn roles part) :
    SlotsIn roles (List.intercalate separator parts) := by
  induction parts with
  | nil => exact fun _ => nofun
  | cons part parts ih =>
      have hpart := h part (List.mem_cons_self ..)
      have hrest := ih fun other hother => h other (List.mem_cons_of_mem _ hother)
      cases parts with
      | nil => simpa using hpart
      | cons next parts =>
          rw [List.intercalate_cons_cons]
          exact (hpart.append hs).append hrest

end Pieces

section Calls

variable {roles : List PragmaRole}

def operandPieces : List (List Piece) → List Piece
  | [] => [.text [')']]
  | operand :: operands => [.text ", ".toList] ++ (operand ++ operandPieces operands)

/-- The pieces of a call of the function in a role. -/
def callPieces (role : PragmaRole) (name : Text) (operands : List (List Piece)) : List Piece :=
  [.slot role] ++ ([.text ('(' :: '\x27' :: name ++ ['\x27'])] ++ operandPieces operands)

theorem fill_operandPieces (p : Pragmas) (operands : List (List Piece)) :
    p.fill (operandPieces operands) = operandsText (operands.map p.fill) := by
  induction operands with
  | nil => rfl
  | cons operand operands ih =>
      rw [operandPieces, fill_append, fill_append, fill_text, ih]
      rfl

theorem fill_callPieces (p : Pragmas) (role : PragmaRole) (name : Text)
    (operands : List (List Piece)) :
    p.fill (callPieces role name operands) =
      callByName (p.name role) name (operands.map p.fill) := by
  rw [callPieces, fill_append, fill_append, fill_text, fill_operandPieces]
  simp [callByName, Pragmas.fill, Piece.fill]

theorem slotsIn_operandPieces {operands : List (List Piece)}
    (h : ∀ operand ∈ operands, SlotsIn roles operand) : SlotsIn roles (operandPieces operands) := by
  induction operands with
  | nil => exact slotsIn_text _
  | cons operand operands ih =>
      have hrest := ih fun other hother => h other (List.mem_cons_of_mem _ hother)
      exact (slotsIn_text _).append ((h operand (List.mem_cons_self ..)).append hrest)

theorem slotsIn_callPieces {role : PragmaRole} (hrole : role ∈ roles) (name : Text)
    {operands : List (List Piece)} (h : ∀ operand ∈ operands, SlotsIn roles operand) :
    SlotsIn roles (callPieces role name operands) :=
  (slotsIn_slot hrole).append ((slotsIn_text _).append (slotsIn_operandPieces h))

end Calls

/-- Whatever the names are, a run has this outcome but for the names in the slots. -/
structure Settles (roles : List PragmaRole) (outcome : Except Failure (List Piece))
    (run : Pragmas → Except Failure Text) : Prop where
  slots : ∀ pieces, outcome = .ok pieces → SlotsIn roles pieces
  run_eq : ∀ p : Pragmas, run p = outcome.map p.fill

section Settled

variable {roles : List PragmaRole} {run : Pragmas → Except Failure Text}
  {outcome : Except Failure (List Piece)}

theorem settles_error {failure : Failure} (h : ∀ p, run p = .error failure) :
    Settles roles (.error failure) run :=
  ⟨nofun, h⟩

theorem settles_ok {pieces : List Piece} (slots : SlotsIn roles pieces)
    (h : ∀ p : Pragmas, run p = .ok (p.fill pieces)) : Settles roles (.ok pieces) run := by
  refine ⟨?_, h⟩
  intro others hothers
  cases hothers
  exact slots

/-- An outcome that is never stuck is a problem or pieces. -/
theorem Settles.fixedBut (h : Settles roles outcome run) (going : ∀ p, run p ≠ .error .stuck) :
    FixedBut roles run := by
  cases outcome with
  | ok pieces => exact .returns pieces (h.slots pieces rfl) h.run_eq
  | error failure =>
      cases failure with
      | problem problem => exact .fails problem h.run_eq
      | stuck => exact absurd (h.run_eq {}) (going {})

end Settled

namespace FilterChain

theorem settles_foldlM (segments : List Segment) {value : List Piece}
    (hvalue : SlotsIn [.filter] value) :
    ∃ outcome, Settles [.filter] outcome fun p =>
      segments.foldlM (apply p.filter) (p.fill value) := by
  induction segments generalizing value with
  | nil => exact ⟨.ok value, settles_ok hvalue fun _ => rfl⟩
  | cons segment segments ih =>
      cases apply_cases segment with
      | inl hfails =>
          obtain ⟨failure, hfails⟩ := hfails
          refine ⟨.error failure, settles_error fun p => ?_⟩
          rw [List.foldlM_cons, hfails, error_bind]
      | inr hcalls =>
          obtain ⟨r, rest, -, -, -, hcalls⟩ := hcalls
          have hslots : SlotsIn [.filter] (callPieces .filter r.name
              (value :: (operandsOf r).map fun operand => [.text operand])) := by
            refine slotsIn_callPieces (List.mem_cons_self ..) _ ?_
            intro operand hoperand
            cases hoperand with
            | head => exact hvalue
            | tail _ hoperand =>
                obtain ⟨t, -, rfl⟩ := List.mem_map.mp hoperand
                exact slotsIn_text t
          obtain ⟨outcome, hslotsIn, hrun⟩ := ih hslots
          refine ⟨outcome, hslotsIn, fun p => ?_⟩
          have htexts : ((operandsOf r).map fun operand => [Piece.text operand]).map p.fill =
              operandsOf r := by
            simp [Function.comp_def, fill_text]
          rw [← hrun p, List.foldlM_cons, hcalls, ok_bind, fill_callPieces, List.map_cons, htexts]
          rfl

theorem settles_compile (t : Text) :
    ∃ outcome, Settles [.filter] outcome fun p => compile t p.filter := by
  cases hsegments : placed 0 (texts .outermost 0 [] t) with
  | nil =>
      refine ⟨.ok [], settles_ok (fun _ => nofun) fun p => ?_⟩
      rw [compile, split_eq, ok_bind, hsegments]
      rfl
  | cons base filters =>
      obtain ⟨outcome, hslots, hrun⟩ := settles_foldlM filters (slotsIn_text base.text.trim)
      refine ⟨outcome, hslots, fun p => ?_⟩
      rw [← hrun p, compile, split_eq, ok_bind, hsegments, fill_text]

end FilterChain

namespace MethodCall

theorem settles_call (r : Reference)
    (h : ∀ a, r.arguments = some a →
      ∃ outcome, Settles [.method] outcome fun p => expand a.text p.method) :
    ∃ outcome, Settles [.method] outcome fun p => call (expand · p.method) p.method r := by
  have hplain : Settles [.method] (.ok (callPieces .method r.name []))
      fun p => .ok (callByName p.method r.name []) :=
    settles_ok (slotsIn_callPieces (List.mem_cons_self ..) _ nofun)
      fun p => congrArg Except.ok (fill_callPieces p .method r.name []).symm
  simp only [call]
  cases ha : r.arguments with
  | none => exact ⟨_, hplain⟩
  | some a =>
      dsimp only
      split
      · exact ⟨_, hplain⟩
      · obtain ⟨outcome, hslots, hrun⟩ := h a ha
        cases outcome with
        | error failure =>
            refine ⟨.error (failure.map (·.shift a.start)), settles_error fun p => ?_⟩
            rw [hrun p]
            rfl
        | ok pieces =>
            refine ⟨.ok (callPieces .method r.name [pieces]), settles_ok ?_ fun p => ?_⟩
            · refine slotsIn_callPieces (List.mem_cons_self ..) _ ?_
              intro operand hoperand
              rw [List.mem_singleton.mp hoperand]
              exact hslots pieces rfl
            · rw [hrun p, fill_callPieces]
              rfl

/-- What an expression expands to is settled but for the name of the pragma, at every depth of
arguments. -/
theorem exists_expands_all (n : Nesting) (t : Text) :
    ∃ outcome : Except Failure (List Piece),
      (∀ pieces, outcome = .ok pieces → SlotsIn [.method] pieces) ∧
      ∀ p : Pragmas, Expands p.method n t (outcome.map p.fill) := by
  cases unmarked_or_exists n t with
  | inl hnone =>
      refine ⟨.ok [.text t], ?_, fun p => ?_⟩
      · intro pieces hpieces
        cases hpieces
        exact slotsIn_text t
      · rw [Except.map, fill_text]
        exact .unmarked hnone
  | inr h =>
      obtain ⟨front, back, rfl, first⟩ := h
      cases hread : Reference.byHeader .method back with
      | error failure =>
          exact ⟨.error (failure.map (·.shift (front.byteLength + 1))), nofun,
            fun p => .unread first hread⟩
      | ok r =>
          have hlies := Reference.lies_of_byHeader hread
          have hinside : ∀ a, r.arguments = some a →
              ∃ outcome, Settles [.method] outcome fun p => expand a.text p.method := by
            intro a ha
            have hlen := hlies.length_arguments ha
            have hshorter : a.text.length < (front ++ marker :: back).length := by
              simp only [List.length_append, List.length_cons]
              omega
            obtain ⟨outcome, hslots, hexpands⟩ := exists_expands_all .outermost a.text
            exact ⟨outcome, hslots, fun p => expand_eq_of_expands (hexpands p)⟩
          -- The call is settled by the arguments, which are an expression of their own; what follows
          -- the reference is read in the nesting of the marker.
          obtain ⟨called, hcallSlots, hcall⟩ := settles_call r hinside
          obtain ⟨used, rest, rfl, hstop⟩ := hlies.exists_used
          have hshorter : rest.length < (front ++ marker :: (used ++ rest)).length := by
            simp only [List.length_append, List.length_cons]
            omega
          obtain ⟨behind, hslots, hbehind⟩ := exists_expands_all (n.after front) rest
          have hwhole (p : Pragmas) := Expands.of_read first hread hstop (hbehind p)
          simp only [hcall] at hwhole
          cases called with
          | error failure =>
              exact ⟨.error (failure.map (·.shift (front.byteLength + 1))), nofun, hwhole⟩
          | ok call =>
              cases behind with
              | error failure =>
                  exact ⟨.error (failure.map (·.shift (Text.byteLength (front ++ marker :: used)))),
                    nofun, hwhole⟩
              | ok others =>
                  refine ⟨.ok ([.text front] ++ call ++ others), ?_, fun p => ?_⟩
                  · intro pieces hpieces
                    cases hpieces
                    exact ((slotsIn_text front).append (hcallSlots call rfl)).append
                      (hslots others rfl)
                  · rw [Except.map, fill_append, fill_append, fill_text]
                    exact hwhole p
  termination_by t.length

theorem settles_expand (t : Text) :
    ∃ outcome, Settles [.method] outcome fun p => expand t p.method := by
  obtain ⟨outcome, hslots, hexpands⟩ := exists_expands_all .outermost t
  exact ⟨outcome, hslots, fun p => expand_eq_of_expands (hexpands p)⟩

end MethodCall

namespace TemplateText

/-- The parts for literal text have no slots. -/
def literalParts (t : Text) : List (List Piece) :=
  (literalPieces t).map fun literal => [.text literal]

theorem map_fill_literalParts (p : Pragmas) (t : Text) :
    (literalParts t).map p.fill = literalPieces t := by
  simp [literalParts, Function.comp_def, fill_text]

theorem slotsIn_literalParts {roles : List PragmaRole} {t : Text} :
    ∀ part ∈ literalParts t, SlotsIn roles part := by
  intro part hpart
  obtain ⟨literal, -, rfl⟩ := List.mem_map.mp hpart
  exact slotsIn_text literal

/-- The part for a tag. -/
def tagPart (call : List Piece) : List Piece :=
  [.slot .template] ++ ([.text ['(']] ++ (call ++ [.text [')']]))

theorem fill_tagPart (p : Pragmas) (call : List Piece) :
    p.fill (tagPart call) = p.template ++ '(' :: p.fill call ++ [')'] := by
  rw [tagPart, fill_append, fill_append, fill_append, fill_text, fill_text]
  simp [Pragmas.fill, Piece.fill, Pragmas.name]

theorem slotsIn_tagPart {call : List Piece} (h : SlotsIn [.filter] call) :
    SlotsIn [.template, .filter] (tagPart call) :=
  (slotsIn_slot (List.mem_cons_self ..)).append
    ((slotsIn_text _).append ((h.mono (List.subset_cons_self ..)).append (slotsIn_text _)))

/-- The parts of a template are settled but for the names of two pragmas, those of its text as well
as those of its tags. -/
theorem exists_pieces_all (t : Text) :
    ∃ outcome : Except Failure (List (List Piece)),
      (∀ parts, outcome = .ok parts → ∀ part ∈ parts, SlotsIn [.template, .filter] part) ∧
      ∀ p : Pragmas, pieces p t = outcome.map (List.map p.fill) := by
  cases hb : beforeTag? t with
  | none =>
      refine ⟨.ok (literalParts t), ?_, fun p => ?_⟩
      · intro parts hparts
        cases hparts
        exact slotsIn_literalParts
      · rw [pieces.eq_def, Except.map, map_fill_literalParts]
        simp only [hb]
  | some before =>
      obtain ⟨back, rfl⟩ := exists_of_beforeTag? hb
      cases hstop : tagEnd (before ++ tagOpening ++ back)
          (Text.byteLength (before ++ tagOpening)) with
      | error failure =>
          refine ⟨.error failure, by simp, fun p => ?_⟩
          rw [List.append_assoc, Text.byteLength_append] at hstop
          rw [pieces.eq_def]
          simp only [hb, hstop]
          rfl
      | ok stop =>
          obtain ⟨body, rest, rfl, hbody, -⟩ := exists_body_of_tagEnd hstop
          have htag (p : Pragmas) := pieces_tag p hbody hb
          cases hblank : body.isAllBlank with
          | true =>
              simp only [hblank, if_true] at htag
              exact ⟨.error _, by simp, htag⟩
          | false =>
              simp only [hblank, Bool.false_eq_true, if_false] at htag
              obtain ⟨compiled, hcompiledSlots, hcompiled⟩ := FilterChain.settles_compile body.trim
              have hshorter := length_behind_tag before body rest
              obtain ⟨behind, hbehindSlots, hbehind⟩ := exists_pieces_all rest
              simp only [hcompiled, hbehind] at htag
              cases compiled with
              | error failure => exact ⟨.error _, by simp, htag⟩
              | ok call =>
                  cases behind with
                  | error failure => exact ⟨.error _, by simp, htag⟩
                  | ok others =>
                      refine ⟨.ok (literalParts before ++ tagPart call :: others), ?_, fun p => ?_⟩
                      · intro parts hparts part hpart
                        cases hparts
                        cases List.mem_append.mp hpart with
                        | inl hpart => exact slotsIn_literalParts part hpart
                        | inr hpart =>
                            cases hpart with
                            | head => exact slotsIn_tagPart (hcompiledSlots call rfl)
                            | tail _ hpart => exact hbehindSlots others rfl part hpart
                      · have hparts : (literalParts before ++ tagPart call :: others).map p.fill =
                            literalPieces before ++
                              (p.template ++ '(' :: p.fill call ++ [')']) :: others.map p.fill := by
                          rw [List.map_append, map_fill_literalParts, List.map_cons, fill_tagPart]
                        exact (htag p).trans (congrArg Except.ok hparts.symm)
  termination_by t.length

theorem settles_compile (t : Text) :
    ∃ outcome, Settles [.template, .filter] outcome fun p => compile p t := by
  obtain ⟨outcome, hslots, hpieces⟩ := exists_pieces_all t
  cases outcome with
  | error failure =>
      refine ⟨.error failure, settles_error fun p => ?_⟩
      rw [compile, hpieces p]
      rfl
  | ok parts =>
      have hplus : SlotsIn [.template, .filter] [.text " + ".toList] := slotsIn_text _
      refine ⟨.ok (List.intercalate [.text " + ".toList] parts),
        settles_ok (hplus.intercalate (hslots parts rfl)) fun p => ?_⟩
      rw [compile, hpieces p, fill_intercalate, fill_text]
      rfl

end TemplateText

/-- Whatever text is compiled, as a chain, as an expression with methods or as a template, one
outcome holds for all names of the pragmas: a problem with its cause, place and tag, or pieces in
order, some of which are slots that the names of the pass fill. -/
theorem names_fill_slots (t : Text) :
    FixedBut [.filter] (fun p => FilterChain.compile t p.filter) ∧
    FixedBut [.method] (fun p => MethodCall.expand t p.method) ∧
    FixedBut [.template, .filter] (fun p => TemplateText.compile p t) := by
  obtain ⟨_, hfilters⟩ := FilterChain.settles_compile t
  obtain ⟨_, hmethods⟩ := MethodCall.settles_expand t
  obtain ⟨_, htemplate⟩ := TemplateText.settles_compile t
  refine ⟨hfilters.fixedBut ?_, hmethods.fixedBut ?_, htemplate.fixedBut ?_⟩
  · exact fun p h => FilterChain.evident_of_compile h []
  · exact fun p h => MethodCall.evident_of_expand h
  · exact fun p h => TemplateText.evident_of_pieces (TemplateText.compile_eq_error_iff.mp h)

end BindingCompiler
