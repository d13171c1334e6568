import Mathlib.Data.List.Dedup
import BindingCompiler.Session

/-!
The evaluators that the compilers of a session keep. A compiler keeps one evaluator for each body
that it has compiled, at the place that it answered with, and no other evaluator; the parameters of
all of them are named after it, and after no other compiler.
-/

namespace BindingCompiler

theorem parameterName_injective (role : Text) {n m : Nat}
    (h : parameterName role n = parameterName role m) : n = m := by
  simp only [parameterName, List.append_assoc, List.cons_append] at h
  have hbehind := List.append_cancel_left (List.append_cancel_left h)
  have hdigits := List.append_cancel_right (List.cons.inj hbehind).2
  rw [← Nat.ofDigitChars_ten_toDigits (n := n), hdigits, Nat.ofDigitChars_ten_toDigits]

/-- The names of the two parameters differ in their third character. -/
theorem parameterName_locals_ne_args (n m : Nat) :
    parameterName "locals".toList n ≠ parameterName "args".toList m := by
  intro h
  have hthird := congrArg (fun name : Text => name[2]?) h
  exact absurd hthird (by simp [parameterName])

namespace Compiler

/-- The compiler has compiled these bodies and no others, and keeps one evaluator for each. -/
structure Keeps (c : Compiler) (bodies : List Text) : Prop where
  made : ∀ e ∈ c.evaluators, e.compiler = c.number
  distinct : (c.evaluators.map (·.body)).Nodup
  bodies : ∀ body, body ∈ c.evaluators.map (·.body) ↔ body ∈ bodies

/-- A body that has been compiled is found at the place of its evaluator; another gets an evaluator
behind all others. -/
theorem evaluatorFor_cases (c : Compiler) (body : Text) :
    (∃ slot e, c.evaluatorFor body = (c, slot, e) ∧ c.evaluators[slot]? = some e ∧
      e.body = body) ∨
    (body ∉ c.evaluators.map (·.body) ∧
      c.evaluatorFor body = ({ c with evaluators := c.evaluators ++ [⟨c.number, body⟩] },
        c.evaluators.length, ⟨c.number, body⟩)) := by
  cases hslot : c.evaluators.findIdx? (·.body == body) with
  | none =>
      refine .inr ⟨?_, by simp only [evaluatorFor, hslot]⟩
      intro hmem
      obtain ⟨e, he, hbody⟩ := List.mem_map.mp hmem
      have hno := List.findIdx?_eq_none_iff.mp hslot e he
      simp [hbody] at hno
  | some slot =>
      obtain ⟨hlt, hbody, hfirst⟩ := List.findIdx?_eq_some_iff_getElem.mp hslot
      have hfind : c.evaluators.find? (·.body == body) = some c.evaluators[slot] :=
        List.find?_eq_some_iff_getElem.mpr
          ⟨hbody, slot, hlt, rfl, fun j hj => by simpa using hfirst j hj⟩
      exact .inl ⟨slot, c.evaluators[slot], by simp only [evaluatorFor, hslot, hfind],
        List.getElem?_eq_getElem hlt, beq_iff_eq.mp hbody⟩

/-- A compiler after it has been used: the same one, and what it kept is where it was. -/
structure Extends (c c' : Compiler) : Prop where
  number : c'.number = c.number
  pragmas : c'.pragmas = c.pragmas
  kept : c.evaluators <+: c'.evaluators

theorem Extends.refl (c : Compiler) : c.Extends c :=
  ⟨rfl, rfl, List.prefix_refl _⟩

theorem Extends.bodyFor {c c' : Compiler} (h : c.Extends c') (task : Task) (text : Text) :
    c'.bodyFor task text = c.bodyFor task text := by
  cases task with
  | source kind => cases kind <;> simp only [Compiler.bodyFor, h.pragmas]
  | setter => simp only [Compiler.bodyFor, h.number]
  | getter | body => rfl

theorem Extends.getElem? {c c' : Compiler} (h : c.Extends c') {slot : Nat} {e : Evaluator}
    (he : c.evaluators[slot]? = some e) : c'.evaluators[slot]? = some e := by
  obtain ⟨more, hmore⟩ := h.kept
  obtain ⟨hlt, -⟩ := List.getElem?_eq_some_iff.mp he
  rw [← hmore, List.getElem?_append_left hlt, he]

/-- A compiler before and after it has answered with the evaluator for a body, and its place. -/
structure Answers (c : Compiler) (body : Text) (c' : Compiler) (slot : Nat) (e : Evaluator) :
    Prop where
  extended : c.Extends c'
  found : c'.evaluators[slot]? = some e
  body_eq : e.body = body
  keeps : ∀ bodies, c.Keeps bodies → c'.Keeps (bodies ++ [body])

theorem answers_evaluatorFor (c : Compiler) (body : Text) :
    c.Answers body (c.evaluatorFor body).1 (c.evaluatorFor body).2.1
      (c.evaluatorFor body).2.2 := by
  obtain ⟨slot, e, heq, hfound, hbody⟩ | ⟨hnew, heq⟩ := c.evaluatorFor_cases body
  · rw [heq]
    refine ⟨.refl c, hfound, hbody, ?_⟩
    intro bodies hkeeps
    have hold : body ∈ bodies := by
      rw [← hkeeps.bodies, ← hbody]
      exact List.mem_map_of_mem (List.mem_of_getElem? hfound)
    refine ⟨hkeeps.made, hkeeps.distinct, fun other => ?_⟩
    rw [hkeeps.bodies, List.mem_append, List.mem_singleton]
    exact ⟨.inl, fun h => h.elim id fun h => h ▸ hold⟩
  · rw [heq]
    refine ⟨⟨rfl, rfl, List.prefix_append ..⟩, List.getElem?_concat_length, rfl, ?_⟩
    intro bodies hkeeps
    refine ⟨?_, ?_, ?_⟩
    · intro e he
      cases List.mem_append.mp he with
      | inl he => exact hkeeps.made e he
      | inr he => rw [List.mem_singleton.mp he]
    · rw [List.map_append, List.map_singleton]
      exact List.nodup_append.mpr ⟨hkeeps.distinct, List.nodup_singleton _,
        fun old hold last hlast h => hnew (by rwa [h, List.mem_singleton.mp hlast] at hold)⟩
    · intro other
      simp only [List.map_append, List.map_singleton, List.mem_append, hkeeps.bodies]

/-- A call finds an error in the text and leaves the compiler as it is, or is answered with the
evaluator for the body of the text. -/
theorem compile_cases (c : Compiler) (task : Task) (text : Text) :
    (∃ failure, c.bodyFor task text = .error failure ∧
      c.compile task text = (c, .error failure)) ∨
    ∃ body c' slot e, c.bodyFor task text = .ok body ∧
      c.compile task text = (c', .ok (slot, e)) ∧ c.Answers body c' slot e := by
  cases hbody : c.bodyFor task text with
  | error failure => exact .inl ⟨failure, rfl, by simp only [compile, hbody]⟩
  | ok body =>
      refine .inr ⟨body, (c.evaluatorFor body).1, (c.evaluatorFor body).2.1,
        (c.evaluatorFor body).2.2, rfl, ?_, c.answers_evaluatorFor body⟩
      simp only [compile, hbody]

/-- No body has two places. -/
theorem Keeps.slot_eq_iff {c : Compiler} {bodies : List Text} (h : c.Keeps bodies)
    {slot slot' : Nat} {e e' : Evaluator} (he : c.evaluators[slot]? = some e)
    (he' : c.evaluators[slot']? = some e') : slot = slot' ↔ e.body = e'.body := by
  constructor
  · rintro rfl
    rw [Option.some.inj (he.symm.trans he')]
  · intro hbody
    obtain ⟨hlt, -⟩ := List.getElem?_eq_some_iff.mp he
    refine (List.getElem?_inj (by rwa [List.length_map]) h.distinct).mp ?_
    rw [List.getElem?_map, List.getElem?_map, he, he', Option.map_some, Option.map_some, hbody]

theorem Keeps.length_eq {c : Compiler} {bodies : List Text} (h : c.Keeps bodies) :
    c.evaluators.length = bodies.dedup.length := by
  have hperm : (c.evaluators.map (·.body)).Perm bodies.dedup := by
    rw [List.perm_ext_iff_of_nodup h.distinct (List.nodup_dedup bodies)]
    intro body
    rw [h.bodies, List.mem_dedup]
  rw [← hperm.length_eq, List.length_map]

/-- A compiler finds an evaluator for the bodies that it has compiled, and for no others. -/
theorem Keeps.isSome_find {c : Compiler} {bodies : List Text} (h : c.Keeps bodies) (body : Text) :
    (c.evaluators.find? (·.body == body)).isSome ↔ body ∈ bodies := by
  rw [List.find?_isSome, ← h.bodies, List.mem_map]
  simp only [beq_iff_eq]

/-- What a compiler finds for a body is an evaluator of its own for that body. -/
theorem Keeps.find {c : Compiler} {bodies : List Text} (h : c.Keeps bodies) {body : Text}
    {e : Evaluator} (hfind : c.evaluators.find? (·.body == body) = some e) :
    e.body = body ∧ e.localsName = parameterName "locals".toList c.number ∧
      e.restName = parameterName "args".toList c.number := by
  have hmade := h.made e (List.mem_of_find?_eq_some hfind)
  have hbody := List.find?_some hfind
  exact ⟨beq_iff_eq.mp hbody, by rw [Evaluator.localsName, hmade],
    by rw [Evaluator.restName, hmade]⟩

end Compiler

/-- Evaluators of different compilers have no parameter name in common. -/
theorem Evaluator.parameters_disjoint {e e' : Evaluator} (h : e.compiler ≠ e'.compiler) :
    ∀ name ∈ [e.localsName, e.restName], name ∉ [e'.localsName, e'.restName] := by
  intro name hname hname'
  simp only [List.mem_cons, List.not_mem_nil, or_false] at hname hname'
  rcases hname with rfl | rfl
  · rcases hname' with hsame | hsame
    · exact h (parameterName_injective _ hsame)
    · exact parameterName_locals_ne_args _ _ hsame
  · rcases hname' with hsame | hsame
    · exact parameterName_locals_ne_args _ _ hsame.symm
    · exact h (parameterName_injective _ hsame)

/-- A call that a session has answered with an evaluator. -/
structure Call where
  compiler : Nat
  task : Task
  text : Text
  handle : Handle
  evaluator : Evaluator
  deriving DecidableEq, Repr

def Call.of? : Request × Answer → Option Call
  | (.compile compiler task text, .compiled handle evaluator _) =>
      some { compiler, task, text, handle, evaluator }
  | _ => none

/-- How many evaluators its compiler has, by the answer to a call. -/
def Answer.count? : Answer → Option Nat
  | .compiled _ _ count => some count
  | .failed _ count => some count
  | .created _ => none
  | .unknownCompiler => none

/-- The bodies that the calls to a compiler have compiled. -/
def compiledBodies (n : Nat) (calls : List Call) : List Text :=
  (calls.filter (·.compiler = n)).map (·.evaluator.body)

theorem compiledBodies_append (n : Nat) (calls more : List Call) :
    compiledBodies n (calls ++ more) = compiledBodies n calls ++ compiledBodies n more := by
  rw [compiledBodies, List.filter_append, List.map_append]
  rfl

namespace Session

/-- The calls among some requests that a session answers with an evaluator. -/
def calls (s : Session) (requests : List Request) : List Call :=
  (requests.zip (s.answers requests).2).filterMap Call.of?

/-- What a request does to a session, and the answer to it. -/
inductive Answers (s : Session) : Request → Session → Answer → Prop
  | created (pragmas : Pragmas) :
      s.Answers (.create pragmas) ⟨s.compilers ++ [⟨s.compilers.length, pragmas, []⟩]⟩
        (.created ⟨s.compilers.length, pragmas, []⟩)
  | unknown {n : Nat} {task : Task} {text : Text} (absent : s.compilers[n]? = none) :
      s.Answers (.compile n task text) s .unknownCompiler
  | failed {n : Nat} {task : Task} {text : Text} {c : Compiler} {failure : Failure}
      (found : s.compilers[n]? = some c) (fault : c.bodyFor task text = .error failure) :
      s.Answers (.compile n task text) s (.failed failure c.evaluators.length)
  | compiled {n : Nat} {task : Task} {text body : Text} {c c' : Compiler} {slot : Nat}
      {e : Evaluator} (found : s.compilers[n]? = some c) (made : c.bodyFor task text = .ok body)
      (answered : c.Answers body c' slot e) :
      s.Answers (.compile n task text) ⟨s.compilers.set n c'⟩
        (.compiled ⟨n, slot⟩ e c'.evaluators.length)

theorem answers_answer (s : Session) (request : Request) :
    s.Answers request (s.answer request).1 (s.answer request).2 := by
  cases request with
  | create pragmas => exact .created pragmas
  | compile n task text =>
      cases hc : s.compilers[n]? with
      | none =>
          simp only [answer, hc]
          exact .unknown hc
      | some c =>
          obtain ⟨failure, hfault, heq⟩ | ⟨body, c', slot, e, hmade, heq, hanswer⟩ :=
            c.compile_cases task text
          · -- Putting the same compiler back leaves the session as it is.
            obtain ⟨hlt, hget⟩ := List.getElem?_eq_some_iff.mp hc
            have hsame : s.compilers.set n c = s.compilers := by
              rw [← hget, List.set_getElem_self]
            simp only [answer, hc, heq, hsame]
            exact .failed hc hfault
          · simp only [answer, hc, heq]
            exact .compiled hc hmade hanswer

/-- A session after it has been used: its compilers are where they were. -/
def Extends (s s' : Session) : Prop :=
  ∀ (n : Nat) (c : Compiler), s.compilers[n]? = some c →
    ∃ c', s'.compilers[n]? = some c' ∧ c.Extends c'

/-- A call has its evaluator from the compiler that it was made to, for the body of its text. -/
structure Answered (s : Session) (call : Call) : Prop where
  compiler : call.handle.compiler = call.compiler
  found : ∃ c, s.compilers[call.compiler]? = some c ∧
    c.evaluators[call.handle.slot]? = some call.evaluator ∧
    c.bodyFor call.task call.text = .ok call.evaluator.body

theorem Answered.extend {s s' : Session} {call : Call} (h : s.Answered call)
    (hs : s.Extends s') : s'.Answered call := by
  obtain ⟨c, hc, hslot, hbody⟩ := h.found
  obtain ⟨c', hc', hext⟩ := hs _ _ hc
  exact ⟨h.compiler, c', hc', hext.getElem? hslot, (hext.bodyFor ..).trans hbody⟩

/-- A session after the calls that it has answered. -/
structure Keeps (s : Session) (calls : List Call) : Prop where
  number : ∀ (n : Nat) (c : Compiler), s.compilers[n]? = some c → c.number = n
  keeps : ∀ (n : Nat) (c : Compiler), s.compilers[n]? = some c → c.Keeps (compiledBodies n calls)
  answered : ∀ call ∈ calls, s.Answered call

section Step

variable {s s' : Session} {request : Request} {answer : Answer}

theorem Answers.extends (h : s.Answers request s' answer) : s.Extends s' := by
  intro n c hc
  cases h with
  | created pragmas =>
      obtain ⟨hlt, -⟩ := List.getElem?_eq_some_iff.mp hc
      exact ⟨c, by rw [List.getElem?_append_left hlt, hc], .refl c⟩
  | unknown | failed => exact ⟨c, hc, .refl c⟩
  | @compiled m _ _ _ c₁ c' _ _ hfound _ hanswer =>
      obtain ⟨hlt, -⟩ := List.getElem?_eq_some_iff.mp hc
      by_cases hm : m = n
      · subst hm
        rw [hc] at hfound
        cases hfound
        exact ⟨c', List.getElem?_set_self hlt, hanswer.extended⟩
      · exact ⟨c, by rw [List.getElem?_set_ne hm, hc], .refl c⟩

theorem Answers.others (h : s.Answers request s' answer) {n : Nat} {c : Compiler}
    (hc : s.compilers[n]? = some c) (hn : ∀ task text, request ≠ .compile n task text) :
    s'.compilers[n]? = some c := by
  cases h with
  | created pragmas =>
      obtain ⟨hlt, -⟩ := List.getElem?_eq_some_iff.mp hc
      rw [List.getElem?_append_left hlt, hc]
  | unknown | failed => exact hc
  | @compiled m task text =>
      have hm : m ≠ n := fun hm => hn task text (by rw [hm])
      rw [List.getElem?_set_ne hm, hc]

theorem Answers.count? {n : Nat} {task : Task} {text : Text}
    (h : s.Answers (.compile n task text) s' answer) :
    answer.count? = s'.compilers[n]?.map (·.evaluators.length) := by
  cases h with
  | unknown hnone => rw [hnone]; rfl
  | failed hfound => rw [hfound]; rfl
  | compiled hfound =>
      obtain ⟨hlt, -⟩ := List.getElem?_eq_some_iff.mp hfound
      rw [List.getElem?_set_self hlt]
      rfl

theorem Answers.failed_eq {failure : Failure} {count : Nat}
    (h : s.Answers request s' (.failed failure count)) : s' = s := by
  cases h with
  | failed => rfl

/-- Calls are to compilers that there are. -/
theorem Keeps.compiledBodies_of_length_le {calls : List Call} (h : s.Keeps calls) {n : Nat}
    (hn : s.compilers.length ≤ n) : compiledBodies n calls = [] := by
  rw [compiledBodies, List.map_eq_nil_iff, List.filter_eq_nil_iff]
  intro call hcall heq
  obtain ⟨c, hc, -⟩ := (h.answered call hcall).found
  obtain ⟨hlt, -⟩ := List.getElem?_eq_some_iff.mp hc
  have hsame := of_decide_eq_true heq
  omega

/-- A new compiler has compiled nothing. -/
theorem Keeps.create {calls : List Call} (h : s.Keeps calls) (pragmas : Pragmas)
    (hs : s.Extends ⟨s.compilers ++ [⟨s.compilers.length, pragmas, []⟩]⟩) :
    Keeps ⟨s.compilers ++ [⟨s.compilers.length, pragmas, []⟩]⟩ calls := by
  have hcases : ∀ (n : Nat) (c : Compiler),
      (s.compilers ++ [⟨s.compilers.length, pragmas, []⟩])[n]? = some c →
        s.compilers[n]? = some c ∨
          n = s.compilers.length ∧ c = ⟨s.compilers.length, pragmas, []⟩ := by
    intro n c hc
    by_cases hn : n < s.compilers.length
    · exact .inl (by rwa [List.getElem?_append_left hn] at hc)
    · rw [List.getElem?_append_right (by omega)] at hc
      obtain ⟨hzero, rfl⟩ := List.getElem?_eq_some_iff.mp hc
      rw [List.length_singleton] at hzero
      exact .inr ⟨by omega, List.getElem_singleton ..⟩
  refine ⟨?_, ?_, fun call hcall => (h.answered call hcall).extend hs⟩
  · intro n c hc
    obtain hc | ⟨rfl, rfl⟩ := hcases n c hc
    · exact h.number n c hc
    · rfl
  · intro n c hc
    obtain hc | ⟨rfl, rfl⟩ := hcases n c hc
    · exact h.keeps n c hc
    · rw [h.compiledBodies_of_length_le (Nat.le_refl _)]
      exact ⟨nofun, List.nodup_nil, fun body => .rfl⟩

/-- A compiler that has answered has compiled one body more, and the others none. -/
theorem Keeps.compile {calls : List Call} (h : s.Keeps calls) {n : Nat} {task : Task}
    {text body : Text} {c c' : Compiler} {slot : Nat} {e : Evaluator}
    (hfound : s.compilers[n]? = some c) (hmade : c.bodyFor task text = .ok body)
    (hanswer : c.Answers body c' slot e) (hs : s.Extends ⟨s.compilers.set n c'⟩) :
    Keeps ⟨s.compilers.set n c'⟩ (calls ++ [⟨n, task, text, ⟨n, slot⟩, e⟩]) := by
  obtain ⟨hlt, -⟩ := List.getElem?_eq_some_iff.mp hfound
  have hself : (s.compilers.set n c')[n]? = some c' := List.getElem?_set_self hlt
  refine ⟨?_, ?_, ?_⟩
  · intro m c₁ hc₁
    by_cases hm : n = m
    · subst hm
      rw [hself] at hc₁
      cases hc₁
      rw [hanswer.extended.number, h.number n c hfound]
    · rw [List.getElem?_set_ne hm] at hc₁
      exact h.number m c₁ hc₁
  · intro m c₁ hc₁
    rw [compiledBodies_append]
    by_cases hm : n = m
    · subst hm
      rw [hself] at hc₁
      cases hc₁
      have hlast : compiledBodies n [⟨n, task, text, ⟨n, slot⟩, e⟩] = [body] := by
        simp [compiledBodies, hanswer.body_eq]
      rw [hlast]
      exact hanswer.keeps _ (h.keeps n c hfound)
    · rw [List.getElem?_set_ne hm] at hc₁
      have hnone : compiledBodies m [⟨n, task, text, ⟨n, slot⟩, e⟩] = [] := by
        simp [compiledBodies, hm]
      rw [hnone, List.append_nil]
      exact h.keeps m c₁ hc₁
  · intro call hcall
    cases List.mem_append.mp hcall with
    | inl hcall => exact (h.answered call hcall).extend hs
    | inr hcall =>
        rw [List.mem_singleton.mp hcall]
        exact ⟨rfl, c', hself, hanswer.found, by
          rw [hanswer.extended.bodyFor, hmade, hanswer.body_eq]⟩

theorem Answers.keeps {calls : List Call} (h : s.Answers request s' answer)
    (hkeeps : s.Keeps calls) : s'.Keeps (calls ++ (Call.of? (request, answer)).toList) := by
  have hs := h.extends
  cases h with
  | created pragmas =>
      change Keeps _ (calls ++ [])
      rw [List.append_nil]
      exact hkeeps.create pragmas hs
  | unknown | failed =>
      change Keeps _ (calls ++ [])
      rwa [List.append_nil]
  | compiled hfound hmade hanswer => exact hkeeps.compile hfound hmade hanswer hs

end Step

section Calls

variable {s : Session} {calls : List Call} {call other : Call}

theorem Keeps.evaluator_compiler (h : s.Keeps calls) (hcall : call ∈ calls) :
    call.evaluator.compiler = call.compiler := by
  obtain ⟨c, hc, hslot, -⟩ := (h.answered call hcall).found
  rw [(h.keeps _ c hc).made _ (List.mem_of_getElem? hslot), h.number _ c hc]

/-- The evaluator of a call is all that its handle says. -/
theorem Keeps.evaluator_eq (h : s.Keeps calls) (hcall : call ∈ calls) (hother : other ∈ calls)
    (heq : call.handle = other.handle) : call.evaluator = other.evaluator := by
  have hc := h.answered call hcall
  have ho := h.answered other hother
  obtain ⟨c, hfound, hslot, -⟩ := hc.found
  obtain ⟨c', hfound', hslot', -⟩ := ho.found
  rw [← hc.compiler, heq, ho.compiler, hfound'] at hfound
  cases hfound
  rw [heq, hslot'] at hslot
  exact (Option.some.inj hslot).symm

theorem Keeps.handle_eq_iff (h : s.Keeps calls) (hcall : call ∈ calls) (hother : other ∈ calls) :
    call.handle = other.handle ↔
      call.compiler = other.compiler ∧ call.evaluator.body = other.evaluator.body := by
  have hc := h.answered call hcall
  have ho := h.answered other hother
  constructor
  · intro heq
    exact ⟨by rw [← hc.compiler, heq, ho.compiler], by rw [h.evaluator_eq hcall hother heq]⟩
  · rintro ⟨hsame, hbody⟩
    obtain ⟨c, hfound, hslot, -⟩ := hc.found
    obtain ⟨c', hfound', hslot', -⟩ := ho.found
    rw [hsame, hfound'] at hfound
    cases hfound
    have hplace := ((h.keeps _ _ hfound').slot_eq_iff hslot hslot').mpr hbody
    calc call.handle = ⟨call.compiler, call.handle.slot⟩ := by rw [← hc.compiler]
      _ = ⟨other.compiler, other.handle.slot⟩ := by rw [hsame, hplace]
      _ = other.handle := by rw [← ho.compiler]

end Calls

/-- Whatever is asked of a session, it keeps what it has answered. -/
theorem Keeps.answers {s : Session} {past : List Call} (h : s.Keeps past)
    (requests : List Request) : (s.answers requests).1.Keeps (past ++ s.calls requests) := by
  induction requests generalizing s past with
  | nil =>
      change s.Keeps (past ++ [])
      rwa [List.append_nil]
  | cons request requests ih =>
      have hnext := ih ((s.answers_answer request).keeps h)
      have hcalls : s.calls (request :: requests) =
          (Call.of? (request, (s.answer request).2)).toList ++
            (s.answer request).1.calls requests := by
        simp only [calls, Session.answers, List.zip_cons_cons, List.filterMap_cons]
        cases Call.of? (request, (s.answer request).2) <;> rfl
      rw [hcalls, ← List.append_assoc]
      exact hnext

/-- A session that has just begun. -/
theorem keeps_empty : Keeps {} [] :=
  ⟨nofun, nofun, nofun⟩

/-- After any requests, a compiler finds evaluators for the bodies that calls to it have compiled,
each for its own body and with parameters named after the compiler, and has one evaluator for each
different body. A call has its evaluator from the compiler that it was made to; two calls have the
very same evaluator exactly when they were made to one compiler and compiled one body, and have no
parameter name in common when they were made to two compilers. The next request leaves in place
whatever is kept and leaves every other compiler as it is; when the answer is an error, it leaves
all of them as they are. -/
theorem caches_of_requests (requests : List Request) :
    let s := (answers {} requests).1
    (∀ n c, s.compilers[n]? = some c →
      c.number = n ∧
      (∀ body, (c.evaluators.find? (·.body == body)).isSome ↔
        body ∈ compiledBodies n (calls {} requests)) ∧
      (∀ body e, c.evaluators.find? (·.body == body) = some e →
        e.body = body ∧ e.localsName = parameterName "locals".toList c.number ∧
          e.restName = parameterName "args".toList c.number) ∧
      c.evaluators.length = (compiledBodies n (calls {} requests)).dedup.length) ∧
    (∀ call ∈ calls {} requests, s.Answered call ∧
      ∀ other ∈ calls {} requests,
        (call.handle = other.handle ↔
          call.compiler = other.compiler ∧ call.evaluator.body = other.evaluator.body) ∧
        (call.handle = other.handle → call.evaluator = other.evaluator) ∧
        (call.compiler ≠ other.compiler →
          ∀ name ∈ [call.evaluator.localsName, call.evaluator.restName],
            name ∉ [other.evaluator.localsName, other.evaluator.restName])) ∧
    ∀ request,
      s.Extends (s.answer request).1 ∧
      (∀ n c, s.compilers[n]? = some c → (∀ task text, request ≠ .compile n task text) →
        (s.answer request).1.compilers[n]? = some c) ∧
      (∀ failure count, (s.answer request).2 = .failed failure count →
        (s.answer request).1 = s) ∧
      ∀ n task text, request = .compile n task text →
        (s.answer request).2.count? =
          (s.answer request).1.compilers[n]?.map (·.evaluators.length) := by
  intro s
  have hkeeps : s.Keeps (calls {} requests) := keeps_empty.answers requests
  refine ⟨?_, ?_, ?_⟩
  · intro n c hc
    have hc' := hkeeps.keeps n c hc
    exact ⟨hkeeps.number n c hc, hc'.isSome_find, fun body e => hc'.find, hc'.length_eq⟩
  · intro call hcall
    have hanswered := hkeeps.answered call hcall
    refine ⟨hanswered, fun other hother => ?_⟩
    refine ⟨hkeeps.handle_eq_iff hcall hother, hkeeps.evaluator_eq hcall hother, fun hne => ?_⟩
    apply Evaluator.parameters_disjoint
    rwa [hkeeps.evaluator_compiler hcall, hkeeps.evaluator_compiler hother]
  · intro request
    have hanswer := s.answers_answer request
    refine ⟨hanswer.extends, fun n c hc => hanswer.others hc, ?_, ?_⟩
    · intro failure count hfailed
      rw [hfailed] at hanswer
      exact hanswer.failed_eq
    · rintro n task text rfl
      exact hanswer.count?

/-- A getter and a plain body for one text share an evaluator of one compiler, and no evaluator of
another. -/
example :
    (calls {} [.create {}, .create {}, .compile 0 .getter "a".toList,
      .compile 0 .body "return a".toList, .compile 1 .getter "a".toList,
      .compile 0 .setter "a".toList]).map (·.handle) = [⟨0, 0⟩, ⟨0, 0⟩, ⟨1, 0⟩, ⟨0, 1⟩] := by
  decide

end Session

end BindingCompiler
