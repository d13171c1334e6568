import BindingCompiler.Compiler

/-!
Sessions. A session makes compilers, numbered from zero in the order of their making, and has them
compile texts. An evaluator is the same one whenever its handle is: the number of its compiler and
its place there.
-/

namespace BindingCompiler

structure Handle where
  compiler : Nat
  slot : Nat
  deriving DecidableEq, Repr

/-- What can be asked of a session. -/
inductive Request where
  | create (pragmas : Pragmas)
  | compile (compiler : Nat) (task : Task) (text : Text)
  deriving DecidableEq, Repr

/-- What a session answers. -/
inductive Answer where
  | created (compiler : Compiler)
  /-- An evaluator, and how many its compiler has now. -/
  | compiled (handle : Handle) (evaluator : Evaluator) (count : Nat)
  /-- No evaluator, and how many its compiler has. -/
  | failed (failure : Failure) (count : Nat)
  | unknownCompiler
  deriving DecidableEq, Repr

/-- The compilers of a session, each at the place of its number. -/
structure Session where
  compilers : List Compiler := []
  deriving DecidableEq, Repr

namespace Session

def answer (s : Session) : Request → Session × Answer
  | .create pragmas =>
      let compiler := { number := s.compilers.length, pragmas }
      ({ compilers := s.compilers ++ [compiler] }, .created compiler)
  | .compile number task text =>
      match s.compilers[number]? with
      | none => (s, .unknownCompiler)
      | some compiler =>
          let (compiler, result) := compiler.compile task text
          let count := compiler.evaluators.length
          match result with
          | .ok (slot, evaluator) =>
              ({ compilers := s.compilers.set number compiler },
                .compiled ⟨number, slot⟩ evaluator count)
          | .error failure =>
              ({ compilers := s.compilers.set number compiler }, .failed failure count)

def answers (s : Session) : List Request → Session × List Answer
  | [] => (s, [])
  | request :: requests =>
      let (s, first) := s.answer request
      let (s, others) := s.answers requests
      (s, first :: others)

end Session

end BindingCompiler
