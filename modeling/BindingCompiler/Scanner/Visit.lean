import BindingCompiler.Scanner

/-!
Scans. A scan takes a scanner through a text and shows each content character to a visitor, which
keeps a memory and says after each character whether to go on, to stop there or to fail, and at
which offset to go on if not behind the character. The visitor tells code from string content by
the nesting of the scanner that it is shown.
-/

namespace BindingCompiler

/-- How a visitor wants the scan to continue. -/
inductive Verdict (ε : Type) where
  | next
  | stop
  | fail (error : ε)

/-- What a visitor makes of a character. -/
structure Reaction (σ ε : Type) where
  memory : σ
  verdict : Verdict ε
  /-- Where to go on instead of behind the character. -/
  resume : Option Nat := none

namespace Reaction

def next {σ ε : Type} (memory : σ) : Reaction σ ε := { memory, verdict := .next }

def resumeAt {σ ε : Type} (position : Nat) (memory : σ) : Reaction σ ε :=
  { memory, verdict := .next, resume := some position }

def stop {σ ε : Type} (memory : σ) : Reaction σ ε := { memory, verdict := .stop }

def fail {σ ε : Type} (error : ε) (memory : σ) : Reaction σ ε :=
  { memory, verdict := .fail error }

end Reaction

/-- A visitor is shown the scanner at each content character. -/
abbrev Visitor (σ ε : Type) := Scanner → σ → Reaction σ ε

def Visitor.onCode {σ ε : Type} (visit : Visitor σ ε) : Visitor σ ε := fun s memory =>
  if s.inCode then visit s memory else .next memory

/-- How a scan ends, with the scanner and the memory that it leaves. -/
inductive Outcome (σ ε : Type) where
  | atEnd (scanner : Scanner) (memory : σ)
  | stopped (scanner : Scanner) (memory : σ)
  | failed (scanner : Scanner) (memory : σ) (error : ε)
  /-- The number of rounds allowed was too small. -/
  | unfinished (scanner : Scanner) (memory : σ)

namespace Outcome

variable {σ ε : Type}

def scanner : Outcome σ ε → Scanner
  | atEnd s _ | stopped s _ | failed s _ _ | unfinished s _ => s

def memory : Outcome σ ε → σ
  | atEnd _ m | stopped _ m | failed _ m _ | unfinished _ m => m

end Outcome

namespace Scanner

variable {σ ε : Type}

/-- Scan for at most so many rounds, each of which leaves one character or one structural mark
behind. A request to go on elsewhere waits until a visitor says to go on, stays behind when the
visitor fails, and is dropped when the visitor stops. -/
def scanFor (visit : Visitor σ ε) : Nat → Scanner → σ → Outcome σ ε
  | 0, s, memory => .unfinished s memory
  | rounds + 1, s, memory =>
      if s.atEnd then
        .atEnd s memory
      else
        match s.nesting.read s.here? s.next? with
        | .skip width after => scanFor visit rounds ({ s with nesting := after }.skip width) memory
        | .visit within =>
            let shown := { s with nesting := within }
            let reaction := visit shown memory
            let asked := reaction.resume.elim shown shown.resumeAt
            match reaction.verdict with
            | .next => scanFor visit rounds asked.proceed reaction.memory
            | .stop => .stopped { asked with pending := none } reaction.memory
            | .fail error => .failed asked reaction.memory error

/-- Scan with a visitor that goes back in the text at most so many times, each after no more
rounds than the text has bytes; a request that an earlier scan left counts as one more. -/
def scanBack (visit : Visitor σ ε) (times : Nat) (s : Scanner) (memory : σ) : Outcome σ ε :=
  s.scanFor visit ((times + 2) * (s.source.byteLength + 1)) memory

/-- Scan with a visitor that never goes back in the text. -/
def scan (visit : Visitor σ ε) (s : Scanner) (memory : σ) : Outcome σ ε :=
  s.scanFor visit (s.source.byteLength + 1) memory

end Scanner

end BindingCompiler
