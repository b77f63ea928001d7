import Pseudocode.Evaluation
import Pseudocode.Program.Parser

/-!
# Running programs

A source is read, and its statements run in the global scope of a fresh machine. A `RETURN` outside
of procedures ends the program with that value.
-/

namespace Pseudocode

/-- Fuel beyond what any loop can use up in practice. -/
def ampleFuel : Nat := Nat.pow 10 18

/-- How a program ended, and the lines it displayed until then. -/
structure Outcome where
  output : Array String
  result : Except Halt (Option Value)

/-- Runs a program in the global scope. -/
def executeProgram (fuel : Nat) (program : Block) : EvalM (Option Value) := do
  let flow ← executeBlock (.standard fuel) program Machine.global
  pure flow.value?

/-- What a step of evaluation leads to on a fresh machine. -/
def EvalM.outcome (step : EvalM (Option Value)) : Outcome :=
  match step Machine.fresh with
  | .ok value after => ⟨after.output, .ok value⟩
  | .error halt after => ⟨after.output, .error halt⟩

/-- Runs a program that has been read. A program that could not be read shows nothing. -/
def runParsed (fuel : Nat) : Except Halt Block → Outcome
  | .ok program => (executeProgram fuel program).outcome
  | .error halt => ⟨#[], .error halt⟩

/-- Reads and runs a source. -/
def run (fuel : Nat) (source : String) : Outcome := runParsed fuel (parseSource source)

end Pseudocode
