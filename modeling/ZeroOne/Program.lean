import ZeroOne.Parser
import ZeroOne.Tree.Evaluate
import ZeroOne.Tree.Fixpoint

/-! From a text to its value: parse, simplify if asked to, evaluate. -/
namespace ZeroOne

inductive RunError
  | unreadable (e : SyntaxError)
  | faulty (e : Fault)
  deriving DecidableEq, Repr

def simplifyStage (t : Tree) : Traced RunError Tree := do
  .emit .simplifying
  let u ← t.fix.1.mapError .faulty
  .emit (.simplified t.fix.2 u)
  return u

def evaluateStage (t : Tree) : Traced RunError (Option Value) := do
  .emit .evaluating
  match ← Traced.ofExcept (t.evaluate.mapError .faulty) with
  | some v => return some v
  | none =>
    .emit (.illTyped t)
    return none

/-- The value of a text, if it has one. -/
def run (simplify : Bool) (order : OperandOrder) (text : Text) : Traced RunError (Option Value) := do
  .emit .parsing
  let t ← (parse order text).mapError .unreadable
  .emit (.parsed t)
  evaluateStage (← if simplify then simplifyStage t else pure t)

end ZeroOne
