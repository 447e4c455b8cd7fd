import ZeroOne.Program
import ZeroOne.Proofs.NormalForm
import ZeroOne.Proofs.Surplus

/-! The answer of a run. What is parsed is a regular tree, on which no later stage fails, so the answer
is the value of that tree or of its normal form. -/
namespace ZeroOne

namespace Tree

/-- What an operator makes of two operands, the right one of which may not count. -/
def outcome (o : Operator) (left right : Option Value) : Option Value :=
  (decided? o left).getD (combine o left right)

/-- The value of a regular tree, if its types fit. -/
def value? : Tree → Option Value
  | .number n => some (.int n)
  | .bool b => some (.bool b)
  | .binary (.op o) l r => outcome o l.value? r.value?
  | _ => none

theorem evaluate_of_regular {t : Tree} (h : t.Regular) : t.evaluate = .ok t.value? := by
  rw [evaluate_eq_meaning]
  induction t, h using Regular.induction with
  | number n => rw [meaning, value?]
  | bool b => rw [meaning, value?]
  | operation o l r _ _ ihl ihr =>
    rw [meaning, ihl, ihr, value?, outcome]
    cases hd : decided? o l.value? <;> simp [hd]

end Tree

namespace Stacks

variable {order : OperandOrder} {s s' : Stacks}

def Regular (s : Stacks) : Prop := ∀ t ∈ s.operands, t.Regular

theorem regular_reduceWhile {due : Operator → Bool} {pending : List Pending} {operands : List Tree}
    (h : (reduceWhile order due pending operands).result = .ok s)
    (hr : (⟨pending, operands⟩ : Stacks).Regular) : s.Regular := by
  have hkeep : s.Regular = (⟨pending, operands⟩ : Stacks).Regular := by
    refine reduceWhile_keeps (fun o p pending l r below => ?_) h
    have hcombine : (order.combine o l r).Regular ↔ r.Regular ∧ l.Regular := by
      cases order <;> cases o <;> simp [OperandOrder.combine, Tree.Regular, and_comm]
    simp [Regular, hcombine, and_assoc]
  rw [hkeep]
  exact hr

theorem regular_place {t : Terminal} {p : Int} (hs : s.Regular)
    (h : (s.place order t p).result = .ok s') : s'.Regular := by
  cases t with
  | lit l =>
    cases h
    have hl : (Tree.ofLiteral l).Regular := by cases l <;> trivial
    simpa [Regular] using ⟨hl, hs⟩
  | lparen =>
    cases h
    exact hs
  | op o =>
    obtain ⟨r, hr, rfl⟩ := place_op_eq_ok h
    have hreduced : r.Regular := regular_reduceWhile hr hs
    exact hreduced
  | rparen =>
    obtain ⟨q, hr⟩ := place_rparen_eq_ok h
    have hgroup := regular_reduceWhile hr hs
    exact hgroup

theorem regular_placeAll {ts : List (Terminal × Int)} (hs : s.Regular)
    (h : (s.placeAll order ts).result = .ok s') : s'.Regular := by
  induction ts generalizing s with
  | nil =>
    cases h
    exact hs
  | cons t ts ih =>
    rw [placeAll_cons, Traced.result_bind_eq_ok_iff] at h
    obtain ⟨r, hr, h⟩ := h
    exact ih (regular_place hs hr) h

end Stacks

section

variable {order : OperandOrder} {text : Text}

theorem regular_of_parse {t : Tree} (h : (parse order text).result = .ok t) : t.Regular := by
  obtain ⟨ts, source, es, p, last, s, _, _, hp, hf⟩ := Stacks.read_eq_ok_iff.1 h
  have hstart : Stacks.start.Regular := nofun
  have hs : s.Regular := Stacks.regular_placeAll hstart hp
  have hone : (⟨[], [t]⟩ : Stacks).Regular := Stacks.regular_reduceWhile (Stacks.finish_eq_ok hf) hs
  exact hone t (by simp)

theorem result_simplifyStage {t : Tree} (h : t.Regular) :
    (simplifyStage t).result = .ok t.normal := by
  have hfix : t.fix.1.result = .ok t.normal := Tree.fix_of_regular h
  rcases hf : t.fix with ⟨⟨es, r⟩, passes⟩
  obtain rfl : r = .ok t.normal := by simpa [hf] using hfix
  rw [simplifyStage, hf]
  rfl

theorem result_evaluateStage {t : Tree} (h : t.Regular) :
    (evaluateStage t).result = .ok t.value? := by
  rw [evaluateStage, Tree.evaluate_of_regular h]
  cases t.value? <;> rfl

theorem result_run_of_parse_error {e : SyntaxError} (simplify : Bool)
    (h : (parse order text).result = .error e) :
    (run simplify order text).result = .error (.unreadable e) := by
  rcases hp : parse order text with ⟨es, r⟩
  obtain rfl : r = .error e := by simpa [hp] using h
  rw [run, hp]
  rfl

theorem result_run_of_parse {t : Tree} (simplify : Bool) (h : (parse order text).result = .ok t) :
    (run simplify order text).result = .ok (if simplify then t.normal else t).value? := by
  have hregular : t.Regular := regular_of_parse h
  rcases hp : parse order text with ⟨es, r⟩
  obtain rfl : r = .ok t := by simpa [hp] using h
  rw [run, hp]
  cases simplify with
  | false => exact result_evaluateStage hregular
  | true =>
    change (simplifyStage t >>= evaluateStage).result = _
    rw [Traced.result_bind, result_simplifyStage hregular]
    exact result_evaluateStage (Tree.regular_normal hregular)

end
end ZeroOne
