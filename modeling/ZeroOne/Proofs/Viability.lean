import ZeroOne.Proofs.Derivation

/-! Words that can go on to grammatical ones. No reading is a dead end: one operand and the parentheses
that are missing complete it, so these are all the words that can be read. -/
namespace ZeroOne.Grammar

/-- A viable word is the first part of a grammatical one. -/
def Viable (w : List Terminal) : Prop := ∃ v, Grammatical (w ++ v)

namespace Reading

theorem steps?_snoc {q r : Reading} {w : List Terminal} (h : q.steps? w = some r) (t : Terminal) :
    q.steps? (w ++ [t]) = r.step? t := by
  rw [steps?_append, h]
  change r.steps? [t] = _
  rw [steps?_cons]
  exact Option.bind_fun_some (r.step? t)

/-- Closing all groups that are open ends a reading where an operator is due. -/
theorem result?_of_operatorDue (outer : List Frame) (here : Frame) (t : Tree) :
    ∃ u, ((operatorDue here t outer).steps? (outer.map fun _ => .rparen)).bind result? = some u := by
  induction outer generalizing here t with
  | nil => exact ⟨here.disjunction t, rfl⟩
  | cons around outer ih =>
    obtain ⟨u, hu⟩ := ih around (here.disjunction t)
    refine ⟨u, ?_⟩
    rw [List.map_cons, steps?_cons]
    exact hu

theorem exists_completion (r : Reading) : ∃ v u, (r.steps? v).bind result? = some u := by
  cases r with
  | operatorDue here t outer => exact ⟨_, result?_of_operatorDue outer here t⟩
  | operandDue here outer =>
    obtain ⟨u, hu⟩ := result?_of_operatorDue outer here (.ofLiteral .one)
    refine ⟨.lit .one :: outer.map fun _ => .rparen, u, ?_⟩
    rw [steps?_cons]
    exact hu

end Reading

/-- A word is viable if and only if it can be read. -/
theorem viable_iff {w : List Terminal} : Viable w ↔ ∃ r, Reading.start.steps? w = some r := by
  constructor
  · rintro ⟨v, t, ht⟩
    obtain ⟨r, hr, _⟩ := Option.bind_eq_some_iff.1 (read?_of_derives ht)
    rw [Reading.steps?_append] at hr
    obtain ⟨q, hq, _⟩ := Option.bind_eq_some_iff.1 hr
    exact ⟨q, hq⟩
  · rintro ⟨r, hr⟩
    obtain ⟨v, u, hu⟩ := r.exists_completion
    refine ⟨v, u, read?_eq_some_iff.1 ?_⟩
    rw [read?, Reading.steps?_append, hr]
    exact hu

/-- The terminals that a reading can go on with are those that keep its word viable. -/
theorem viable_append_iff {w : List Terminal} {r : Reading} (hr : Reading.start.steps? w = some r)
    (t : Terminal) : Viable (w ++ [t]) ↔ (r.step? t).isSome := by
  rw [viable_iff, Reading.steps?_snoc hr, Option.isSome_iff_exists]

end ZeroOne.Grammar
