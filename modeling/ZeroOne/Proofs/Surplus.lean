import ZeroOne.Proofs.Stacks
import Mathlib.Data.List.Chain

/-! What reductions keep: the number of operands that no operator joins, and the leaves in order. Both
are known from the word alone, whatever its structure. -/
namespace ZeroOne

def Tree.leaves : Tree → List Tree
  | .binary _ l r => l.leaves ++ r.leaves
  | t => [t]

namespace Terminal

def leaf? : Terminal → Option Tree
  | .lit l => some (.ofLiteral l)
  | _ => none

/-- What a terminal adds to the number of operands that no operator joins. -/
def surplus : Terminal → Int
  | .lit _ => 1
  | .op _ => -1
  | .lparen | .rparen => 0

def startsOperand : Terminal → Bool
  | .lit _ | .lparen => true
  | .op _ | .rparen => false

def endsOperand : Terminal → Bool
  | .lit _ | .rparen => true
  | .op _ | .lparen => false

end Terminal

namespace Grammar

def surplus : List Terminal → Int
  | [] => 0
  | t :: w => t.surplus + surplus w

/-- No operand follows directly on another one. -/
def Separated (w : List Terminal) : Prop :=
  w.IsChain fun t u => ¬ (t.endsOperand ∧ u.startsOperand)

theorem separated_cons_iff {t : Terminal} {w : List Terminal} :
    Separated (t :: w) ↔
      (t.endsOperand → ∀ u, w.head? = some u → u.startsOperand = false) ∧ Separated w := by
  simp only [Separated, List.isChain_cons, not_and, Bool.not_eq_true, Option.mem_def]
  tauto

/-- Where no operand follows on another one each operand but the first takes an operator. -/
theorem Separated.surplus_le {w : List Terminal} (h : Separated w) :
    surplus w ≤ if w.head?.any Terminal.startsOperand then 1 else 0 := by
  induction w with
  | nil => decide
  | cons t w ih =>
    obtain ⟨hw, hs⟩ := separated_cons_iff.1 h
    have hi := ih hs
    have hadd : surplus (t :: w) = t.surplus + surplus w := rfl
    have hle : surplus w ≤ 1 := by split at hi <;> omega
    have hends : t.endsOperand → surplus w ≤ 0 := by
      intro ht
      cases hh : w.head? with
      | none => simpa [hh] using hi
      | some u => simpa [hh, hw ht u hh] using hi
    rw [hadd]
    cases t with
    | lit l =>
      have := hends rfl
      simp only [Terminal.surplus, Terminal.startsOperand, List.head?_cons, Option.any_some, if_true]
      omega
    | op o =>
      simp only [Terminal.surplus, Terminal.startsOperand, List.head?_cons, Option.any_some]
      omega
    | lparen =>
      simp only [Terminal.surplus, Terminal.startsOperand, List.head?_cons, Option.any_some, if_true]
      omega
    | rparen =>
      have := hends rfl
      simp only [Terminal.surplus, Terminal.startsOperand, List.head?_cons, Option.any_some]
      omega

end Grammar

namespace Stacks

variable {order : OperandOrder} {s s' : Stacks}

/-- The operands, less the operators that wait. -/
def surplus (s : Stacks) : Int :=
  s.operands.length - (s.pending.filterMap Pending.operator?).length

def leaves (s : Stacks) : List Tree := s.operands.reverse.flatMap Tree.leaves

@[simp] theorem surplus_operator (o : Operator) (p : Int) (pending : List Pending)
    (operands : List Tree) :
    surplus ⟨.operator o p :: pending, operands⟩ = surplus ⟨pending, operands⟩ - 1 := by
  simp only [surplus, List.filterMap_cons, Pending.operator?, List.length_cons]
  omega

@[simp] theorem surplus_group (p : Int) (pending : List Pending) (operands : List Tree) :
    surplus ⟨.group p :: pending, operands⟩ = surplus ⟨pending, operands⟩ := rfl

@[simp] theorem surplus_operand (pending : List Pending) (t : Tree) (operands : List Tree) :
    surplus ⟨pending, t :: operands⟩ = surplus ⟨pending, operands⟩ + 1 := by
  simp only [surplus, List.length_cons]
  omega

/-- What each reduction keeps is kept by all of them. -/
theorem reduceWhile_keeps {α : Type} {f : Stacks → α}
    (hf : ∀ o p pending l r below, f ⟨pending, order.combine o l r :: below⟩ =
      f ⟨.operator o p :: pending, r :: l :: below⟩)
    {due : Operator → Bool} {pending : List Pending} {operands : List Tree}
    (h : (reduceWhile order due pending operands).result = .ok s) : f s = f ⟨pending, operands⟩ := by
  induction pending generalizing operands with
  | nil =>
    cases h
    rfl
  | cons q pending ih =>
    cases q with
    | group p =>
      cases h
      rfl
    | operator o p =>
      by_cases ho : due o
      · rw [reduceWhile, if_pos ho, Traced.result_bind_eq_ok_iff] at h
        obtain ⟨operands', hr, h⟩ := h
        obtain ⟨l, r, below, rfl, rfl⟩ := reduce_eq_ok hr
        rw [ih h, hf o p]
      · rw [reduceWhile, if_neg ho] at h
        cases h
        rfl

theorem surplus_of_reduceWhile {due : Operator → Bool} {pending : List Pending} {operands : List Tree}
    (h : (reduceWhile order due pending operands).result = .ok s) :
    s.surplus = (⟨pending, operands⟩ : Stacks).surplus := by
  refine reduceWhile_keeps (fun o p pending l r below => ?_) h
  simp only [surplus_operator, surplus_operand]
  omega

theorem leaves_of_reduceWhile {due : Operator → Bool} {pending : List Pending} {operands : List Tree}
    (h : (reduceWhile .written due pending operands).result = .ok s) :
    s.leaves = (⟨pending, operands⟩ : Stacks).leaves := by
  refine reduceWhile_keeps (fun o p pending l r below => ?_) h
  simp [leaves, OperandOrder.combine, Tree.leaves]

theorem finish_eq_ok {p : Int} {t : Tree} (h : (s.finish order p).result = .ok t) :
    (reduceWhile order (fun _ => true) s.pending s.operands).result = .ok ⟨[], [t]⟩ := by
  rcases finish_cases order s p with ⟨_, _, _, hf⟩ | ⟨trees, hr⟩ | ⟨_, _, _, _, hf⟩
  · rw [hf] at h
    cases h
  · rw [finish, Traced.result_bind, hr] at h
    rcases trees with _ | ⟨u, _ | ⟨v, trees⟩⟩
    · cases h
    · cases h
      exact hr
    · cases h
  · rw [hf] at h
    cases h

theorem surplus_of_place {t : Terminal} {p : Int} (h : (s.place order t p).result = .ok s') :
    s'.surplus = s.surplus + t.surplus := by
  cases t with
  | lit l =>
    cases h
    exact surplus_operand _ _ _
  | lparen =>
    cases h
    exact (Int.add_zero _).symm
  | op o =>
    obtain ⟨r, hr, rfl⟩ := place_op_eq_ok h
    have hs : r.surplus = s.surplus := surplus_of_reduceWhile hr
    rw [surplus_operator, ← hs]
    rfl
  | rparen =>
    obtain ⟨q, hr⟩ := place_rparen_eq_ok h
    have hs := surplus_of_reduceWhile hr
    rw [surplus_group] at hs
    exact hs.trans (Int.add_zero _).symm

theorem leaves_of_place {t : Terminal} {p : Int} (h : (s.place .written t p).result = .ok s') :
    s'.leaves = s.leaves ++ t.leaf?.toList := by
  cases t with
  | lit l =>
    cases h
    cases l <;> simp [leaves, Terminal.leaf?, Tree.ofLiteral, Tree.leaves]
  | lparen =>
    cases h
    exact (List.append_nil _).symm
  | op o =>
    obtain ⟨r, hr, rfl⟩ := place_op_eq_ok h
    have hs : r.leaves = s.leaves := leaves_of_reduceWhile hr
    rw [← hs]
    exact (List.append_nil _).symm
  | rparen =>
    obtain ⟨q, hr⟩ := place_rparen_eq_ok h
    have hs := leaves_of_reduceWhile hr
    exact hs.trans (List.append_nil _).symm

variable {ts : List (Terminal × Int)} {p : Int} {t : Tree}

theorem surplus_of_placeAll (h : (s.placeAll order ts).result = .ok s') :
    s'.surplus = s.surplus + Grammar.surplus (ts.map (·.1)) := by
  induction ts generalizing s with
  | nil =>
    cases h
    exact (Int.add_zero _).symm
  | cons t ts ih =>
    rw [placeAll_cons, Traced.result_bind_eq_ok_iff] at h
    obtain ⟨r, hr, h⟩ := h
    rw [ih h, surplus_of_place hr, Int.add_assoc]
    rfl

theorem leaves_of_placeAll (h : (s.placeAll .written ts).result = .ok s') :
    s'.leaves = s.leaves ++ (ts.map (·.1)).filterMap Terminal.leaf? := by
  induction ts generalizing s with
  | nil =>
    cases h
    simp
  | cons t ts ih =>
    rw [placeAll_cons, Traced.result_bind_eq_ok_iff] at h
    obtain ⟨r, hr, h⟩ := h
    rw [ih h, leaves_of_place hr, List.append_assoc, List.map_cons, List.filterMap_cons]
    cases t.1.leaf? <;> rfl

theorem surplus_of_finish (h : (s.finish order p).result = .ok t) : s.surplus = 1 :=
  (surplus_of_reduceWhile (finish_eq_ok h)).symm

theorem leaves_of_finish (h : (s.finish .written p).result = .ok t) : t.leaves = s.leaves := by
  have hs : Stacks.leaves ⟨[], [t]⟩ = s.leaves := leaves_of_reduceWhile (finish_eq_ok h)
  simpa [leaves] using hs

end Stacks
end ZeroOne
