import ZeroOne.Tree.Fault

/-! Evaluation to a number, a truth value, or nothing where the types do not fit. -/
namespace ZeroOne.Tree

/-- The outcome, unless the left operand leaves it open: a number does in a sum or product, false in
a disjunction. -/
def decided? : Operator → Option Value → Option (Option Value)
  | .or, some (.bool true) => some (some (.bool true))
  | .or, some (.bool false) => none
  | .or, _ => some none
  | _, some (.int _) => none
  | _, _ => some none

def combine : Operator → Option Value → Option Value → Option Value
  | .add, some (.int m), some (.int n) => some (.int (m + n))
  | .mul, some (.int m), some (.int n) => some (.int (m * n))
  | .or, _, some (.bool b) => some (.bool b)
  | _, _, _ => none

inductive Task
  | visit (t : Tree)
  | leftDone (o : Operator) (right : Tree)
  | rightDone (o : Operator)

/-- A task weighs more than the tasks that it leaves. -/
def Task.weight : Task → Nat
  | .visit t => 3 * t.size
  | .leftDone _ r => 3 * r.size + 2
  | .rightDone _ => 1

def Task.load : List Task → Nat
  | [] => 0
  | t :: rest => t.weight + load rest

/-- Works off the tasks on a stack of results; only a disjunction takes its left operand off before
the right one is looked at. -/
def evaluateTasks : List Task → List (Option Value) → Except Fault (List (Option Value))
  | [], results => .ok results
  | .visit (.number n) :: tasks, results => evaluateTasks tasks (some (.int n) :: results)
  | .visit (.bool b) :: tasks, results => evaluateTasks tasks (some (.bool b) :: results)
  | .visit (.binary (.op o) l r) :: tasks, results =>
    evaluateTasks (.visit l :: .leftDone o r :: tasks) results
  | .visit t :: _, _ => .error (.unknownNode t)
  | .leftDone .or r :: tasks, left :: results =>
    match left with
    | some (.bool true) => evaluateTasks tasks (left :: results)
    | some (.bool false) => evaluateTasks (.visit r :: .rightDone .or :: tasks) results
    | _ => evaluateTasks tasks (none :: results)
  | .leftDone o r :: tasks, left :: results =>
    match left with
    | some (.int _) => evaluateTasks (.visit r :: .rightDone o :: tasks) (left :: results)
    | _ => evaluateTasks tasks (none :: results)
  | .rightDone .or :: tasks, right :: results =>
    match right with
    | some (.bool b) => evaluateTasks tasks (some (.bool b) :: results)
    | _ => evaluateTasks tasks (none :: results)
  | .rightDone o :: tasks, right :: left :: results =>
    evaluateTasks tasks (combine o left right :: results)
  | _ :: _, _ => .error .emptyStack
termination_by tasks => Task.load tasks
decreasing_by all_goals simp only [Task.load, Task.weight, size]; omega

def evaluate (t : Tree) : Except Fault (Option Value) :=
  match evaluateTasks [.visit t] [] with
  | .ok (v :: _) => .ok v
  | .ok [] => .error .emptyStack
  | .error e => .error e

/-- The meaning of a tree, by recursion; a right operand is looked at only if the left one left the
outcome open. -/
def meaning : Tree → Except Fault (Option Value)
  | .number n => .ok (some (.int n))
  | .bool b => .ok (some (.bool b))
  | .binary (.op o) l r =>
    match l.meaning with
    | .error e => .error e
    | .ok left =>
      match decided? o left with
      | some outcome => .ok outcome
      | none =>
        match r.meaning with
        | .error e => .error e
        | .ok right => .ok (combine o left right)
  | t => .error (.unknownNode t)

/-- The results below a right operand: the left one is among them unless it was taken off. -/
def under (o : Operator) (left : Option Value) (results : List (Option Value)) :
    List (Option Value) :=
  match o with
  | .or => results
  | _ => left :: results

theorem evaluateTasks_leftDone (o : Operator) (r : Tree) (tasks : List Task) (left : Option Value)
    (results : List (Option Value)) :
    evaluateTasks (.leftDone o r :: tasks) (left :: results) =
      match decided? o left with
      | some outcome => evaluateTasks tasks (outcome :: results)
      | none => evaluateTasks (.visit r :: .rightDone o :: tasks) (under o left results) := by
  cases o with
  | or => rcases left with _ | _ | _ | _ <;> simp [evaluateTasks, decided?, under]
  | add | mul => rcases left with _ | _ | _ <;> simp [evaluateTasks, decided?, under]

theorem evaluateTasks_rightDone (o : Operator) (tasks : List Task) (left right : Option Value)
    (results : List (Option Value)) :
    evaluateTasks (.rightDone o :: tasks) (right :: under o left results) =
      evaluateTasks tasks (combine o left right :: results) := by
  cases o with
  | or => rcases right with _ | _ | _ <;> simp [evaluateTasks, combine, under]
  | add | mul => simp [evaluateTasks, under]

theorem evaluateTasks_visit (t : Tree) (tasks : List Task) (results : List (Option Value)) :
    evaluateTasks (.visit t :: tasks) results =
      match t.meaning with
      | .ok v => evaluateTasks tasks (v :: results)
      | .error e => .error e := by
  induction t generalizing tasks results with
  | number n => rw [evaluateTasks, meaning]
  | bool b => rw [evaluateTasks, meaning]
  | foreign f => rw [evaluateTasks, meaning] <;> simp
  | binary s l r ihl ihr =>
    cases s with
    | unspecified => rw [evaluateTasks, meaning] <;> simp
    | op o =>
      rw [evaluateTasks, meaning, ihl]
      rcases l.meaning with e | left
      · rfl
      simp only [evaluateTasks_leftDone]
      rcases decided? o left with _ | outcome
      · simp only [ihr]
        rcases r.meaning with e | right
        · rfl
        simp only [evaluateTasks_rightDone]
      · rfl

theorem evaluate_eq_meaning (t : Tree) : t.evaluate = t.meaning := by
  rw [evaluate, evaluateTasks_visit]
  rcases t.meaning with e | v
  · rfl
  · simp [evaluateTasks]

end ZeroOne.Tree
