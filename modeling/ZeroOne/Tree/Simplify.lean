import ZeroOne.Tree.Compare

/-! One simplifying pass: a product becomes zero if a factor is the number zero. -/
namespace ZeroOne.Tree

/-- A composite collapses if it is a product with a factor zero; the left factor is read first. -/
def collapses? (o : Operator) (l r : Tree) : Except Fault Bool :=
  match o with
  | .mul =>
    match l.same? zero with
    | .ok false => r.same? zero
    | answer => answer
  | _ => .ok false

/-- Only a bare node cannot be compared with zero. -/
theorem same?_zero (t : Tree) :
    t.same? zero = if t = bare then .error (.noValue bare) else .ok (decide (t = zero)) := by
  cases t with
  | number n => by_cases hn : n = 0 <;> simp [same?, isNode, sameWalk, label, children, hn]
  | bool b => simp [same?, isNode, sameWalk, label]
  | binary s l r => simp [same?, isNode, sameWalk, label]
  | foreign f => cases f <;> simp [same?, isNode, Foreign.isNode, sameWalk, label]

theorem collapses?_mul (l r : Tree) :
    collapses? .mul l r =
      if l = bare ∨ l ≠ zero ∧ r = bare then .error (.noValue bare)
      else .ok (decide (l = zero ∨ r = zero)) := by
  rw [collapses?, same?_zero, same?_zero]
  by_cases hl : l = bare
  · simp [hl]
  · by_cases hz : l = zero
    · simp [hz]
    · by_cases hr : r = bare <;> simp [hl, hz, hr]

inductive Step
  | visit (t : Tree)
  | rebuild (o : Operator)

/-- Visiting a composite leaves two visits and a rebuilding. -/
def Step.weight : Step → Nat
  | .visit t => 2 * t.size
  | .rebuild _ => 1

def Step.load : List Step → Nat
  | [] => 0
  | s :: rest => s.weight + load rest

/-- Works off the steps on a stack of results; children are visited before their composite is
put together from the two topmost results. -/
def simplifySteps : List Step → List Tree → Except Fault (List Tree)
  | [], results => .ok results
  | .rebuild o :: steps, right :: left :: results =>
    simplifySteps steps (.binary (.op o) left right :: results)
  | .rebuild _ :: _, _ => .error .emptyStack
  | .visit (.number n) :: steps, results => simplifySteps steps (.number n :: results)
  | .visit (.bool b) :: steps, results => simplifySteps steps (.bool b :: results)
  | .visit (.binary (.op o) l r) :: steps, results =>
    match collapses? o l r with
    | .error e => .error e
    | .ok true => simplifySteps steps (zero :: results)
    | .ok false => simplifySteps (.visit l :: .visit r :: .rebuild o :: steps) results
  | .visit t :: _, _ => .error (.cannotSimplify t)
termination_by steps => Step.load steps
decreasing_by all_goals simp only [Step.load, Step.weight, size]; omega

def simplify (t : Tree) : Except Fault Tree :=
  match simplifySteps [.visit t] [] with
  | .ok (u :: _) => .ok u
  | .ok [] => .error .emptyStack
  | .error e => .error e

/-- One pass, by recursion; next to a zero the other factor is not looked at. -/
def pass : Tree → Except Fault Tree
  | .number n => .ok (.number n)
  | .bool b => .ok (.bool b)
  | .binary (.op o) l r =>
    match collapses? o l r with
    | .error e => .error e
    | .ok true => .ok zero
    | .ok false =>
      match l.pass, r.pass with
      | .ok l', .ok r' => .ok (.binary (.op o) l' r')
      | .ok _, .error e => .error e
      | .error e, _ => .error e
  | t => .error (.cannotSimplify t)

theorem simplifySteps_visit (t : Tree) (steps : List Step) (results : List Tree) :
    simplifySteps (.visit t :: steps) results =
      match t.pass with
      | .ok u => simplifySteps steps (u :: results)
      | .error e => .error e := by
  induction t generalizing steps results with
  | number n => rw [simplifySteps, pass]
  | bool b => rw [simplifySteps, pass]
  | foreign f => rw [simplifySteps, pass] <;> simp
  | binary s l r ihl ihr =>
    cases s with
    | unspecified => rw [simplifySteps, pass] <;> simp
    | op o =>
      rw [simplifySteps, pass]
      rcases collapses? o l r with e | _ | _
      · rfl
      · simp only [ihl, ihr]
        rcases l.pass with e | l'
        · rfl
        rcases r.pass with e | r'
        · rfl
        simp [simplifySteps]
      · rfl

theorem simplify_eq_pass (t : Tree) : t.simplify = t.pass := by
  rw [simplify, simplifySteps_visit]
  rcases t.pass with e | u
  · rfl
  · simp [simplifySteps]

theorem pass_binary {o : Operator} {l r u : Tree}
    (h : (Tree.binary (.op o) l r).pass = .ok u) :
    u = zero ∨ ∃ l' r', l.pass = .ok l' ∧ r.pass = .ok r' ∧ u = .binary (.op o) l' r' := by
  rw [pass] at h
  split at h
  · cases h
  · cases h; exact Or.inl rfl
  · split at h
    · rename_i l' r' hl hr
      cases h
      exact Or.inr ⟨l', r', hl, hr, rfl⟩
    · cases h
    · cases h

theorem regular_of_pass {t u : Tree} (h : t.pass = .ok u) : u.Regular := by
  induction t generalizing u with
  | number n => cases h; trivial
  | bool b => cases h; trivial
  | foreign f => simp [pass] at h
  | binary s l r ihl ihr =>
    cases s with
    | unspecified => simp [pass] at h
    | op o =>
      obtain rfl | ⟨l', r', hl, hr, rfl⟩ := pass_binary h
      · trivial
      · exact ⟨ihl hl, ihr hr⟩

/-- A pass that succeeds leaves the tree as it is or makes it smaller. -/
theorem eq_or_size_lt_of_pass {t u : Tree} (h : t.pass = .ok u) : u = t ∨ u.size < t.size := by
  induction t generalizing u with
  | number n => cases h; exact Or.inl rfl
  | bool b => cases h; exact Or.inl rfl
  | foreign f => simp [pass] at h
  | binary s l r ihl ihr =>
    cases s with
    | unspecified => simp [pass] at h
    | op o =>
      obtain rfl | ⟨l', r', hl, hr, rfl⟩ := pass_binary h
      · have := l.size_pos
        exact Or.inr (by simp only [size]; omega)
      · obtain rfl | hl := ihl hl <;> obtain rfl | hr := ihr hr
        · exact Or.inl rfl
        all_goals exact Or.inr (by simp only [size]; omega)

end ZeroOne.Tree
