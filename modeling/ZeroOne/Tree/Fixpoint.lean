import ZeroOne.Trace
import ZeroOne.Tree.Simplify

/-! Passes repeated until one leaves the tree unchanged. Every other pass makes the tree smaller, so
the repetition ends. -/
namespace ZeroOne.Tree

theorem Regular.readable {t : Tree} (h : t.Regular) : t.Readable := by
  induction t, h using Regular.induction with
  | number n => simp [Readable, labels, label]
  | bool b => simp [Readable, labels, label]
  | operation o l r hl hr ihl ihr => exact readable_binary_iff.2 ⟨ihl, ihr⟩

/-- A pass whose result differs from its start has made the tree smaller. -/
theorem size_lt_of_differs {t u : Tree} (hp : t.simplify = .ok u) (hs : u.same? t = .ok false) :
    u.size < t.size := by
  rw [simplify_eq_pass] at hp
  obtain rfl | h := eq_or_size_lt_of_pass hp
  · have hu : u.Readable := (regular_of_pass hp).readable
    simp [same?_eq hu hu] at hs
  · exact h

/-- Repeats passes and counts on from the passes made before; the count is known also when the last
one failed. -/
def fixFrom (passes : Nat) (t : Tree) : Traced Fault Tree × Nat :=
  match hp : t.simplify with
  | .error e => (.fail e, passes + 1)
  | .ok u =>
    match hs : u.same? t with
    | .error e => (.fail e, passes + 1)
    | .ok true => (⟨[.fixpoint (passes + 1) t], .ok t⟩, passes + 1)
    | .ok false =>
      let (answer, total) := fixFrom (passes + 1) u
      (answer.after [.pass (passes + 1) t u], total)
termination_by t.size
decreasing_by exact size_lt_of_differs hp hs

def fix (t : Tree) : Traced Fault Tree × Nat := fixFrom 0 t

section

variable {passes : Nat} {t u : Tree} {e : Fault}

theorem fixFrom_of_error (hp : t.simplify = .error e) : fixFrom passes t = (.fail e, passes + 1) := by
  rw [fixFrom]
  split
  · rename_i e' hp'
    cases hp.symm.trans hp'
    rfl
  · rename_i v hp'
    cases hp.symm.trans hp'

theorem fixFrom_of_same (hp : t.simplify = .ok u) (hs : u.same? t = .ok true) :
    fixFrom passes t = (⟨[.fixpoint (passes + 1) t], .ok t⟩, passes + 1) := by
  rw [fixFrom]
  split
  · rename_i e hp'
    cases hp.symm.trans hp'
  · rename_i v hp'
    cases hp.symm.trans hp'
    split
    · rename_i e hs'
      cases hs.symm.trans hs'
    · rfl
    · rename_i hs'
      cases hs.symm.trans hs'

theorem fixFrom_of_differs (hp : t.simplify = .ok u) (hs : u.same? t = .ok false) :
    fixFrom passes t =
      ((fixFrom (passes + 1) u).1.after [.pass (passes + 1) t u], (fixFrom (passes + 1) u).2) := by
  rw [fixFrom]
  split
  · rename_i e hp'
    cases hp.symm.trans hp'
  · rename_i v hp'
    cases hp.symm.trans hp'
    split
    · rename_i e hs'
      cases hs.symm.trans hs'
    · rename_i hs'
      cases hs.symm.trans hs'
    · rfl

end

end ZeroOne.Tree
