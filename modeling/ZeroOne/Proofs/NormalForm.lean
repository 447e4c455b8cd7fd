import ZeroOne.Tree.Fixpoint

/-! Normal forms. Passes repeated until nothing changes end at the tree that one sweep from the leaves
up would make: no product in it has a factor zero, not even one that other products have left there. -/
namespace ZeroOne.Tree

def ZeroProduct (s : Symbol) (l r : Tree) : Prop := s = .op .mul ∧ (l = zero ∨ r = zero)

instance (s : Symbol) (l r : Tree) : Decidable (ZeroProduct s l r) :=
  inferInstanceAs (Decidable (_ ∧ _))

/-- The tree after one pass, which looks for zeros before its children are simplified. -/
def sweep : Tree → Tree
  | .binary s l r => if ZeroProduct s l r then zero else .binary s l.sweep r.sweep
  | t => t

/-- The normal form, for which zeros are looked for after the children have their normal forms. -/
def normal : Tree → Tree
  | .binary s l r =>
    if ZeroProduct s l.normal r.normal then zero else .binary s l.normal r.normal
  | t => t

def subtrees : Tree → List Tree
  | .binary s l r => .binary s l r :: (l.subtrees ++ r.subtrees)
  | t => [t]

def Reduced (t : Tree) : Prop := ∀ l r, mul l r ∈ t.subtrees → l ≠ zero ∧ r ≠ zero

theorem self_mem_subtrees (t : Tree) : t ∈ t.subtrees := by
  cases t <;> simp [subtrees]

section

variable {s : Symbol} {l r : Tree}

theorem sweep_of_zeroProduct (h : ZeroProduct s l r) : (Tree.binary s l r).sweep = zero :=
  if_pos h

theorem sweep_of_not_zeroProduct (h : ¬ ZeroProduct s l r) :
    (Tree.binary s l r).sweep = .binary s l.sweep r.sweep :=
  if_neg h

theorem normal_of_zeroProduct (h : ZeroProduct s l.normal r.normal) :
    (Tree.binary s l r).normal = zero :=
  if_pos h

theorem normal_of_not_zeroProduct (h : ¬ ZeroProduct s l.normal r.normal) :
    (Tree.binary s l r).normal = .binary s l.normal r.normal :=
  if_neg h

theorem reduced_binary_iff :
    (Tree.binary s l r).Reduced ↔ ¬ ZeroProduct s l r ∧ l.Reduced ∧ r.Reduced := by
  simp only [Reduced, subtrees, List.mem_cons, List.mem_append, binary.injEq, ZeroProduct]
  constructor
  · intro h
    refine ⟨?_, fun a b hm => h a b (.inr (.inl hm)), fun a b hm => h a b (.inr (.inr hm))⟩
    rintro ⟨hs, hz⟩
    have hne := h l r (.inl ⟨hs.symm, rfl, rfl⟩)
    exact hz.elim hne.1 hne.2
  · rintro ⟨hz, hl, hr⟩ a b (⟨hs, rfl, rfl⟩ | hm | hm)
    · have hne : ∀ h, ¬ _ := not_and.1 hz
      exact not_or.1 (hne hs.symm)
    · exact hl a b hm
    · exact hr a b hm

end

theorem reduced_normal (t : Tree) : t.normal.Reduced := by
  induction t with
  | binary s l r ihl ihr =>
    by_cases hz : ZeroProduct s l.normal r.normal
    · rw [normal_of_zeroProduct hz]
      simp [Reduced, subtrees]
    · rw [normal_of_not_zeroProduct hz]
      exact reduced_binary_iff.2 ⟨hz, ihl, ihr⟩
  | _ => simp [Reduced, normal, subtrees]

/-- Only a reduced tree is left as it is by a pass. -/
theorem sweep_eq_self_iff {t : Tree} : t.sweep = t ↔ t.Reduced := by
  induction t with
  | binary s l r ihl ihr =>
    rw [reduced_binary_iff, ← ihl, ← ihr]
    by_cases hz : ZeroProduct s l r
    · simp [sweep_of_zeroProduct hz, hz]
    · simp [sweep_of_not_zeroProduct hz, hz]
  | _ => simp [Reduced, sweep, subtrees]

theorem normal_of_reduced {t : Tree} (h : t.Reduced) : t.normal = t := by
  induction t with
  | binary s l r ihl ihr =>
    obtain ⟨hz, hl, hr⟩ := reduced_binary_iff.1 h
    have hn : ¬ ZeroProduct s l.normal r.normal := by rwa [ihl hl, ihr hr]
    rw [normal_of_not_zeroProduct hn, ihl hl, ihr hr]
  | _ => rfl

/-- A zero is its own normal form, so a product with a factor zero stays one. -/
theorem ZeroProduct.normal {s : Symbol} {l r : Tree} (h : ZeroProduct s l r) :
    ZeroProduct s l.normal r.normal :=
  ⟨h.1, h.2.imp (fun hl => by rw [hl]; rfl) (fun hr => by rw [hr]; rfl)⟩

/-- A pass keeps the normal form. -/
theorem normal_sweep (t : Tree) : t.sweep.normal = t.normal := by
  induction t with
  | binary s l r ihl ihr =>
    by_cases hz : ZeroProduct s l r
    · rw [sweep_of_zeroProduct hz, normal_of_zeroProduct hz.normal]
      rfl
    · rw [sweep_of_not_zeroProduct hz]
      simp only [normal, ihl, ihr]
  | _ => rfl

section

variable {t : Tree}

theorem regular_ite {c : Prop} [Decidable c] {o : Operator} {l r : Tree} (hl : l.Regular)
    (hr : r.Regular) : (if c then zero else .binary (.op o) l r).Regular := by
  split
  · trivial
  · exact ⟨hl, hr⟩

theorem regular_sweep (h : t.Regular) : t.sweep.Regular := by
  induction t, h using Regular.induction with
  | number n => trivial
  | bool b => trivial
  | operation o l r _ _ ihl ihr => exact regular_ite ihl ihr

theorem regular_normal (h : t.Regular) : t.normal.Regular := by
  induction t, h using Regular.induction with
  | number n => trivial
  | bool b => trivial
  | operation o l r _ _ ihl ihr => exact regular_ite ihl ihr

theorem Regular.ne_bare (h : t.Regular) : t ≠ bare := by
  rintro rfl
  exact h

theorem collapses?_of_regular {o : Operator} {l r : Tree} (hl : l.Regular) (hr : r.Regular) :
    collapses? o l r = .ok (decide (ZeroProduct (.op o) l r)) := by
  cases o with
  | mul => simp [collapses?_mul, hl.ne_bare, hr.ne_bare, ZeroProduct]
  | add => simp [collapses?, ZeroProduct]
  | or => simp [collapses?, ZeroProduct]

/-- On a regular tree a pass does not fail. -/
theorem simplify_of_regular (h : t.Regular) : t.simplify = .ok t.sweep := by
  rw [simplify_eq_pass]
  induction t, h using Regular.induction with
  | number n => rfl
  | bool b => rfl
  | operation o l r hl hr ihl ihr =>
    rw [pass, collapses?_of_regular hl hr, sweep, ihl, ihr]
    by_cases hz : ZeroProduct (.op o) l r <;> simp [hz]

/-- The comparison that ends the repetition is true on a tree that a pass leaves as it is. -/
theorem same?_sweep (h : t.Regular) : t.sweep.same? t = .ok (decide (t.sweep = t)) :=
  same?_eq (regular_sweep h).readable h.readable

theorem fixFrom_of_regular (h : t.Regular) (passes : Nat) :
    (fixFrom passes t).1.result = .ok t.normal := by
  -- Every pass that changes the tree makes it smaller.
  induction hsize : t.size using Nat.strongRecOn generalizing t passes with
  | ind n ih =>
    have hp : t.simplify = .ok t.sweep := simplify_of_regular h
    have hs : t.sweep.same? t = .ok (decide (t.sweep = t)) := same?_sweep h
    by_cases hfixed : t.sweep = t
    · rw [decide_eq_true hfixed] at hs
      rw [fixFrom_of_same hp hs, normal_of_reduced (sweep_eq_self_iff.1 hfixed)]
    · rw [decide_eq_false hfixed] at hs
      have hlt : t.sweep.size < n := hsize ▸ size_lt_of_differs hp hs
      rw [fixFrom_of_differs hp hs, ← normal_sweep]
      exact ih _ hlt (regular_sweep h) (passes + 1) rfl

theorem fix_of_regular (h : t.Regular) : t.fix.1.result = .ok t.normal :=
  fixFrom_of_regular h 0

end

/-- Repeated passes end at the normal form, which no pass changes and in which no product has a
factor zero. -/
theorem fix_eq_normal {t : Tree} (h : t.Regular) :
    t.fix.1.result = .ok t.normal ∧
      (∀ l r, mul l r ∈ t.normal.subtrees → l ≠ zero ∧ r ≠ zero) ∧
      t.normal.simplify = .ok t.normal ∧ t.normal.fix.1.result = .ok t.normal := by
  have hn : t.normal.Regular := regular_normal h
  have hr : t.normal.Reduced := reduced_normal t
  refine ⟨fix_of_regular h, hr, ?_, ?_⟩
  · rw [simplify_of_regular hn, sweep_eq_self_iff.2 hr]
  · rw [fix_of_regular hn, normal_of_reduced hr]

/-- A zero climbs out of nested products, also past a truth value; a sum is never taken for a zero. -/
theorem fix_eq_normal_nested :
    Regular (.or (.mul (.mul (.bool true) (.number 0)) (.number 5))
        (.mul (.add (.number 1) (.number (-1))) (.number 2))) ∧
      (fix (.or (.mul (.mul (.bool true) (.number 0)) (.number 5))
        (.mul (.add (.number 1) (.number (-1))) (.number 2)))).1.result =
      .ok (.or (.number 0) (.mul (.add (.number 1) (.number (-1))) (.number 2))) := by
  have h : Regular (.or (.mul (.mul (.bool true) (.number 0)) (.number 5))
      (.mul (.add (.number 1) (.number (-1))) (.number 2))) :=
    ⟨⟨⟨trivial, trivial⟩, trivial⟩, ⟨trivial, trivial⟩, trivial⟩
  exact ⟨h, (fix_eq_normal h).1⟩

end ZeroOne.Tree
