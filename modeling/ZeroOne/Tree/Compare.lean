import ZeroOne.Tree.Fault

/-! Comparison of trees by two walks in step, each node before its children, and the first tree of
each kind in a list. -/
namespace ZeroOne

/-- What a walk reads at one place: the type of the item and, for a leaf, its value. -/
inductive Label
  | number (n : Int)
  | bool (b : Bool)
  | symbol (s : Symbol)
  | result (v : Value)
  deriving DecidableEq, Repr

namespace Tree

/-- The label of the root; bare nodes, texts, integers and none have no value to read. -/
def label : Tree → Except Fault Label
  | .number n => .ok (.number n)
  | .bool b => .ok (.bool b)
  | .binary s _ _ => .ok (.symbol s)
  | .foreign (.result v) => .ok (.result v)
  | t => .error (.noValue t)

def children : Tree → List Tree
  | .binary _ l r => [l, r]
  | _ => []

/-- The labels of all items, each node before its children. -/
def labels : Tree → List (Except Fault Label)
  | .binary s l r => .ok (.symbol s) :: (l.labels ++ r.labels)
  | t => [t.label]

def total : List Tree → Nat
  | [] => 0
  | t :: ts => t.size + total ts

theorem total_children (t : Tree) (ts : List Tree) :
    total (t.children ++ ts) + 1 = t.size + total ts := by
  cases t <;> simp [children, total, size] <;> omega

/-- Walks over two stacks of trees in step, the first one ahead, and stops at the first place where
the labels differ. -/
def sameWalk : List Tree → List Tree → Except Fault Bool
  | [], [] => .ok true
  | a :: _, [] => a.label.map fun _ => false
  | [], b :: _ => b.label.map fun _ => false
  | a :: as, b :: bs =>
    match a.label, b.label with
    | .error e, _ => .error e
    | .ok _, .error e => .error e
    | .ok x, .ok y => if x = y then sameWalk (a.children ++ as) (b.children ++ bs) else .ok false
termination_by as => total as
decreasing_by have := total_children a as; simp only [total]; omega

/-- Two nodes are compared by their walks; an item that is no node equals nothing but itself. -/
def same? (a b : Tree) : Except Fault Bool :=
  if a.isNode && b.isNode then sameWalk [a] [b] else .ok (a = b)

def differs? (a b : Tree) : Except Fault Bool := (a.same? b).map not

def Readable (t : Tree) : Prop := ∀ x ∈ t.labels, ∃ y, x = .ok y

theorem readable_binary_iff {s : Symbol} {l r : Tree} :
    (Tree.binary s l r).Readable ↔ l.Readable ∧ r.Readable := by
  simp [Readable, labels, or_imp, forall_and]

def inStep : List (Except Fault Label) → List (Except Fault Label) → Except Fault Bool
  | [], [] => .ok true
  | x :: _, [] => x.map fun _ => false
  | [], y :: _ => y.map fun _ => false
  | .error e :: _, _ :: _ => .error e
  | .ok _ :: _, .error e :: _ => .error e
  | .ok x :: xs, .ok y :: ys => if x = y then inStep xs ys else .ok false

def AgreeBefore (xs ys : List (Except Fault Label)) (i : Nat) : Prop :=
  ∀ j < i, ∃ x : Label, xs[j]? = some (.ok x) ∧ ys[j]? = some (.ok x)

/-- The walk over a stack of trees begins with the label of the topmost and goes on with its children. -/
theorem flatMap_labels_cons (t : Tree) (ts : List Tree) :
    (t :: ts).flatMap labels = t.label :: (t.children ++ ts).flatMap labels := by
  cases t <;> simp [labels, label, children]

/-- The comparison of two stacks of trees reads their walks in step. -/
theorem sameWalk_eq_inStep (as bs : List Tree) :
    sameWalk as bs = inStep (as.flatMap labels) (bs.flatMap labels) := by
  fun_induction sameWalk as bs with
  | case1 => rfl
  | case2 a as => rw [flatMap_labels_cons]; rfl
  | case3 b bs => rw [flatMap_labels_cons]; rfl
  | case4 a as b bs e he => rw [flatMap_labels_cons, flatMap_labels_cons, he, inStep]
  | case5 a as b bs x e he hx => rw [flatMap_labels_cons, flatMap_labels_cons, hx, he, inStep]
  | case6 a as b bs x hb ha ih =>
    rw [flatMap_labels_cons, flatMap_labels_cons, ha, hb, inStep, if_pos rfl, ih]
  | case7 a as b bs x y hy hx hne =>
    rw [flatMap_labels_cons, flatMap_labels_cons, hx, hy, inStep, if_neg hne]

theorem same?_eq_inStep {a b : Tree} (ha : a.isNode) (hb : b.isNode) :
    a.same? b = inStep a.labels b.labels := by
  rw [same?, ha, hb]
  change sameWalk [a] [b] = _
  rw [sameWalk_eq_inStep, List.flatMap_singleton, List.flatMap_singleton]

section

variable {xs ys : List (Except Fault Label)} {e : Fault}

theorem agreeBefore_zero : AgreeBefore xs ys 0 := fun j hj => absurd hj (Nat.not_lt_zero j)

theorem agreeBefore_succ_iff {x y : Except Fault Label} {i : Nat} :
    AgreeBefore (x :: xs) (y :: ys) (i + 1) ↔
      (∃ l, x = .ok l ∧ y = .ok l) ∧ AgreeBefore xs ys i := by
  constructor
  · intro h
    obtain ⟨l, hx, hy⟩ := h 0 (by omega)
    exact ⟨⟨l, by simpa using hx, by simpa using hy⟩, fun j hj => by simpa using h (j + 1) (by omega)⟩
  · rintro ⟨⟨l, rfl, rfl⟩, h⟩ j hj
    cases j with
    | zero => exact ⟨l, rfl, rfl⟩
    | succ j => simpa using h j (by omega)

/-- What makes a comparison fail stands behind a common beginning of the walks. -/
theorem exists_of_inStep_error (h : inStep xs ys = .error e) :
    ∃ i, AgreeBefore xs ys i ∧ (xs[i]? = some (.error e) ∨ ys[i]? = some (.error e)) := by
  fun_induction inStep xs ys with
  | case1 => cases h
  | case2 x xs =>
    cases x with
    | error f => exact ⟨0, agreeBefore_zero, .inl (by simpa [Except.map] using h)⟩
    | ok l => cases h
  | case3 y ys =>
    cases y with
    | error f => exact ⟨0, agreeBefore_zero, .inr (by simpa [Except.map] using h)⟩
    | ok l => cases h
  | case4 f xs y ys => exact ⟨0, agreeBefore_zero, .inl (by simpa using h)⟩
  | case5 l xs f ys => exact ⟨0, agreeBefore_zero, .inr (by simpa using h)⟩
  | case6 xs l ys ih =>
    obtain ⟨i, hagree, hi⟩ := ih h
    exact ⟨i + 1, agreeBefore_succ_iff.2 ⟨⟨l, rfl, rfl⟩, hagree⟩, by simpa using hi⟩
  | case7 l xs m ys hne => cases h

theorem inStep_eq_ok {c : Bool} (h : inStep xs ys = .ok c) : c = true ↔ xs = ys := by
  fun_induction inStep xs ys with
  | case1 => simpa using h.symm
  | case2 x xs => cases x <;> simp [Except.map] at h ⊢; exact h
  | case3 y ys => cases y <;> simp [Except.map] at h ⊢; exact h
  | case4 f xs y ys => cases h
  | case5 l xs f ys => cases h
  | case6 xs l ys ih => simpa using ih h
  | case7 l xs m ys hne =>
    obtain rfl := Except.ok.inj h
    simp [hne]

end

/-- A walk fixes its tree and where it ends, whatever follows. -/
theorem labels_append_inj {a b : Tree} {xs ys : List (Except Fault Label)} :
    a.labels ++ xs = b.labels ++ ys ↔ a = b ∧ xs = ys := by
  -- The first label tells which item it is, and with it how many subtrees follow.
  induction a generalizing b xs ys with
  | binary s l r ihl ihr =>
    cases b with
    | binary s' l' r' => simp [labels, ihl, ihr, and_assoc]
    | foreign f => cases f <;> simp [labels, label]
    | _ => simp [labels, label]
  | foreign f =>
    cases b with
    | foreign g => cases f <;> cases g <;> simp [labels, label]
    | _ => cases f <;> simp [labels, label]
  | _ =>
    cases b with
    | foreign g => cases g <;> simp [labels, label]
    | _ => simp [labels, label]

theorem labels_inj {a b : Tree} : a.labels = b.labels ↔ a = b := by
  have h : a.labels ++ [] = b.labels ++ [] ↔ a = b ∧ [] = [] := labels_append_inj
  simpa using h

theorem Readable.getElem?_labels {t : Tree} (h : t.Readable) (i : Nat) (e : Fault) :
    t.labels[i]? ≠ some (.error e) := by
  intro hi
  obtain ⟨y, hy⟩ := h _ (List.mem_of_getElem? hi)
  cases hy

/-- On readable trees the comparison is equality. -/
theorem same?_eq {a b : Tree} (ha : a.Readable) (hb : b.Readable) :
    a.same? b = .ok (decide (a = b)) := by
  by_cases h : a.isNode ∧ b.isNode
  · rw [same?_eq_inStep h.1 h.2]
    rcases hs : inStep a.labels b.labels with e | c
    · obtain ⟨i, _, hi⟩ := exists_of_inStep_error hs
      exact (hi.elim (ha.getElem?_labels i e) (hb.getElem?_labels i e)).elim
    · have hc : c = true ↔ decide (a = b) = true := by
        rw [inStep_eq_ok hs, labels_inj, decide_eq_true_iff]
      rw [Bool.eq_iff_iff.2 hc]
  · simp [same?, h]

inductive Key
  | node (labels : List Label)
  | item (f : Foreign)
  deriving DecidableEq, Repr

/-- The key of a node is its whole walk, so all of its items must have a label. -/
def key? (t : Tree) : Except Fault Key :=
  match t with
  | .foreign f => if f.isNode then .error (.noValue t) else .ok (.item f)
  | t => (t.labels.mapM id).map .node

theorem key?_of_isNode {t : Tree} (h : t.isNode) : t.key? = (t.labels.mapM id).map .node := by
  cases t with
  | foreign f => cases f <;> cases h; rfl
  | _ => rfl

/-- Keeps the first tree of each key, in order; fails at the first tree without a key. -/
def distinctFrom (seen : List Key) : List Tree → Except Fault (List Tree)
  | [] => .ok []
  | t :: ts =>
    match t.key? with
    | .error e => .error e
    | .ok k =>
      if k ∈ seen then distinctFrom seen ts else (distinctFrom (k :: seen) ts).map (t :: ·)

def distinct (ts : List Tree) : Except Fault (List Tree) := distinctFrom [] ts

end Tree
end ZeroOne
