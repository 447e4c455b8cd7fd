import ZeroOne.Proofs.BigStep
import ZeroOne.Proofs.NormalForm

/-! Passes over trees with foreign items. Nothing below a product with a factor zero is looked at, and
the first other item that there is no rule for ends the pass. -/
namespace ZeroOne.Tree

/-- A product whose test for zero reads a bare node: its left factor, or its right factor if the left
one is not zero. -/
def ReadsBare : Tree → Prop
  | .binary (.op .mul) l r => l = bare ∨ l ≠ zero ∧ r = bare
  | _ => False

/-- The items that a pass comes to, each before those within it: all but those below a product with a
factor zero. -/
def visited : Tree → List Tree
  | .binary s l r => .binary s l r :: if ZeroProduct s l r then [] else l.visited ++ r.visited
  | t => [t]

def Stops (t : Tree) : Prop := t.Alien ∨ t.ReadsBare

/-- The first of the items with a property that a pass comes to. -/
structure FirstVisited (p : Tree → Prop) (t x : Tree) : Prop where
  holds : p x
  first : ∃ before after, t.visited = before ++ x :: after ∧ ∀ y ∈ before, ¬ p y

def obstacle? : Tree → Option Fault
  | .binary (.op .mul) l r =>
    if l = bare ∨ l ≠ zero ∧ r = bare then some (.noValue bare) else none
  | .binary .unspecified l r => some (.cannotSimplify (.binary .unspecified l r))
  | .foreign f => some (.cannotSimplify (.foreign f))
  | _ => none

theorem obstacle?_eq_some_iff {t : Tree} {e : Fault} :
    t.obstacle? = some e ↔
      t.Alien ∧ e = .cannotSimplify t ∨ t.ReadsBare ∧ e = .noValue bare := by
  rcases t with _ | _ | ⟨(_ | _ | _) | _, l, r⟩ | _ <;>
    simp [obstacle?, Alien, ReadsBare, eq_comm (a := e)]

theorem obstacle?_eq_none_iff {t : Tree} : t.obstacle? = none ↔ ¬ t.Stops := by
  rcases t with _ | _ | ⟨(_ | _ | _) | _, l, r⟩ | _ <;> simp [obstacle?, Stops, Alien, ReadsBare]

theorem collapses?_eq (o : Operator) (l r : Tree) :
    collapses? o l r =
      (Tree.binary (.op o) l r).obstacle?.elim (.ok (decide (ZeroProduct (.op o) l r))) .error := by
  cases o with
  | add => simp [collapses?, obstacle?, ZeroProduct]
  | or => simp [collapses?, obstacle?, ZeroProduct]
  | mul =>
    rw [collapses?_mul, obstacle?]
    by_cases hb : l = bare ∨ l ≠ zero ∧ r = bare
    · rw [if_pos hb, if_pos hb]
      rfl
    · rw [if_neg hb, if_neg hb]
      simp [ZeroProduct]

/-- A pass fails for the first obstacle that it comes to, and otherwise replaces the products with a
factor zero. -/
theorem simplify_eq_obstacle? (t : Tree) :
    t.simplify = (t.visited.findSome? obstacle?).elim (.ok t.sweep) .error := by
  rw [simplify_eq_pass]
  induction t with
  | number n => rfl
  | bool b => rfl
  | foreign f => rfl
  | binary s l r ihl ihr =>
    cases s with
    | unspecified => rfl
    | op o =>
      rw [pass, collapses?_eq, visited, List.findSome?_cons]
      rcases (Tree.binary (.op o) l r).obstacle? with _ | e
      · by_cases hz : ZeroProduct (.op o) l r
        · simp [hz, sweep_of_zeroProduct hz]
        · simp only [hz, if_false, decide_false, ihl, ihr, sweep_of_not_zeroProduct hz,
            List.findSome?_append, Option.elim]
          rcases l.visited.findSome? obstacle? with _ | e
          · rcases r.visited.findSome? obstacle? with _ | e <;> rfl
          · rfl
      · rfl

section

variable {t u x : Tree} {e : Fault}

theorem FirstVisited.congr {p q : Tree → Prop} (h : ∀ y ∈ t.visited, p y ↔ q y)
    (hx : t.FirstVisited p x) : t.FirstVisited q x := by
  obtain ⟨hp, before, after, hv, hbefore⟩ := hx
  refine ⟨(h x (by simp [hv])).1 hp, before, after, hv, fun y hy => ?_⟩
  rw [← h y (by simp [hv, hy])]
  exact hbefore y hy

theorem simplify_eq_ok_iff : t.simplify = .ok u ↔ (∀ x ∈ t.visited, ¬ x.Stops) ∧ u = t.sweep := by
  have hnone : t.visited.findSome? obstacle? = none ↔ ∀ x ∈ t.visited, ¬ x.Stops := by
    simp only [List.findSome?_eq_none_iff, obstacle?_eq_none_iff]
  rw [simplify_eq_obstacle?, ← hnone]
  rcases t.visited.findSome? obstacle? with _ | e
  · simp [eq_comm]
  · simp

theorem findSome?_obstacle?_eq_some_iff :
    t.visited.findSome? obstacle? = some e ↔
      ∃ x, t.FirstVisited Stops x ∧ x.obstacle? = some e := by
  simp only [List.findSome?_eq_some_iff, obstacle?_eq_none_iff]
  constructor
  · rintro ⟨before, x, after, hv, hx, hbefore⟩
    refine ⟨x, ⟨?_, before, after, hv, hbefore⟩, hx⟩
    rw [obstacle?_eq_some_iff] at hx
    exact hx.imp And.left And.left
  · rintro ⟨x, ⟨_, before, after, hv, hbefore⟩, hx⟩
    exact ⟨before, x, after, hv, hx, hbefore⟩

theorem simplify_eq_error_iff :
    t.simplify = .error e ↔ ∃ x, t.FirstVisited Stops x ∧
      (x.Alien ∧ e = .cannotSimplify x ∨ x.ReadsBare ∧ e = .noValue bare) := by
  simp only [← obstacle?_eq_some_iff, ← findSome?_obstacle?_eq_some_iff, simplify_eq_obstacle?]
  rcases t.visited.findSome? obstacle? with _ | e <;> simp

end

/-- A pass ends at the first alien item or product reading a bare node, and otherwise replaces the
products with a factor zero. -/
theorem simplify_stops (t : Tree) :
    (∀ u, t.simplify = .ok u ↔ (∀ x ∈ t.visited, ¬ x.Stops) ∧ u = t.sweep) ∧
      (∀ e, t.simplify = .error e ↔ ∃ x, t.FirstVisited Stops x ∧
        (x.Alien ∧ e = .cannotSimplify x ∨ x.ReadsBare ∧ e = .noValue bare)) ∧
      ((∀ x ∈ t.visited, ¬ x.ReadsBare) →
        (∀ u, t.simplify = .ok u ↔ (∀ x ∈ t.visited, ¬ x.Alien) ∧ u = t.sweep) ∧
        ∀ e, t.simplify = .error e ↔ ∃ x, t.FirstVisited Alien x ∧ e = .cannotSimplify x) ∧
      (∀ x, (Fault.cannotSimplify x).message = "Cannot simplify " ++ x.typeName) ∧
      (Fault.noValue bare).message = "'Node' object has no attribute 'value'" := by
  refine ⟨fun u => simplify_eq_ok_iff, fun e => simplify_eq_error_iff, fun hbare => ?_,
    fun _ => rfl, rfl⟩
  have hstops : ∀ x ∈ t.visited, x.Stops ↔ x.Alien := fun x hx =>
    ⟨fun h => h.resolve_right (hbare x hx), .inl⟩
  refine ⟨fun u => ?_, fun e => ?_⟩
  · have hall : (∀ x ∈ t.visited, ¬ x.Stops) ↔ ∀ x ∈ t.visited, ¬ x.Alien :=
      forall₂_congr fun x hx => not_congr (hstops x hx)
    rw [simplify_eq_ok_iff, hall]
  · rw [simplify_eq_error_iff]
    constructor
    · rintro ⟨x, hx, ⟨_, he⟩ | ⟨hread, _⟩⟩
      · exact ⟨x, hx.congr hstops, he⟩
      · obtain ⟨before, after, hv, _⟩ := hx.first
        exact absurd hread (hbare x (by simp [hv]))
    · rintro ⟨x, hx, he⟩
      exact ⟨x, hx.congr fun y hy => (hstops y hy).symm, .inl ⟨hx.holds, he⟩⟩

/-- Two foreign factors are dropped for a zero beside them, and the pass ends at a composite of no
particular kind. -/
theorem simplify_stops_composite :
    (∀ x ∈ (add (mul (.foreign .none) zero) (.or (mul zero bare)
        (.binary .unspecified bare bare))).visited, ¬ x.ReadsBare) ∧
      (add (mul (.foreign .none) zero) (.or (mul zero bare)
        (.binary .unspecified bare bare))).simplify =
        .error (.cannotSimplify (.binary .unspecified bare bare)) := by
  have hbare : ∀ x ∈ (add (mul (.foreign .none) zero) (.or (mul zero bare)
      (.binary .unspecified bare bare))).visited, ¬ x.ReadsBare := by
    simp [visited, ZeroProduct, ReadsBare]
  obtain ⟨_, herror⟩ := (simplify_stops _).2.2.1 hbare
  refine ⟨hbare, (herror _).2 ⟨.binary .unspecified bare bare, ⟨trivial, ?_⟩, rfl⟩⟩
  refine ⟨[_, _, _, _], [bare, bare], rfl, ?_⟩
  simp [Alien]

/-- A bare node is dropped for a zero in front of it only; beside any other factor it ends the pass.
-/
theorem simplify_bare_factor :
    (mul zero bare).simplify = .ok zero ∧ (mul bare zero).simplify = .error (.noValue bare) ∧
      (mul (.number 1) bare).simplify = .error (.noValue bare) ∧
      (mul (add (.foreign (.text "a")) (.number 1)) bare).simplify = .error (.noValue bare) ∧
      (¬ ∀ l : Tree, (mul l zero).simplify = .ok zero) ∧
      ¬ ∀ (t : Tree) (e : Fault), t.simplify = .error e → ∃ x, e = .cannotSimplify x := by
  have hleft : (mul bare zero).simplify = .error (.noValue bare) := by
    rw [simplify_eq_obstacle?]
    rfl
  refine ⟨?_, hleft, ?_, ?_, fun h => ?_, fun h => ?_⟩
  · rw [simplify_eq_obstacle?]
    rfl
  · rw [simplify_eq_obstacle?]
    rfl
  · rw [simplify_eq_obstacle?]
    rfl
  · cases hleft.symm.trans (h bare)
  · obtain ⟨x, hx⟩ := h _ _ hleft
    cases hx

section

variable {t u : Tree}

/-- The walks over a tree and over what a pass made of it differ first at a product that it
replaced. -/
theorem sameWalk_of_pass (h : t.pass = .ok u) (us ts : List Tree) :
    sameWalk (u :: us) (t :: ts) = if u = t then sameWalk us ts else .ok false := by
  induction t generalizing u us ts with
  | number n =>
    obtain rfl := Except.ok.inj h
    simp [sameWalk, label, children]
  | bool b =>
    obtain rfl := Except.ok.inj h
    simp [sameWalk, label, children]
  | foreign f => simp [pass] at h
  | binary s l r ihl ihr =>
    cases s with
    | unspecified => simp [pass] at h
    | op o =>
      obtain rfl | ⟨l', r', hl, hr, rfl⟩ := pass_binary h
      · simp [sameWalk, label]
      · have hwalk : sameWalk (.binary (.op o) l' r' :: us) (.binary (.op o) l r :: ts) =
            sameWalk (l' :: r' :: us) (l :: r :: ts) := by
          simp [sameWalk, label, children]
        rw [hwalk, ihl hl, ihr hr]
        by_cases hl' : l' = l <;> simp [hl']

theorem Regular.isNode (h : t.Regular) : t.isNode := by
  cases t with
  | foreign f => exact h.elim
  | _ => rfl

theorem isNode_of_pass (h : t.pass = .ok u) : t.isNode := by
  cases t with
  | foreign f => simp [pass] at h
  | _ => rfl

/-- A tree is comparable with what a pass has made of it. -/
theorem same?_of_simplify (h : t.simplify = .ok u) : u.same? t = .ok (decide (u = t)) := by
  rw [simplify_eq_pass] at h
  rw [same?, (regular_of_pass h).isNode, isNode_of_pass h]
  change sameWalk [u] [t] = _
  rw [sameWalk_of_pass h, sameWalk]
  by_cases hu : u = t <;> simp [hu]

theorem fix_of_simplify (h : t.simplify = .ok u) : t.fix.1.result = .ok u.normal := by
  have hregular : u.Regular := regular_of_pass ((simplify_eq_pass t).symm.trans h)
  have hs : u.same? t = .ok (decide (u = t)) := same?_of_simplify h
  by_cases hu : u = t
  · rw [← hu]
    exact fix_of_regular hregular
  · rw [decide_eq_false hu] at hs
    rw [fix, fixFrom_of_differs h hs]
    exact fixFrom_of_regular hregular 1

theorem fix_of_error {e : Fault} (h : t.simplify = .error e) : t.fix = (.fail e, 1) :=
  fixFrom_of_error h

end

/-- Repeated passes fail if and only if the first one does, and with its fault. -/
theorem fix_fails_first (t : Tree) :
    (∀ e, t.fix.1.result = .error e ↔ t.simplify = .error e) ∧
      (∀ e, t.simplify = .error e → t.fix.2 = 1) ∧
      ∀ u, t.simplify = .ok u → u.Regular ∧ u.same? t = .ok (decide (u = t)) ∧
        t.fix.1.result = .ok u.normal ∧ u.normal.Regular := by
  refine ⟨fun e => ⟨fun h => ?_, fun h => ?_⟩, fun e h => ?_, fun u h => ?_⟩
  · rcases hp : t.simplify with e' | u
    · rw [fix_of_error hp] at h
      cases h
      rfl
    · cases (fix_of_simplify hp).symm.trans h
  · rw [fix_of_error h]
    rfl
  · rw [fix_of_error h]
  · have hregular : u.Regular := regular_of_pass ((simplify_eq_pass t).symm.trans h)
    exact ⟨hregular, same?_of_simplify h, fix_of_simplify h, regular_normal hregular⟩

/-- Items that have no value stand in a tree that can be compared, because products have dropped them. -/
theorem fix_fails_first_dropped :
    (add (mul zero bare) (mul (.foreign .none) zero)).simplify = .ok (add zero zero) ∧
      (add zero zero).same? (add (mul zero bare) (mul (.foreign .none) zero)) = .ok false ∧
      (add (mul zero bare) (mul (.foreign .none) zero)).fix.1.result = .ok (add zero zero) := by
  have h : (add (mul zero bare) (mul (.foreign .none) zero)).simplify = .ok (add zero zero) := by
    rw [simplify_eq_obstacle?]
    rfl
  obtain ⟨_, _, hpass⟩ := fix_fails_first (add (mul zero bare) (mul (.foreign .none) zero))
  obtain ⟨_, hsame, hfix, _⟩ := hpass _ h
  exact ⟨h, hsame, hfix⟩

end ZeroOne.Tree
