import ZeroOne.Tree.Evaluate

/-! Evaluation as a relation, and the stack machine that decides it. -/
namespace ZeroOne.Tree

/-- A tree has an outcome, which is a value or nothing. Every rule says which operands are looked at. -/
inductive Evaluates : Tree → Option Value → Prop
  | number (n : Int) : Evaluates (.number n) (some (.int n))
  | bool (b : Bool) : Evaluates (.bool b) (some (.bool b))
  | add {l r : Tree} {m n : Int} :
    Evaluates l (some (.int m)) → Evaluates r (some (.int n)) →
      Evaluates (.add l r) (some (.int (m + n)))
  | mul {l r : Tree} {m n : Int} :
    Evaluates l (some (.int m)) → Evaluates r (some (.int n)) →
      Evaluates (.mul l r) (some (.int (m * n)))
  | leftNotInt {o : Operator} {l r : Tree} {v : Option Value} :
    o ≠ .or → Evaluates l v → (∀ m, v ≠ some (.int m)) → Evaluates (.binary (.op o) l r) none
  | rightNotInt {o : Operator} {l r : Tree} {m : Int} {v : Option Value} :
    o ≠ .or → Evaluates l (some (.int m)) → Evaluates r v → (∀ n, v ≠ some (.int n)) →
      Evaluates (.binary (.op o) l r) none
  | orTrue {l r : Tree} : Evaluates l (some (.bool true)) → Evaluates (.or l r) (some (.bool true))
  | orFalse {l r : Tree} {b : Bool} :
    Evaluates l (some (.bool false)) → Evaluates r (some (.bool b)) →
      Evaluates (.or l r) (some (.bool b))
  | leftNotBool {l r : Tree} {v : Option Value} :
    Evaluates l v → (∀ b, v ≠ some (.bool b)) → Evaluates (.or l r) none
  | rightNotBool {l r : Tree} {v : Option Value} :
    Evaluates l (some (.bool false)) → Evaluates r v → (∀ b, v ≠ some (.bool b)) →
      Evaluates (.or l r) none

/-- Neither a number, nor a truth value, nor an operator with two operands. -/
def Alien : Tree → Prop
  | .foreign _ => True
  | .binary .unspecified _ _ => True
  | _ => False

/-- The first alien item that is looked at; a right operand is only behind a number or the false
side of a disjunction. -/
inductive Meets : Tree → Tree → Prop
  | here {t : Tree} : t.Alien → Meets t t
  | left {o : Operator} {l r x : Tree} : Meets l x → Meets (.binary (.op o) l r) x
  | right {o : Operator} {l r x : Tree} {m : Int} :
    o ≠ .or → Evaluates l (some (.int m)) → Meets r x → Meets (.binary (.op o) l r) x
  | orRight {l r x : Tree} :
    Evaluates l (some (.bool false)) → Meets r x → Meets (.or l r) x

theorem Evaluates.of_decided {o : Operator} {l r : Tree} {left outcome : Option Value}
    (hl : Evaluates l left) (hd : decided? o left = some outcome) :
    Evaluates (.binary (.op o) l r) outcome := by
  cases o with
  | or =>
    rcases left with _ | n | _ | _ <;> simp only [decided?, Option.some.injEq, reduceCtorEq] at hd
    · exact hd ▸ .leftNotBool hl (by simp)
    · exact hd ▸ .leftNotBool hl (by simp)
    · exact hd ▸ .orTrue hl
  | add | mul =>
    rcases left with _ | n | b <;> simp only [decided?, Option.some.injEq, reduceCtorEq] at hd
    · exact hd ▸ .leftNotInt (by simp) hl (by simp)
    · exact hd ▸ .leftNotInt (by simp) hl (by simp)

/-- Only a number, or the false left side of a disjunction, leaves the outcome open. -/
theorem decided?_eq_none_iff {o : Operator} {left : Option Value} :
    decided? o left = none ↔
      o ≠ .or ∧ (∃ m, left = some (.int m)) ∨ o = .or ∧ left = some (.bool false) := by
  cases o <;> rcases left with _ | n | _ | _ <;> simp [decided?]

theorem Evaluates.of_combine {o : Operator} {l r : Tree} {left right : Option Value}
    (hl : Evaluates l left) (hd : decided? o left = none) (hr : Evaluates r right) :
    Evaluates (.binary (.op o) l r) (combine o left right) := by
  obtain ⟨ho, m, rfl⟩ | ⟨rfl, rfl⟩ := decided?_eq_none_iff.1 hd
  · rcases right with _ | n | b
    · cases o with
      | or => exact absurd rfl ho
      | add | mul => exact .rightNotInt ho hl hr (by simp)
    · cases o with
      | or => exact absurd rfl ho
      | add => exact .add hl hr
      | mul => exact .mul hl hr
    · cases o with
      | or => exact absurd rfl ho
      | add | mul => exact .rightNotInt ho hl hr (by simp)
  · rcases right with _ | n | b
    · exact .rightNotBool hl hr (by simp)
    · exact .rightNotBool hl hr (by simp)
    · exact .orFalse hl hr

theorem Meets.of_undecided {o : Operator} {l r x : Tree} {left : Option Value}
    (hl : Evaluates l left) (hd : decided? o left = none) (hr : Meets r x) :
    Meets (.binary (.op o) l r) x := by
  obtain ⟨ho, m, rfl⟩ | ⟨rfl, rfl⟩ := decided?_eq_none_iff.1 hd
  · exact .right ho hl hr
  · exact .orRight hl hr

/-- Every meaning is derived by the rules, a fault by the way to the item it names. -/
theorem meaning_sound (t : Tree) :
    (∃ v, t.meaning = .ok v ∧ Evaluates t v) ∨
      ∃ x, t.meaning = .error (.unknownNode x) ∧ Meets t x := by
  induction t with
  | number n => exact .inl ⟨_, by rw [meaning], .number n⟩
  | bool b => exact .inl ⟨_, by rw [meaning], .bool b⟩
  | foreign f => exact .inr ⟨_, by rw [meaning] <;> simp, .here trivial⟩
  | binary s l r ihl ihr =>
    cases s with
    | unspecified => exact .inr ⟨_, by rw [meaning] <;> simp, .here trivial⟩
    | op o =>
      rw [meaning]
      obtain ⟨left, hl, hle⟩ | ⟨x, hl, hx⟩ := ihl
      · rw [hl]
        rcases hd : decided? o left with _ | outcome
        · obtain ⟨right, hr, hre⟩ | ⟨x, hr, hx⟩ := ihr
          · exact .inl ⟨combine o left right, by simp [hd, hr], hle.of_combine hd hre⟩
          · exact .inr ⟨x, by simp [hd, hr], .of_undecided hle hd hx⟩
        · exact .inl ⟨outcome, by simp [hd], hle.of_decided hd⟩
      · exact .inr ⟨x, by rw [hl], .left hx⟩

theorem meaning_of_evaluates {t : Tree} {v : Option Value} (h : Evaluates t v) :
    t.meaning = .ok v := by
  induction h with
  | number n => rw [meaning]
  | bool b => rw [meaning]
  | add _ _ hl hr => simp [meaning, hl, hr, decided?, combine]
  | mul _ _ hl hr => simp [meaning, hl, hr, decided?, combine]
  | @leftNotInt o l r v ho _ hv hl =>
    have hd : decided? o v = some none := by
      cases o with
      | or => exact absurd rfl ho
      | add | mul => rcases v with _ | n | b <;> simp [decided?] at hv ⊢
    simp [meaning, hl, hd]
  | @rightNotInt o l r m v ho _ _ hv hl hr =>
    have hd : decided? o (some (.int m)) = none := decided?_eq_none_iff.2 (.inl ⟨ho, m, rfl⟩)
    have hc : combine o (some (.int m)) v = none := by
      cases o with
      | or => exact absurd rfl ho
      | add | mul => rcases v with _ | n | b <;> simp [combine] at hv ⊢
    simp [meaning, hl, hr, hd, hc]
  | orTrue _ hl => simp [meaning, hl, decided?]
  | orFalse _ _ hl hr => simp [meaning, hl, hr, decided?, combine]
  | @leftNotBool l r v _ hv hl =>
    have hd : decided? .or v = some none := by rcases v with _ | n | b <;> simp [decided?] at hv ⊢
    simp [meaning, hl, hd]
  | @rightNotBool l r v _ _ hv hl hr =>
    have hc : combine .or (some (.bool false)) v = none := by
      rcases v with _ | n | b <;> simp [combine] at hv ⊢
    simp [meaning, hl, hr, decided?, hc]

theorem meaning_of_meets {t x : Tree} (h : Meets t x) : t.meaning = .error (.unknownNode x) := by
  induction h with
  | @here t ht =>
    cases t with
    | foreign f => rw [meaning] <;> simp
    | binary s l r =>
      cases s with
      | op o => exact ht.elim
      | unspecified => rw [meaning] <;> simp
    | number n => exact ht.elim
    | bool b => exact ht.elim
  | left _ hl => rw [meaning, hl]
  | @right o l r x m ho he _ hr =>
    have hd : decided? o (some (.int m)) = none := decided?_eq_none_iff.2 (.inl ⟨ho, m, rfl⟩)
    simp [meaning, meaning_of_evaluates he, hd, hr]
  | orRight he _ hr => simp [meaning, meaning_of_evaluates he, decided?, hr]

theorem meaning_eq_ok_iff {t : Tree} {v : Option Value} : t.meaning = .ok v ↔ Evaluates t v := by
  refine ⟨fun h => ?_, meaning_of_evaluates⟩
  obtain ⟨w, hw, he⟩ | ⟨x, hx, _⟩ := meaning_sound t
  · obtain rfl : w = v := by simpa [hw] using h
    exact he
  · simp [hx] at h

theorem meaning_eq_error_iff {t : Tree} {e : Fault} :
    t.meaning = .error e ↔ ∃ x, Meets t x ∧ e = .unknownNode x := by
  constructor
  · intro h
    obtain ⟨w, hw, _⟩ | ⟨x, hx, hm⟩ := meaning_sound t
    · simp [hw] at h
    · exact ⟨x, hm, by simpa [hx] using h.symm⟩
  · rintro ⟨x, hx, rfl⟩
    exact meaning_of_meets hx

/-- The machine answers as the rules do, above whatever is left to do, and fails only for the first
alien item that it meets. -/
theorem evaluate_bigStep (t : Tree) :
    (∀ v, t.evaluate = .ok v ↔ Evaluates t v) ∧
      (∀ e, t.evaluate = .error e ↔
        ∃ x, Meets t x ∧ e = .unknownNode x ∧ e.message = "Unknown node type: " ++ x.typeName) ∧
      (∀ v, Evaluates t v → evaluateTasks [.visit t] [] = .ok [v] ∧
        ∀ tasks results, evaluateTasks (.visit t :: tasks) results =
          evaluateTasks tasks (v :: results)) ∧
      (∀ x, Meets t x → ∀ tasks results,
        evaluateTasks (.visit t :: tasks) results = .error (.unknownNode x)) := by
  simp only [evaluate_eq_meaning]
  refine ⟨fun v => meaning_eq_ok_iff, fun e => ?_, fun v hv => ⟨?_, fun tasks results => ?_⟩,
    fun x hx tasks results => ?_⟩
  · rw [meaning_eq_error_iff]
    constructor
    · rintro ⟨x, hx, rfl⟩
      exact ⟨x, hx, rfl, rfl⟩
    · rintro ⟨x, hx, he, _⟩
      exact ⟨x, hx, he⟩
  · simp [evaluateTasks_visit, meaning_of_evaluates hv, evaluateTasks]
  · rw [evaluateTasks_visit, meaning_of_evaluates hv]
  · rw [evaluateTasks_visit, meaning_of_meets hx]

end ZeroOne.Tree
