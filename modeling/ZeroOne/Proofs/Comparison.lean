import ZeroOne.Proofs.Equality
import ZeroOne.Proofs.NormalForm

/-! Comparison of trees with items that have no value. Such an item is met only if everything before it
is the same in both trees. -/
namespace ZeroOne.Tree

/-- Bare nodes, texts, integers and none have no value. -/
def Valueless : Tree → Prop
  | .foreign (.result _) => False
  | .foreign _ => True
  | _ => False

theorem label_eq_error_iff {t : Tree} {e : Fault} :
    t.label = .error e ↔ t.Valueless ∧ e = .noValue t := by
  rcases t with _ | _ | _ | _ | _ | _ | _ | _ <;> simp [label, Valueless, eq_comm (a := e)]

theorem labels_eq_map (t : Tree) : t.labels = t.subtrees.map label := by
  induction t with
  | binary s l r ihl ihr => simp [labels, subtrees, label, ihl, ihr]
  | _ => rfl

theorem getElem?_labels_eq_error_iff {t : Tree} {i : Nat} {e : Fault} :
    t.labels[i]? = some (.error e) ↔
      ∃ x, t.subtrees[i]? = some x ∧ x.Valueless ∧ e = .noValue x := by
  simp only [labels_eq_map, List.getElem?_map, Option.map_eq_some_iff, label_eq_error_iff]

section

variable {xs ys : List (Except Fault Label)} {e : Fault}

theorem AgreeBefore.symm {i : Nat} (h : AgreeBefore xs ys i) : AgreeBefore ys xs i := by
  intro j hj
  obtain ⟨x, hx, hy⟩ := h j hj
  exact ⟨x, hy, hx⟩

theorem inStep_of_agreeBefore {i : Nat} (h : AgreeBefore xs ys i)
    (hi : xs[i]? = some (.error e) ∨ ys[i]? = some (.error e)) : ∃ f, inStep xs ys = .error f := by
  -- Up to the place in question both walks go on with the same labels.
  induction i generalizing xs ys with
  | zero =>
    rcases xs with _ | ⟨_ | _, xs⟩ <;> rcases ys with _ | ⟨_ | _, ys⟩ <;>
      simp [inStep, Except.map] at hi ⊢
  | succ i ih =>
    obtain ⟨l, hx, hy⟩ := h 0 (by omega)
    cases xs with
    | nil => simp at hx
    | cons x xs =>
      cases ys with
      | nil => simp at hy
      | cons y ys =>
        obtain ⟨⟨l, rfl, rfl⟩, hagree⟩ := agreeBefore_succ_iff.1 h
        rw [inStep, if_pos rfl]
        exact ih hagree (by simpa using hi)

end

section

variable {a b t : Tree} {e : Fault}

theorem exists_same?_error_iff (ha : a.isNode) (hb : b.isNode) :
    (∃ e, a.same? b = .error e) ↔ ∃ i x, AgreeBefore a.labels b.labels i ∧
      (a.subtrees[i]? = some x ∨ b.subtrees[i]? = some x) ∧ x.Valueless := by
  rw [same?_eq_inStep ha hb]
  constructor
  · rintro ⟨e, he⟩
    obtain ⟨i, hagree, hi⟩ := exists_of_inStep_error he
    simp only [getElem?_labels_eq_error_iff] at hi
    rcases hi with ⟨x, hx, hv, _⟩ | ⟨x, hx, hv, _⟩
    · exact ⟨i, x, hagree, .inl hx, hv⟩
    · exact ⟨i, x, hagree, .inr hx, hv⟩
  · rintro ⟨i, x, hagree, hx, hv⟩
    refine inStep_of_agreeBefore (e := .noValue x) hagree ?_
    simp only [getElem?_labels_eq_error_iff]
    exact hx.imp (fun hx => ⟨x, hx, hv, rfl⟩) fun hx => ⟨x, hx, hv, rfl⟩

theorem valueless_of_same?_error (ha : a.isNode) (hb : b.isNode) (h : a.same? b = .error e) :
    ∃ x, x.Valueless ∧ e = .noValue x := by
  rw [same?_eq_inStep ha hb] at h
  obtain ⟨i, _, hi⟩ := exists_of_inStep_error h
  simp only [getElem?_labels_eq_error_iff] at hi
  rcases hi with ⟨x, _, hx⟩ | ⟨x, _, hx⟩ <;> exact ⟨x, hx⟩

theorem same?_eq_ok {c : Bool} (ha : a.isNode) (hb : b.isNode) (h : a.same? b = .ok c) :
    c = true ↔ a.labels = b.labels :=
  inStep_eq_ok ((same?_eq_inStep ha hb).symm.trans h)

/-- Nodes that do not compare do not compare in the other direction either. -/
theorem exists_same?_error_symm (ha : a.isNode) (hb : b.isNode) (h : ∃ e, a.same? b = .error e) :
    ∃ e, b.same? a = .error e := by
  obtain ⟨i, x, hagree, hx, hv⟩ := (exists_same?_error_iff ha hb).1 h
  exact (exists_same?_error_iff hb ha).2 ⟨i, x, hagree.symm, hx.symm, hv⟩

theorem same?_comm (ha : a.isNode) (hb : b.isNode) {c : Bool} (h : a.same? b = .ok c) :
    b.same? a = .ok c := by
  rcases hs : b.same? a with e | d
  · obtain ⟨f, hf⟩ := exists_same?_error_symm hb ha ⟨e, hs⟩
    cases h.symm.trans hf
  · have hcd : c = true ↔ d = true := by
      rw [same?_eq_ok ha hb h, same?_eq_ok hb ha hs, eq_comm]
    rw [Bool.eq_iff_iff.2 hcd]

end

section

variable {xs : List (Except Fault Label)} {e : Fault}

theorem mem_of_mapM_eq_error (h : xs.mapM id = .error e) : .error e ∈ xs := by
  induction xs with
  | nil => cases h
  | cons x xs ih =>
    rw [List.mapM_cons] at h
    rcases x with f | l
    · obtain rfl : f = e := Except.error.inj h
      exact List.mem_cons_self
    · rcases hrest : xs.mapM id with f | ls
      · rw [hrest] at h
        obtain rfl : f = e := Except.error.inj h
        exact List.mem_cons_of_mem _ (ih hrest)
      · rw [hrest] at h
        cases h

theorem exists_mapM_eq_error (h : .error e ∈ xs) : ∃ f, xs.mapM id = .error f := by
  induction xs with
  | nil => cases h
  | cons x xs ih =>
    rw [List.mapM_cons]
    rcases x with f | l
    · exact ⟨f, rfl⟩
    · obtain ⟨f, hf⟩ := ih (by simpa using h)
      rw [hf]
      exact ⟨f, rfl⟩

end

section

variable {t : Tree}

theorem error_mem_labels_iff {e : Fault} :
    .error e ∈ t.labels ↔ ∃ x ∈ t.subtrees, x.Valueless ∧ e = .noValue x := by
  simp only [labels_eq_map, List.mem_map, label_eq_error_iff]

theorem valueless_of_key?_error (h : t.isNode) {e : Fault} (he : t.key? = .error e) :
    ∃ x ∈ t.subtrees, x.Valueless ∧ e = .noValue x := by
  rw [key?_of_isNode h] at he
  rcases hm : t.labels.mapM id with f | ls
  · rw [hm] at he
    obtain rfl : f = e := Except.error.inj he
    exact error_mem_labels_iff.1 (mem_of_mapM_eq_error hm)
  · rw [hm] at he
    cases he

theorem exists_key?_error_iff (h : t.isNode) :
    (∃ e, t.key? = .error e) ↔ ∃ x ∈ t.subtrees, x.Valueless := by
  constructor
  · rintro ⟨e, he⟩
    obtain ⟨x, hx, hv, _⟩ := valueless_of_key?_error h he
    exact ⟨x, hx, hv⟩
  · rintro ⟨x, hx, hv⟩
    obtain ⟨e, he⟩ := exists_mapM_eq_error (error_mem_labels_iff.2 ⟨x, hx, hv, rfl⟩)
    exact ⟨e, by rw [key?_of_isNode h, he]; rfl⟩

end

/-- Two nodes are equal if their walks are, and fail to compare at an item without a value behind a
common beginning. -/
theorem comparison_of_nodes {a b : Tree} (ha : a.isNode) (hb : b.isNode) :
    ((∃ e, a.same? b = .error e) ↔ ∃ i x, AgreeBefore a.labels b.labels i ∧
        (a.subtrees[i]? = some x ∨ b.subtrees[i]? = some x) ∧ x.Valueless) ∧
      (∀ e, a.same? b = .error e → ∃ x, x.Valueless ∧ e = .noValue x) ∧
      (∀ c, a.same? b = .ok c → (c = true ↔ a.labels = b.labels)) ∧
      ((∃ e, a.same? b = .error e) ∧ (∃ e, b.same? a = .error e) ∨
        ∃ c, a.same? b = .ok c ∧ b.same? a = .ok c) ∧
      (∀ e, a.differs? b = .error e ↔ a.same? b = .error e) ∧
      (∀ c, a.differs? b = .ok c ↔ a.same? b = .ok !c) ∧
      ((∃ e, a.key? = .error e) ↔ ∃ x ∈ a.subtrees, x.Valueless) ∧
      ∀ e, a.key? = .error e → ∃ x ∈ a.subtrees, x.Valueless ∧ e = .noValue x := by
  refine ⟨exists_same?_error_iff ha hb, fun e => valueless_of_same?_error ha hb,
    fun c => same?_eq_ok ha hb, ?_, fun e => ?_, fun c => ?_, exists_key?_error_iff ha,
    fun e => valueless_of_key?_error ha⟩
  · rcases hs : a.same? b with e | c
    · exact .inl ⟨⟨e, rfl⟩, exists_same?_error_symm ha hb ⟨e, hs⟩⟩
    · exact .inr ⟨c, rfl, same?_comm ha hb hs⟩
  · rw [differs?]
    rcases a.same? b with f | d <;> simp [Except.map]
  · rw [differs?]
    rcases a.same? b with f | d
    · simp [Except.map]
    · cases c <;> cases d <;> simp [Except.map]

/-- A bare node is met behind two equal numbers, but not behind two that differ. -/
theorem comparison_of_nodes_met :
    (∃ e, (add (.number 1) bare).same? (add (.number 1) (.foreign .none)) = .error e) ∧
      (add (.number 1) bare).same? (add zero (.foreign .none)) = .ok false := by
  have hagree : AgreeBefore (add (.number 1) bare).labels
      (add (.number 1) (.foreign .none)).labels 2 := by
    intro j hj
    obtain rfl | rfl : j = 0 ∨ j = 1 := by omega
    · exact ⟨.symbol (.op .add), rfl, rfl⟩
    · exact ⟨.number 1, rfl, rfl⟩
  obtain ⟨hmet, _⟩ := comparison_of_nodes (a := add (.number 1) bare)
    (b := add (.number 1) (.foreign .none)) rfl rfl
  refine ⟨hmet.2 ⟨2, bare, hagree, .inl rfl, trivial⟩, ?_⟩
  simp [same?, isNode, sameWalk, label, children]

end ZeroOne.Tree
