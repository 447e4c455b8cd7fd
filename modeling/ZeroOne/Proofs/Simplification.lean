import ZeroOne.Proofs.Answer

/-! Simplification only adds answers. A tree that has a value keeps it, and a tree that gains one holds
a product that simplifies to zero although its types do not fit. -/
namespace ZeroOne

namespace Tree

/-- An outcome does not depend on operands without a value, so it stays when they gain one. -/
theorem outcome_mono {o : Operator} {a a' b b' : Option Value} {v : Value}
    (ha : ∀ x, a = some x → a' = some x) (hb : ∀ x, b = some x → b' = some x)
    (h : outcome o a b = some v) : outcome o a' b' = some v := by
  cases a with
  | none => cases o <;> simp [outcome, decided?] at h
  | some x =>
    rw [ha x rfl]
    cases b with
    | some y => rwa [hb y rfl]
    | none =>
      -- Without a right operand the left one has decided.
      have hd : decided? o (some x) = some (some v) := by
        cases hd : decided? o (some x) with
        | none => cases o <;> simp [outcome, hd, combine] at h
        | some w => simpa [outcome, hd] using h
      simp [outcome, hd]

theorem outcome_mul_eq_some {a b : Option Value} {v : Value} (h : outcome .mul a b = some v) :
    ∃ m n, a = some (.int m) ∧ b = some (.int n) ∧ v = .int (m * n) := by
  rcases a with _ | m | c
  · simp [outcome, decided?] at h
  · rcases b with _ | n | d
    · simp [outcome, decided?, combine] at h
    · exact ⟨m, n, rfl, rfl, by simpa [outcome, decided?, combine] using h.symm⟩
    · simp [outcome, decided?, combine] at h
  · simp [outcome, decided?] at h

theorem value?_normal {t : Tree} {v : Value} (h : t.value? = some v) : t.normal.value? = some v := by
  induction t generalizing v with
  | number n => exact h
  | bool b => exact h
  | foreign f => cases h
  | binary s l r ihl ihr =>
    cases s with
    | unspecified => cases h
    | op o =>
      by_cases hz : ZeroProduct (.op o) l.normal r.normal
      · obtain ⟨ho, hz⟩ := hz
        obtain rfl : o = .mul := by simpa using ho
        obtain ⟨m, n, hl, hr, rfl⟩ := outcome_mul_eq_some h
        -- The factor that became zero had the value zero, if it had any.
        have hproduct : m * n = 0 := by
          obtain hz | hz := hz
          · have hm := ihl hl
            rw [hz] at hm
            have : m = 0 := by simpa [value?] using hm.symm
            simp [this]
          · have hn := ihr hr
            rw [hz] at hn
            have : n = 0 := by simpa [value?] using hn.symm
            simp [this]
        rw [normal_of_zeroProduct ⟨rfl, hz⟩, hproduct]
        rfl
      · rw [normal_of_not_zeroProduct hz]
        exact outcome_mono (fun _ => ihl) (fun _ => ihr) h

/-- A value that was not there before comes from a product that became zero. -/
theorem exists_zero_of_value?_ne {t : Tree} (h : t.normal.value? ≠ t.value?) :
    ∃ l r, mul l r ∈ t.subtrees ∧ (mul l r).normal = zero ∧ (mul l r).value? = none := by
  induction t with
  | number n => exact absurd rfl h
  | bool b => exact absurd rfl h
  | foreign f => exact absurd rfl h
  | binary s l r ihl ihr =>
    have hmem : ∀ m, m ∈ l.subtrees ∨ m ∈ r.subtrees → m ∈ (Tree.binary s l r).subtrees :=
      fun m hm => List.mem_cons_of_mem _ (List.mem_append.2 hm)
    by_cases hl : l.normal.value? = l.value?
    · by_cases hr : r.normal.value? = r.value?
      · by_cases hz : ZeroProduct s l.normal r.normal
        · obtain rfl : s = .op .mul := hz.1
          refine ⟨l, r, self_mem_subtrees _, normal_of_zeroProduct hz, ?_⟩
          by_contra hv
          obtain ⟨v, hv⟩ := Option.ne_none_iff_exists'.1 hv
          exact h ((value?_normal hv).trans hv.symm)
        · -- Neither the operands nor the operator have changed.
          refine absurd ?_ h
          rw [normal_of_not_zeroProduct hz]
          cases s with
          | op o => simp only [value?, hl, hr]
          | unspecified => rfl
      · obtain ⟨a, b, hab, hzero⟩ := ihr hr
        exact ⟨a, b, hmem _ (.inr hab), hzero⟩
    · obtain ⟨a, b, hab, hzero⟩ := ihl hl
      exact ⟨a, b, hmem _ (.inl hab), hzero⟩

theorem Regular.of_mem_subtrees {t m : Tree} (h : t.Regular) (hm : m ∈ t.subtrees) : m.Regular := by
  induction t, h using Regular.induction with
  | number n =>
    obtain rfl := List.mem_singleton.1 hm
    trivial
  | bool b =>
    obtain rfl := List.mem_singleton.1 hm
    trivial
  | operation o l r hl hr ihl ihr =>
    obtain rfl | hm := List.mem_cons.1 hm
    · exact ⟨hl, hr⟩
    · obtain hm | hm := List.mem_append.1 hm
      · exact ihl hm
      · exact ihr hm

/-- A product within a tree that simplifies to zero. -/
structure Vanishing (t m : Tree) : Prop where
  within : m ∈ t.subtrees
  product : ∃ l r, m = mul l r
  vanishes : m.fix.1.result = .ok zero

/-- If simplification changes the outcome, a product whose types do not fit simplifies to zero. -/
theorem exists_vanishing_of_value?_ne {t : Tree} (ht : t.Regular) (h : t.normal.value? ≠ t.value?) :
    ∃ m, t.Vanishing m ∧ m.evaluate = .ok none := by
  obtain ⟨l, r, hm, hz, hv⟩ := exists_zero_of_value?_ne h
  have hregular : (mul l r).Regular := ht.of_mem_subtrees hm
  have hfix : (mul l r).fix.1.result = .ok zero := by rw [fix_of_regular hregular, hz]
  refine ⟨mul l r, ⟨hm, ⟨l, r, rfl⟩, hfix⟩, ?_⟩
  rw [evaluate_of_regular hregular, hv]

end Tree

/-- Simplification keeps all values, and gives new ones only where an ill-typed product simplifies
to zero. -/
theorem simplification_adds_answers :
    (∀ t : Tree, t.Regular → ∃ u v w, t.fix.1.result = .ok u ∧ t.evaluate = .ok v ∧
      u.evaluate = .ok w ∧ (v ≠ none → w = v) ∧
      (w ≠ v → ∃ m, t.Vanishing m ∧ m.evaluate = .ok none)) ∧
      ∀ (order : OperandOrder) (text : Text),
        (∀ e, (run true order text).result = .error e ↔ (run false order text).result = .error e) ∧
        (∀ v, (run false order text).result = .ok (some v) →
          (run true order text).result = .ok (some v)) ∧
        ∀ t, (parse order text).result = .ok t →
          (∀ m, t.Vanishing m → ∃ v, m.evaluate = .ok (some v)) →
          (run true order text).result = (run false order text).result := by
  refine ⟨fun t ht => ?_, fun order text => ?_⟩
  · have hn : t.normal.Regular := Tree.regular_normal ht
    refine ⟨t.normal, t.value?, t.normal.value?, Tree.fix_of_regular ht, Tree.evaluate_of_regular ht,
      Tree.evaluate_of_regular hn, fun hv => ?_, Tree.exists_vanishing_of_value?_ne ht⟩
    obtain ⟨v, hv⟩ := Option.ne_none_iff_exists'.1 hv
    rw [hv, Tree.value?_normal hv]
  · rcases hp : (parse order text).result with e | t
    · have hrun : ∀ simplify, (run simplify order text).result = .error (.unreadable e) :=
        fun simplify => result_run_of_parse_error simplify hp
      rw [hrun true, hrun false]
      exact ⟨fun _ => Iff.rfl, fun _ h => h, fun _ _ _ => rfl⟩
    · have ht : t.Regular := regular_of_parse hp
      have hplain : (run false order text).result = .ok t.value? := result_run_of_parse false hp
      have hsimple : (run true order text).result = .ok t.normal.value? := result_run_of_parse true hp
      rw [hplain, hsimple]
      refine ⟨fun e => by simp, fun v hv => ?_, fun u hu hwell => ?_⟩
      · rw [Tree.value?_normal (Except.ok.inj hv)]
      · obtain rfl : t = u := Except.ok.inj hu
        by_contra hne
        have hvalue : t.normal.value? ≠ t.value? := fun h => hne (congrArg _ h)
        obtain ⟨m, hm, hnone⟩ := Tree.exists_vanishing_of_value?_ne ht hvalue
        obtain ⟨v, hsome⟩ := hwell m hm
        rw [hnone] at hsome
        cases hsome

theorem simplification_adds_answers_sum :
    (∃ m, (Tree.add (.number 1) (.mul (.bool true) (.number 0))).Vanishing m ∧
      m.evaluate = .ok none) ∧
      (run true .written (.ofString "1+(0*1)")).result = .ok (some (.int 1)) ∧
      (run true .written (.ofString "1+(0*1)")).result =
        (run false .written (.ofString "1+(0*1)")).result := by
  obtain ⟨htree, hrun⟩ := simplification_adds_answers
  obtain ⟨herror, hvalue, hsame⟩ := hrun .written (.ofString "1+(0*1)")
  have hp : (parse .written (.ofString "1+(0*1)")).result =
      .ok (.add (.number 1) (.mul (.number 0) (.number 1))) := by decide +kernel
  have hplain : (run false .written (.ofString "1+(0*1)")).result = .ok (some (.int 1)) :=
    result_run_of_parse false hp
  refine ⟨?_, hvalue _ hplain, hsame _ hp ?_⟩
  · obtain ⟨u, v, w, hu, hv, hw, _, hne⟩ :=
      htree (.add (.number 1) (.mul (.bool true) (.number 0))) ⟨trivial, trivial, trivial⟩
    have hnone : v = none := Except.ok.inj (hv.symm.trans (by decide +kernel))
    obtain rfl : u = .add (.number 1) .zero :=
      Except.ok.inj (hu.symm.trans (Tree.fix_of_regular ⟨trivial, trivial, trivial⟩))
    have hsome : w = some (.int 1) := Except.ok.inj (hw.symm.trans (by decide +kernel))
    exact hne (by simp [hnone, hsome])
  · rintro m ⟨hm, ⟨l, r, rfl⟩, _⟩
    obtain ⟨rfl, rfl⟩ : l = .number 0 ∧ r = .number 1 := by simpa [Tree.subtrees] using hm
    exact ⟨.int 0, by decide +kernel⟩

end ZeroOne
