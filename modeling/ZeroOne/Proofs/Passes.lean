import Mathlib.Logic.Function.Iterate
import Mathlib.Tactic.SplitIfs
import ZeroOne.Proofs.NormalForm

/-! The number of passes that a tree takes to its normal form, and the records of these passes. -/
namespace ZeroOne.Tree

/-- The passes that change a tree; a vanishing product waits for the first of its factors to become
zero. -/
def rounds : Tree → Nat
  | .binary (.op .mul) l r =>
    if l.normal = zero ∧ r.normal = zero then 1 + min l.rounds r.rounds
    else if l.normal = zero then 1 + l.rounds
    else if r.normal = zero then 1 + r.rounds
    else max l.rounds r.rounds
  | .binary _ l r => max l.rounds r.rounds
  | _ => 0

section

variable {s : Symbol} {l r : Tree}

theorem rounds_of_not_zeroProduct (h : ¬ ZeroProduct s l.normal r.normal) :
    (Tree.binary s l r).rounds = max l.rounds r.rounds := by
  rcases s with (_ | _ | _) | _
  · rfl
  · have hne : ¬ (l.normal = zero ∨ r.normal = zero) := fun hz => h ⟨rfl, hz⟩
    obtain ⟨hl, hr⟩ := not_or.1 hne
    simp [rounds, hl, hr]
  · rfl
  · rfl

theorem rounds_pos_of_zeroProduct (h : ZeroProduct s l.normal r.normal) :
    0 < (Tree.binary s l r).rounds := by
  obtain ⟨rfl, hz⟩ := h
  rw [rounds]
  split_ifs
  · omega
  · omega
  · omega
  · simp_all

end

/-- No pass changes a reduced tree, and only a reduced tree is left by all passes as it is. -/
theorem rounds_eq_zero_iff {t : Tree} : t.rounds = 0 ↔ t.Reduced := by
  induction t with
  | binary s l r ihl ihr =>
    rw [reduced_binary_iff]
    by_cases hz : ZeroProduct s l.normal r.normal
    · -- Reduced factors are their own normal forms, so one of them would be zero already.
      have hpos : 0 < (Tree.binary s l r).rounds := rounds_pos_of_zeroProduct hz
      have hnot : ¬ (¬ ZeroProduct s l r ∧ l.Reduced ∧ r.Reduced) := by
        rintro ⟨hne, hl, hr⟩
        rw [normal_of_reduced hl, normal_of_reduced hr] at hz
        exact hne hz
      exact iff_of_false (by omega) hnot
    · have hne : ¬ ZeroProduct s l r := mt ZeroProduct.normal hz
      have hmax : max l.rounds r.rounds = 0 ↔ l.rounds = 0 ∧ r.rounds = 0 := by omega
      rw [rounds_of_not_zeroProduct hz, hmax, ihl, ihr]
      exact ⟨fun h => ⟨hne, h⟩, fun h => h.2⟩
  | _ => simp [rounds, Reduced, subtrees]

/-- A pass leaves a tree as it is when no round is left. -/
theorem sweep_eq_self_iff_rounds {t : Tree} : t.sweep = t ↔ t.rounds = 0 :=
  sweep_eq_self_iff.trans rounds_eq_zero_iff.symm

theorem rounds_pos {t : Tree} (hn : t.normal = zero) (ht : t ≠ zero) : 0 < t.rounds := by
  refine Nat.pos_of_ne_zero fun h => ht ?_
  rw [← hn, normal_of_reduced (rounds_eq_zero_iff.1 h)]

theorem rounds_of_zeroProduct {s : Symbol} {l r : Tree} (h : ZeroProduct s l r) :
    (Tree.binary s l r).rounds = 1 := by
  obtain ⟨rfl, rfl | rfl⟩ := h
  · by_cases hr : r.normal = zero <;> simp [rounds, normal, hr]
  · by_cases hl : l.normal = zero <;> simp [rounds, normal, hl]

/-- Each pass takes one round off. -/
theorem rounds_sweep (t : Tree) : t.sweep.rounds = t.rounds - 1 := by
  induction t with
  | binary s l r ihl ihr =>
    by_cases hz : ZeroProduct s l r
    · rw [sweep_of_zeroProduct hz, rounds_of_zeroProduct hz]
      rfl
    · rw [sweep_of_not_zeroProduct hz]
      by_cases hn : ZeroProduct s l.normal r.normal
      · -- Both factors are still other than zero, so each that becomes zero has rounds left.
        obtain ⟨rfl, hzero⟩ := hn
        have hne : ¬ (l = zero ∨ r = zero) := fun h => hz ⟨rfl, h⟩
        obtain ⟨hl, hr⟩ := not_or.1 hne
        have hlpos : l.normal = zero → 0 < l.rounds := fun h => rounds_pos h hl
        have hrpos : r.normal = zero → 0 < r.rounds := fun h => rounds_pos h hr
        simp only [rounds, normal_sweep, ihl, ihr]
        split_ifs with hboth hleft hright
        · have := hlpos hboth.1
          have := hrpos hboth.2
          omega
        · have := hlpos hleft
          omega
        · have := hrpos hright
          omega
        · omega
      · have hn' : ¬ ZeroProduct s l.sweep.normal r.sweep.normal := by
          rwa [normal_sweep, normal_sweep]
        rw [rounds_of_not_zeroProduct hn, rounds_of_not_zeroProduct hn', ihl, ihr]
        omega
  | _ => rfl

theorem normal_iterate (t : Tree) (k : Nat) : (sweep^[k] t).normal = t.normal := by
  induction k generalizing t with
  | zero => rfl
  | succ k ih => rw [Function.iterate_succ_apply, ih, normal_sweep]

theorem rounds_iterate (t : Tree) (k : Nat) : (sweep^[k] t).rounds = t.rounds - k := by
  induction k generalizing t with
  | zero => rfl
  | succ k ih =>
    rw [Function.iterate_succ_apply, ih, rounds_sweep]
    omega

/-- After all rounds the tree has its normal form. -/
theorem iterate_rounds (t : Tree) : sweep^[t.rounds] t = t.normal := by
  have hzero : (sweep^[t.rounds] t).rounds = 0 := by rw [rounds_iterate, Nat.sub_self]
  rw [← normal_iterate t t.rounds, normal_of_reduced (rounds_eq_zero_iff.1 hzero)]

section

variable {t : Tree}

theorem regular_iterate (h : t.Regular) (k : Nat) : (sweep^[k] t).Regular := by
  induction k generalizing t with
  | zero => exact h
  | succ k ih => exact ih (regular_sweep h)

theorem size_sweep_lt (h : t.Regular) (hr : 0 < t.rounds) : t.sweep.size < t.size := by
  have hp : t.pass = .ok t.sweep := by rw [← simplify_eq_pass, simplify_of_regular h]
  obtain hs | hs := eq_or_size_lt_of_pass hp
  · have hzero : t.rounds = 0 := sweep_eq_self_iff_rounds.1 hs
    omega
  · exact hs

def passEvents (passes : Nat) (t : Tree) : List Event :=
  (List.range t.rounds).map (fun k => .pass (passes + k + 1) (sweep^[k] t) (sweep^[k + 1] t)) ++
    [.fixpoint (passes + t.rounds + 1) t.normal]

theorem passEvents_of_pos (passes : Nat) (hr : 0 < t.rounds) :
    passEvents passes t = .pass (passes + 1) t t.sweep :: passEvents (passes + 1) t.sweep := by
  obtain ⟨k, hk⟩ : ∃ k, t.rounds = k + 1 := ⟨t.rounds - 1, by omega⟩
  have hsweep : t.sweep.rounds = k := by rw [rounds_sweep, hk, Nat.add_sub_cancel]
  have hnumber : ∀ i, passes + (i + 1) + 1 = passes + 1 + i + 1 := by omega
  simp only [passEvents, hk, hsweep, List.range_succ_eq_map, List.map_cons, List.map_map,
    Function.comp_def, Nat.succ_eq_add_one, hnumber, normal_sweep, List.cons_append]
  rfl

/-- Passes made from a regular tree on: their events, their result and their number. -/
theorem fixFrom_eq (h : t.Regular) (passes : Nat) :
    fixFrom passes t = (⟨passEvents passes t, .ok t.normal⟩, passes + t.rounds + 1) := by
  induction hk : t.rounds generalizing t passes with
  | zero =>
    have hn : t.normal = t := normal_of_reduced (rounds_eq_zero_iff.1 hk)
    have hs : t.sweep.same? t = .ok true := by
      rw [same?_sweep h, decide_eq_true (sweep_eq_self_iff_rounds.2 hk)]
    rw [fixFrom_of_same (simplify_of_regular h) hs, passEvents, hk, hn]
    rfl
  | succ k ih =>
    have hne : ¬ t.sweep = t := mt sweep_eq_self_iff_rounds.1 (by omega)
    have hs : t.sweep.same? t = .ok false := by rw [same?_sweep h, decide_eq_false hne]
    have hsweep : t.sweep.rounds = k := by rw [rounds_sweep, hk, Nat.add_sub_cancel]
    have hnumber : passes + 1 + k + 1 = passes + (k + 1) + 1 := by omega
    rw [fixFrom_of_differs (simplify_of_regular h) hs, ih (regular_sweep h) (passes + 1) hsweep,
      passEvents_of_pos passes (by omega), normal_sweep, hnumber]
    rfl

end

/-- A regular tree takes one pass more than it has rounds, and all but the last make it smaller. -/
theorem fix_passes {t : Tree} (h : t.Regular) :
    t.fix.2 = t.rounds + 1 ∧ t.fix.1.result = .ok (sweep^[t.rounds] t) ∧
      (∀ k, (sweep^[k] t).simplify = .ok (sweep^[k + 1] t)) ∧
      (∀ k < t.rounds, (sweep^[k + 1] t).size < (sweep^[k] t).size) ∧
      t.fix.1.events =
        (List.range t.rounds).map (fun k => .pass (k + 1) (sweep^[k] t) (sweep^[k + 1] t)) ++
          [.fixpoint (t.rounds + 1) (sweep^[t.rounds] t)] ∧
      t.fix.1.events.map (fun e => (e.channel, e.level, e.message)) =
        (List.range t.rounds).map (fun k => (.simplifier, .debug, do
          return "pass " ++ (k + 1).repr ++ ": " ++ (← (sweep^[k] t).print) ++ " -> " ++
            (← (sweep^[k + 1] t).print))) ++
          [(.simplifier, .debug, do
            return "fixpoint reached after " ++ (t.rounds + 1).repr ++ " pass(es): " ++
              (← (sweep^[t.rounds] t).print))] := by
  have hfix : t.fix = (⟨passEvents 0 t, .ok t.normal⟩, 0 + t.rounds + 1) := fixFrom_eq h 0
  have hevents : passEvents 0 t =
      (List.range t.rounds).map (fun k => .pass (k + 1) (sweep^[k] t) (sweep^[k + 1] t)) ++
        [.fixpoint (t.rounds + 1) (sweep^[t.rounds] t)] := by
    simp only [passEvents, Nat.zero_add, iterate_rounds]
  rw [hfix, iterate_rounds, Nat.zero_add]
  refine ⟨rfl, rfl, fun k => ?_, fun k hk => ?_, ?_, ?_⟩
  · rw [simplify_of_regular (regular_iterate h k), Function.iterate_succ_apply']
  · have hpos : 0 < (sweep^[k] t).rounds := by
      rw [rounds_iterate]
      omega
    rw [Function.iterate_succ_apply']
    exact size_sweep_lt (regular_iterate h k) hpos
  · rw [hevents, iterate_rounds]
  · change (passEvents 0 t).map _ = _
    rw [hevents, iterate_rounds, List.map_append, List.map_map]
    rfl

/-- The right factor becomes zero one pass before the left one, which is dropped unfinished. -/
theorem fix_passes_unfinished :
    Regular (.mul (.mul (.mul (.number 1) (.number 0)) (.bool true)) (.mul (.number 0) (.number 7))) ∧
      (fix (.mul (.mul (.mul (.number 1) (.number 0)) (.bool true))
        (.mul (.number 0) (.number 7)))).1.events =
        [.pass 1 (.mul (.mul (.mul (.number 1) (.number 0)) (.bool true))
            (.mul (.number 0) (.number 7))) (.mul (.mul (.number 0) (.bool true)) (.number 0)),
          .pass 2 (.mul (.mul (.number 0) (.bool true)) (.number 0)) (.number 0),
          .fixpoint 3 (.number 0)] := by
  have h : Regular (.mul (.mul (.mul (.number 1) (.number 0)) (.bool true))
      (.mul (.number 0) (.number 7))) :=
    ⟨⟨⟨trivial, trivial⟩, trivial⟩, trivial, trivial⟩
  obtain ⟨_, _, _, _, hevents, _⟩ := fix_passes h
  exact ⟨h, hevents⟩

end ZeroOne.Tree
