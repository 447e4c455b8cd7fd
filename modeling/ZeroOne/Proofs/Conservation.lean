import ZeroOne.Proofs.Blame
import ZeroOne.Proofs.Surplus

/-! Nothing is lost and nothing is added on the way from tokens to trees, whatever the order of the
tokens: the trees at the end have the literals as leaves and the operators as composites. -/
namespace ZeroOne

def Tree.operators : Tree → List Operator
  | .binary (.op o) l r => l.operators ++ o :: r.operators
  | .binary .unspecified l r => l.operators ++ r.operators
  | _ => []

def Terminal.operator? : Terminal → Option Operator
  | .op o => some o
  | _ => none

namespace Grammar

def literals (w : List Terminal) : List Tree := w.filterMap Terminal.leaf?

def operators (w : List Terminal) : List Operator := w.filterMap Terminal.operator?

/-- The leaves of the trees are the literals of a word in order, and their composites have its
operators. -/
structure MadeOf (w : List Terminal) (trees : List Tree) : Prop where
  leaves : trees.flatMap Tree.leaves = literals w
  operators : ∀ o, (trees.flatMap Tree.operators).count o = (operators w).count o

/-- Parentheses only, each of which has a partner. -/
inductive Balanced : List Terminal → Prop
  | nil : Balanced []
  | group {v w : List Terminal} : Balanced v → Balanced w →
    Balanced (.lparen :: v ++ .rparen :: w)

/-- Balanced but for the partners of some parentheses that were opened before. -/
inductive BalancedBehind : Nat → List Terminal → Prop
  | zero {w : List Terminal} : Balanced w → BalancedBehind 0 w
  | succ {n : Nat} {v w : List Terminal} : Balanced v → BalancedBehind n w →
    BalancedBehind (n + 1) (v ++ .rparen :: w)

theorem surplus_eq (w : List Terminal) :
    surplus w = ((literals w).length : Int) - (operators w).length := by
  unfold literals operators
  induction w with
  | nil => rfl
  | cons t w ih =>
    cases t <;>
      simp only [surplus, Terminal.surplus, Terminal.leaf?, Terminal.operator?, List.filterMap_cons,
        List.length_cons, ih] <;> omega

theorem BalancedBehind.lparen {n : Nat} {w : List Terminal} (h : BalancedBehind (n + 1) w) :
    BalancedBehind n (.lparen :: w) := by
  cases h with
  | @succ _ v w hv hw =>
    cases hw with
    | zero hw => exact .zero (.group hv hw)
    | @succ n v' w hv' hw =>
      have hgroup : Balanced (.lparen :: v ++ .rparen :: v') := .group hv hv'
      have hsplit : .lparen :: (v ++ .rparen :: (v' ++ .rparen :: w)) =
          (.lparen :: v ++ .rparen :: v') ++ .rparen :: w := by simp
      rw [hsplit]
      exact .succ hgroup hw

/-- A word without literals and operators has parentheses only. -/
theorem eq_paren_of_empty {w : List Terminal} (hl : literals w = []) (ho : operators w = []) :
    ∀ t ∈ w, t = .lparen ∨ t = .rparen := by
  intro t ht
  have hleaf : t.leaf? = none := List.filterMap_eq_nil_iff.1 hl t ht
  have hop : t.operator? = none := List.filterMap_eq_nil_iff.1 ho t ht
  cases t with
  | lit l => cases hleaf
  | op o => cases hop
  | lparen => exact .inl rfl
  | rparen => exact .inr rfl

end Grammar

namespace Stacks

open Grammar (MadeOf Balanced BalancedBehind literals operators)

variable {order : OperandOrder} {s s' : Stacks} {ts : List (Terminal × Int)} {trees : List Tree}

def count (o : Operator) (s : Stacks) : Nat :=
  (s.pending.filterMap Pending.operator?).count o + (s.operands.flatMap Tree.operators).count o

theorem count_operators_combine (order : OperandOrder) (o o' : Operator) (l r : Tree) :
    (order.combine o l r).operators.count o' =
      [o].count o' + (l.operators.count o' + r.operators.count o') := by
  cases order <;> cases o <;>
    simp only [OperandOrder.combine, Tree.operators, List.count_append, List.count_cons,
      List.count_nil] <;> omega

theorem count_of_reduceWhile {due : Operator → Bool} {pending : List Pending} {operands : List Tree}
    (h : (reduceWhile order due pending operands).result = .ok s) (o : Operator) :
    s.count o = (⟨pending, operands⟩ : Stacks).count o := by
  refine reduceWhile_keeps (fun o' p pending l r below => ?_) h
  simp only [count, List.flatMap_cons, List.filterMap_cons, Pending.operator?, List.count_append,
    count_operators_combine, List.count_cons, List.count_nil]
  omega

theorem count_of_place {t : Terminal} {p : Int} (h : (s.place order t p).result = .ok s')
    (o : Operator) : s'.count o = s.count o + (operators [t]).count o := by
  cases t with
  | lit l =>
    cases h
    cases l <;> rfl
  | lparen =>
    cases h
    rfl
  | op o' =>
    obtain ⟨r, hr, rfl⟩ := place_op_eq_ok h
    have hs : r.count o = s.count o := count_of_reduceWhile hr o
    rw [← hs]
    simp only [count, operators, List.filterMap_cons, List.filterMap_nil, Pending.operator?,
      Terminal.operator?, List.count_cons, List.count_nil]
    omega
  | rparen =>
    obtain ⟨q, hr⟩ := place_rparen_eq_ok h
    exact count_of_reduceWhile hr o

theorem count_of_placeAll (h : (s.placeAll order ts).result = .ok s') (o : Operator) :
    s'.count o = s.count o + (operators (ts.map (·.1))).count o := by
  induction ts generalizing s with
  | nil =>
    cases h
    rfl
  | cons t ts ih =>
    rw [placeAll_cons, Traced.result_bind_eq_ok_iff] at h
    obtain ⟨r, hr, h⟩ := h
    have hsplit : operators ((t :: ts).map (·.1)) =
        operators [t.1] ++ operators (ts.map (·.1)) :=
      List.filterMap_append (l := [t.1])
    rw [ih h, count_of_place hr, hsplit, List.count_append, Nat.add_assoc]

/-- All terminals can be placed, and what is left after the last reductions are some trees, in the order
of the text. -/
def EndsWith (order : OperandOrder) (ts : List (Terminal × Int)) (trees : List Tree) : Prop :=
  ∃ s, (start.placeAll order ts).result = .ok s ∧
    (reduceWhile order (fun _ => true) s.pending s.operands).result = .ok ⟨[], trees.reverse⟩

theorem EndsWith.madeOf (h : EndsWith .written ts trees) : MadeOf (ts.map (·.1)) trees := by
  obtain ⟨s, hp, hr⟩ := h
  constructor
  · have hs : Stacks.leaves ⟨[], trees.reverse⟩ = s.leaves := leaves_of_reduceWhile hr
    rw [leaves_of_placeAll hp] at hs
    change _ = literals (ts.map (·.1)) at hs
    rw [← hs]
    simp [leaves]
  · intro o
    have hs : Stacks.count o ⟨[], trees.reverse⟩ = s.count o := count_of_reduceWhile hr o
    rw [count_of_placeAll hp] at hs
    have hreverse : (trees.reverse.flatMap Tree.operators).count o =
        (trees.flatMap Tree.operators).count o := by
      exact ((List.reverse_perm trees).flatMap_right Tree.operators).count_eq o
    simpa [count, start, hreverse] using hs

/-- As many trees are left as there are more literals than operators. -/
theorem EndsWith.length_add (h : EndsWith order ts trees) :
    trees.length + (operators (ts.map (·.1))).length = (literals (ts.map (·.1))).length := by
  obtain ⟨s, hp, hr⟩ := h
  have hs : Stacks.surplus ⟨[], trees.reverse⟩ = s.surplus := surplus_of_reduceWhile hr
  rw [surplus_of_placeAll hp, Grammar.surplus_eq] at hs
  simp only [surplus, start, List.filterMap_nil, List.length_reverse, List.length_nil] at hs
  omega

theorem reduceWhile_of_groups {due : Operator → Bool} {pending : List Pending}
    (h : ∀ q ∈ pending, q.operator? = none) (operands : List Tree) :
    reduceWhile order due pending operands = pure ⟨pending, operands⟩ := by
  cases pending with
  | nil => rfl
  | cons q pending =>
    cases q with
    | group p => rfl
    | operator o p => cases h (.operator o p) List.mem_cons_self

theorem balancedBehind_of_placeAll (hparen : ∀ t ∈ ts, t.1 = .lparen ∨ t.1 = .rparen)
    (hgroup : ∀ q ∈ s.pending, q.operator? = none)
    (h : (s.placeAll order ts).result = .ok s')
    (hend : (reduceWhile order (fun _ => true) s'.pending s'.operands).result = .ok ⟨[], trees⟩) :
    BalancedBehind s.pending.length (ts.map (·.1)) := by
  induction ts generalizing s with
  | nil =>
    cases h
    rw [reduceWhile_of_groups hgroup] at hend
    have hs : s' = ⟨[], trees⟩ := Except.ok.inj hend
    rw [hs]
    exact .zero .nil
  | cons t ts ih =>
    obtain ⟨t, p⟩ := t
    have hrest : ∀ u ∈ ts, u.1 = .lparen ∨ u.1 = .rparen :=
      fun u hu => hparen u (List.mem_cons_of_mem _ hu)
    rw [placeAll_cons, Traced.result_bind_eq_ok_iff] at h
    obtain ⟨r, hr, h⟩ := h
    rcases hparen (t, p) List.mem_cons_self with ht | ht
    · obtain rfl : t = .lparen := ht
      cases hr
      have hopen : ∀ q ∈ .group p :: s.pending, q.operator? = none := by
        intro q hq
        rcases List.mem_cons.1 hq with rfl | hq
        · rfl
        · exact hgroup q hq
      exact (ih hrest hopen h).lparen
    · obtain rfl : t = .rparen := ht
      obtain ⟨q, hq⟩ := place_rparen_eq_ok hr
      rw [reduceWhile_of_groups hgroup] at hq
      have hs : s = ⟨.group q :: r.pending, r.operands⟩ := Except.ok.inj hq
      subst hs
      exact .succ .nil (ih hrest (fun q hq => hgroup q (List.mem_cons_of_mem _ hq)) h)

/-- Balanced parentheses leave all stacks as they were. -/
theorem placeAll_of_balanced {w : List Terminal} (h : Balanced w) :
    ∀ (ts : List (Terminal × Int)) (s : Stacks), ts.map (·.1) = w → s.placeAll order ts = pure s := by
  induction h with
  | nil =>
    intro ts s hts
    obtain rfl := List.map_eq_nil_iff.1 hts
    rfl
  | group _ _ ihv ihw =>
    intro ts s hts
    obtain ⟨inner, behind, rfl, hinner, hbehind⟩ := List.map_eq_append_iff.1 hts
    obtain ⟨⟨t, p⟩, inner, rfl, ht, hv⟩ := List.map_eq_cons_iff.1 hinner
    obtain ⟨⟨u, q⟩, behind, rfl, hu, hw⟩ := List.map_eq_cons_iff.1 hbehind
    obtain rfl : t = .lparen := ht
    obtain rfl : u = .rparen := hu
    replace hv := ihv inner ⟨.group p :: s.pending, s.operands⟩ hv
    replace hw := ihw behind s hw
    have hclose : (⟨.group p :: s.pending, s.operands⟩ : Stacks).placeAll order
        ((.rparen, q) :: behind) = s.placeAll order behind := rfl
    change (⟨.group p :: s.pending, s.operands⟩ : Stacks).placeAll order
      (inner ++ (.rparen, q) :: behind) = _
    rw [placeAll_append, hv]
    exact hclose.trans hw

theorem endsWith_nil_iff : EndsWith .written ts [] ↔ Balanced (ts.map (·.1)) := by
  constructor
  · intro h
    have hmade := h.madeOf
    have hl : literals (ts.map (·.1)) = [] := hmade.leaves.symm
    have hlength := h.length_add
    have ho : operators (ts.map (·.1)) = [] := by
      apply List.eq_nil_of_length_eq_zero
      rw [hl, List.length_nil] at hlength
      omega
    have hparen := Grammar.eq_paren_of_empty hl ho
    obtain ⟨s, hp, hr⟩ := h
    have hbehind := balancedBehind_of_placeAll (s := start)
      (fun t ht => hparen t.1 (List.mem_map_of_mem ht)) nofun hp hr
    cases hbehind with
    | zero hw => exact hw
  · intro h
    exact ⟨start, congrArg Traced.result (placeAll_of_balanced h ts start rfl), rfl⟩

def only (p : Int) : List Tree → Except ParseError Tree
  | [] => .error (.empty p)
  | [t] => .ok t
  | trees => .error (.several trees p)

theorem token?_of_only {e : ParseError} {p : Int}
    (h : only p trees = .error e) : e.token? = none := by
  rcases trees with _ | ⟨t, _ | ⟨u, trees⟩⟩
  · rw [← Except.error.inj h]
    rfl
  · cases h
  · rw [← Except.error.inj h]
    rfl

theorem finish_of_reduceWhile {p : Int} {operands : List Tree}
    (h : (reduceWhile order (fun _ => true) s.pending s.operands).result = .ok ⟨[], operands⟩) :
    (s.finish order p).result = only p operands.reverse := by
  rw [finish, Traced.result_bind, h]
  rcases operands with _ | ⟨t, _ | ⟨u, operands⟩⟩
  · rfl
  · rfl
  · change Except.error (ParseError.several (t :: u :: operands).reverse p) = _
    have hlength : (t :: u :: operands).reverse.length = operands.length + 2 := List.length_reverse
    rcases hreverse : (t :: u :: operands).reverse with _ | ⟨v, _ | ⟨w, trees⟩⟩
    · rw [hreverse] at hlength
      cases hlength
    · rw [hreverse] at hlength
      cases hlength
    · rfl

section

variable {pos : Int}

theorem EndsWith.result_parseFrom (h : EndsWith order ts trees) (pos : Int) :
    (parseFrom order (⟨toTokens ts, pos⟩ : Queue)).1.result =
      (only pos trees).mapError .structural := by
  obtain ⟨s, hp, hr⟩ := h
  have hfinish : (s.finish order pos).result = only pos trees := by
    rw [finish_of_reduceWhile hr, List.reverse_reverse]
  rw [result_parseFrom_toTokens, Traced.result_bind, hp]
  exact congrArg _ hfinish

/-- A parse comes to some trees, or to an error that names a token. -/
theorem exists_endsWith_or_names (order : OperandOrder) (ts : List (Terminal × Int)) (pos : Int) :
    (∃ trees, EndsWith order ts trees) ∨
      ∃ e t, e.Names t ∧
        (parseFrom order (⟨toTokens ts, pos⟩ : Queue)).1.result = .error (.structural e) := by
  rw [result_parseFrom_toTokens, Traced.result_bind]
  rcases hp : (start.placeAll order ts).result with e | s
  · right
    obtain ⟨t, _, ht⟩ := names_of_placeAll_start hp
    exact ⟨e, t, ht, rfl⟩
  · change _ ∨ ∃ e t, _ ∧ (s.finish order pos).result.mapError _ = _
    rcases finish_cases order s pos with ⟨o, q, _, hf⟩ | ⟨trees, hr⟩ | ⟨q, _, _, _, hf⟩
    · rw [hf]
      exact .inr ⟨.missingOperand o q, (.op o, q), rfl, rfl⟩
    · rw [← List.reverse_reverse trees] at hr
      exact .inl ⟨trees.reverse, s, hp, hr⟩
    · rw [hf]
      exact .inr ⟨.unclosed q, (.lparen, q), rfl, rfl⟩

/-- What a parse comes to stands for some trees, unless it is an error that names a token. -/
theorem exists_endsWith {x : Except SyntaxError Tree}
    (h : (parseFrom order (⟨toTokens ts, pos⟩ : Queue)).1.result = x)
    (hx : ∀ e, x = .error (.structural e) → e.token? = none) :
    ∃ trees, EndsWith order ts trees ∧ x = (only pos trees).mapError .structural := by
  rcases exists_endsWith_or_names order ts pos with ⟨trees, hends⟩ | ⟨e, t, hn, hresult⟩
  · exact ⟨trees, hends, h.symm.trans (hends.result_parseFrom pos)⟩
  · have hnone : e.token? = none := hx e (h.symm.trans hresult)
    rw [hn] at hnone
    cases hnone

end

end Stacks

open Grammar in
/-- A parse loses and adds nothing, whether it ends with one tree, with several, or with none. -/
theorem parse_conserves (ts : List (Terminal × Int)) (pos : Int) :
    (∀ t, (parseFrom .written (⟨toTokens ts, pos⟩ : Queue)).1.result = .ok t →
        MadeOf (ts.map (·.1)) [t]) ∧
      (∀ trees p,
        (parseFrom .written (⟨toTokens ts, pos⟩ : Queue)).1.result =
            .error (.structural (.several trees p)) →
          2 ≤ trees.length ∧
            trees.length + (operators (ts.map (·.1))).length = (literals (ts.map (·.1))).length ∧
            MadeOf (ts.map (·.1)) trees) ∧
      ((∃ p, (parseFrom .written (⟨toTokens ts, pos⟩ : Queue)).1.result =
          .error (.structural (.empty p))) ↔ Balanced (ts.map (·.1))) := by
  refine ⟨fun t h => ?_, fun trees p h => ?_, fun ⟨p, h⟩ => ?_, fun h => ⟨pos, ?_⟩⟩
  · obtain ⟨us, hends, hus⟩ := Stacks.exists_endsWith h nofun
    match us with
    | [] => cases hus
    | [u] =>
      have hu : t = u := Except.ok.inj hus
      rw [hu]
      exact hends.madeOf
    | _ :: _ :: _ => cases hus
  · obtain ⟨us, hends, hus⟩ := Stacks.exists_endsWith h (by rintro e ⟨⟩; rfl)
    match us with
    | [] => cases hus
    | [_] => cases hus
    | u :: v :: us =>
      cases hus
      refine ⟨?_, hends.length_add, hends.madeOf⟩
      simp only [List.length_cons]
      omega
  · obtain ⟨us, hends, hus⟩ := Stacks.exists_endsWith h (by rintro e ⟨⟩; rfl)
    match us with
    | [] => exact Stacks.endsWith_nil_iff.1 hends
    | [_] => cases hus
    | _ :: _ :: _ => cases hus
  · have hends : Stacks.EndsWith .written ts [] := Stacks.endsWith_nil_iff.2 h
    rw [hends.result_parseFrom pos]
    rfl

open Grammar in
/-- Operands side by side, a group that is crossed by a reduction, and parentheses around nothing. -/
theorem parse_conserves_crossed :
    (parseFrom .written (⟨toTokens [(.lit .one, 0), (.lparen, 1), (.lit .zero, 2), (.op .mul, 3),
        (.rparen, 4), (.lit .yes, 5)], 9⟩ : Queue)).1.result =
          .error (.structural (.several [.mul (.number 1) (.number 0), .bool true] 9)) ∧
      MadeOf [.lit .one, .lparen, .lit .zero, .op .mul, .rparen, .lit .yes]
        [.mul (.number 1) (.number 0), .bool true] ∧
      Balanced [.lparen, .lparen, .rparen, .rparen, .lparen, .rparen] := by
  have hparse := result_parseFrom_toTokens .written [(.lit .one, 0), (.lparen, 1), (.lit .zero, 2),
    (.op .mul, 3), (.rparen, 4), (.lit .yes, 5)] 9
  have hempty := result_parseFrom_toTokens .written [(.lparen, 0), (.lparen, 1), (.rparen, 2),
    (.rparen, 3), (.lparen, 4), (.rparen, 5)] 6
  exact ⟨hparse, ((parse_conserves _ 9).2.1 _ 9 hparse).2.2, (parse_conserves _ 6).2.2.1 ⟨6, hempty⟩⟩

end ZeroOne
