import ZeroOne.Proofs.Derivation
import ZeroOne.Proofs.Reader

/-! The stacks of the parser hold what a reading by the grammar has in hand. A terminal that can come
next is placed without error, and at the end the stacks give the tree of the reading. -/
namespace ZeroOne

def Tree.mirror : Tree → Tree
  | .binary (.op .add) l r => .add r.mirror l.mirror
  | .binary (.op .mul) l r => .mul r.mirror l.mirror
  | .binary s l r => .binary s l.mirror r.mirror
  | t => t

/-- The tree that stands for a tree when operands are held in a given order. -/
def OperandOrder.arrange : OperandOrder → Tree → Tree
  | .written, t => t
  | .swapped, t => t.mirror

theorem OperandOrder.arrange_ofLiteral (order : OperandOrder) (l : Literal) :
    order.arrange (.ofLiteral l) = .ofLiteral l := by
  cases order <;> cases l <;> rfl

theorem OperandOrder.arrange_binary (order : OperandOrder) (o : Operator) (l r : Tree) :
    order.arrange (.binary (.op o) l r) = order.combine o (order.arrange l) (order.arrange r) := by
  cases order <;> cases o <;> rfl

def Pending.operator? : Pending → Option Operator
  | .operator o _ => some o
  | .group _ => none

namespace Grammar

/-- The operators of a frame with their left operands, the tightest first. -/
def Frame.waiting (f : Frame) : List (Operator × Tree) :=
  f.factor.toList.map (.mul, ·) ++ f.summand.toList.map (.add, ·) ++ f.disjunct.toList.map (.or, ·)

theorem Frame.waiting_await {f : Frame} {o : Operator} (h : f.keep o.precedence = f) (l : Tree) :
    (f.await l o).waiting = (o, l) :: f.waiting := by
  cases o <;> rw [← h] <;> rfl

def closing (due : Operator → Bool) : List (Operator × Tree) → Tree → Tree
  | (o, l) :: ws, t => if due o then closing due ws (.binary (.op o) l t) else t
  | [], t => t

theorem Frame.closing_waiting (f : Frame) (o : Operator) (t : Tree) :
    closing (fun top => o.precedence ≤ top.precedence) f.waiting t = f.close o.precedence t := by
  rcases f with ⟨_ | _, _ | _, _ | _⟩ <;> cases o <;> rfl

theorem Frame.dropWhile_waiting (f : Frame) (o : Operator) :
    f.waiting.dropWhile (fun w => o.precedence ≤ w.1.precedence) = (f.keep o.precedence).waiting := by
  rcases f with ⟨_ | _, _ | _, _ | _⟩ <;> cases o <;> rfl

theorem Frame.keep_keep (f : Frame) (p : Nat) : (f.keep p).keep p = f.keep p := by
  match p with
  | 0 | 1 | 2 | p + 3 => rfl

/-- The operators that wait in the frames around an open group, each frame behind its parenthesis. -/
def outerOperators : List Frame → List (Option Operator)
  | [] => []
  | f :: outer => none :: (f.waiting.map (some ·.1) ++ outerOperators outer)

def outerOperands (order : OperandOrder) : List Frame → List Tree
  | [] => []
  | f :: outer => f.waiting.map (order.arrange ·.2) ++ outerOperands order outer

/-- The stacks hold what a reading has in hand, wherever the tokens stand. -/
inductive Reading.HeldBy (order : OperandOrder) : Reading → Stacks → Prop
  | operandDue {here : Frame} {outer : List Frame} {pending : List Pending} :
    pending.map Pending.operator? = here.waiting.map (some ·.1) ++ outerOperators outer →
      HeldBy order (.operandDue here outer)
        ⟨pending, here.waiting.map (order.arrange ·.2) ++ outerOperands order outer⟩
  | operatorDue {here : Frame} {t : Tree} {outer : List Frame} {pending : List Pending} :
    pending.map Pending.operator? = here.waiting.map (some ·.1) ++ outerOperators outer →
      HeldBy order (.operatorDue here t outer)
        ⟨pending, order.arrange t ::
          (here.waiting.map (order.arrange ·.2) ++ outerOperands order outer)⟩

end Grammar

namespace Stacks

open Grammar (Frame Reading outerOperators outerOperands closing)

variable {order : OperandOrder}

theorem reduce_arrange (o : Operator) (p : Int) (l r : Tree) (below : List Tree) :
    (reduce order o p (order.arrange r :: order.arrange l :: below)).result =
      .ok (order.arrange (.binary (.op o) l r) :: below) := by
  rw [OperandOrder.arrange_binary]
  rfl

/-- The operators that are due are reduced, each with the operand that waits for it. -/
theorem reduceWhile_of_waiting (order : OperandOrder) (due : Operator → Bool) (ws : List (Operator × Tree))
    {tail : List (Option Operator)} (htail : ∀ o, tail.head? ≠ some (some o)) (below : List Tree) :
    ∀ (pending : List Pending) (t : Tree),
      pending.map Pending.operator? = ws.map (some ·.1) ++ tail →
      ∃ rest, (reduceWhile order due pending
            (order.arrange t :: (ws.map (order.arrange ·.2) ++ below))).result =
          .ok ⟨rest, order.arrange (closing due ws t) ::
            ((ws.dropWhile (due ·.1)).map (order.arrange ·.2) ++ below)⟩ ∧
        rest.map Pending.operator? = (ws.dropWhile (due ·.1)).map (some ·.1) ++ tail := by
  induction ws with
  | nil =>
    intro pending t hp
    refine ⟨pending, ?_, hp⟩
    match pending with
    | [] => rfl
    | .group _ :: _ => rfl
    | .operator o _ :: _ => exact absurd (congrArg List.head? hp.symm) (htail o)
  | cons w ws ih =>
    intro pending t hp
    obtain ⟨o, l⟩ := w
    obtain ⟨q, qs, rfl, hq, hqs⟩ := List.map_eq_cons_iff.1 hp
    cases q with
    | group p => cases hq
    | operator o' p =>
      obtain rfl : o' = o := Option.some.inj hq
      by_cases ho : due o'
      · obtain ⟨rest, hr, hrest⟩ := ih qs (.binary (.op o') l t) hqs
        refine ⟨rest, ?_, ?_⟩
        · rw [List.map_cons, List.cons_append, reduceWhile, if_pos ho, Traced.result_bind,
            reduce_arrange]
          simpa [Except.bind, closing, ho] using hr
        · simpa [ho] using hrest
      · refine ⟨.operator o' p :: qs, ?_, ?_⟩
        · simp [reduceWhile, ho, closing]
        · simpa [ho] using hp

section

variable {here : Frame} {outer : List Frame} {pending : List Pending}

theorem reduceWhile_of_held (order : OperandOrder) (t : Tree) (o : Operator)
    (hp : pending.map Pending.operator? = here.waiting.map (some ·.1) ++ outerOperators outer) :
    ∃ rest, (reduceWhile order (fun top => o.precedence ≤ top.precedence) pending
          (order.arrange t ::
            (here.waiting.map (order.arrange ·.2) ++ outerOperands order outer))).result =
        .ok ⟨rest, order.arrange (here.close o.precedence t) ::
          ((here.keep o.precedence).waiting.map (order.arrange ·.2) ++
            outerOperands order outer)⟩ ∧
      rest.map Pending.operator? =
        (here.keep o.precedence).waiting.map (some ·.1) ++ outerOperators outer := by
  have htail : ∀ o, (outerOperators outer).head? ≠ some (some o) := by
    intro o
    cases outer <;> simp [outerOperators]
  have h := reduceWhile_of_waiting order
    (fun top => decide (o.precedence ≤ top.precedence)) here.waiting htail
    (outerOperands order outer) pending t hp
  rwa [Frame.closing_waiting, Frame.dropWhile_waiting] at h

/-- At a closing parenthesis and at the end all of the innermost group is reduced. -/
theorem reduceGroup_of_held (order : OperandOrder) (t : Tree)
    (hp : pending.map Pending.operator? = here.waiting.map (some ·.1) ++ outerOperators outer) :
    ∃ rest, (reduceWhile order (fun _ => true) pending
          (order.arrange t ::
            (here.waiting.map (order.arrange ·.2) ++ outerOperands order outer))).result =
        .ok ⟨rest, order.arrange (here.disjunction t) :: outerOperands order outer⟩ ∧
      rest.map Pending.operator? = outerOperators outer := by
  have hdue : (fun top : Operator => decide (Operator.or.precedence ≤ top.precedence)) =
      fun _ => true := by
    funext top
    simp [Operator.precedence]
  have h := reduceWhile_of_held order t .or hp
  rw [hdue] at h
  exact h

end

/-- A terminal that can come next is placed, and the stacks go on holding the reading. -/
theorem place_of_step {r r' : Reading} {s : Stacks} {t : Terminal} (p : Int)
    (hs : r.HeldBy order s) (h : r.step? t = some r') :
    ∃ s', (s.place order t p).result = .ok s' ∧ r'.HeldBy order s' := by
  cases hs with
  | @operandDue here outer pending hp =>
    cases t with
    | lit l =>
      cases h
      refine ⟨_, rfl, ?_⟩
      have held : (Reading.operatorDue here (.ofLiteral l) outer).HeldBy order _ := .operatorDue hp
      rwa [OperandOrder.arrange_ofLiteral] at held
    | lparen =>
      cases h
      have held : (Reading.operandDue .empty (here :: outer)).HeldBy order
          ⟨.group p :: pending, _⟩ := .operandDue (congrArg (none :: ·) hp)
      exact ⟨_, rfl, held⟩
    | op o => cases h
    | rparen => cases h
  | @operatorDue here u outer pending hp =>
    cases t with
    | lit l => cases h
    | lparen => cases h
    | op o =>
      cases h
      obtain ⟨rest, hr, hrest⟩ := reduceWhile_of_held order u o hp
      have hw : (here.extend u o).waiting =
          (o, here.close o.precedence u) :: (here.keep o.precedence).waiting := by
        rw [Frame.extend_eq_await, Frame.waiting_await (here.keep_keep o.precedence)]
      have held : (Reading.operandDue (here.extend u o) outer).HeldBy order
          ⟨.operator o p :: rest, _⟩ :=
        .operandDue (by rw [hw]; exact congrArg (some o :: ·) hrest)
      rw [hw] at held
      refine ⟨_, ?_, held⟩
      rw [place, Traced.result_bind, hr]
      rfl
    | rparen =>
      cases outer with
      | nil => cases h
      | cons around outer =>
        cases h
        obtain ⟨rest, hr, hrest⟩ := reduceGroup_of_held order u hp
        obtain ⟨q, qs, rfl, hq, hqs⟩ := List.map_eq_cons_iff.1 hrest
        cases q with
        | operator o p => cases hq
        | group p' =>
          refine ⟨⟨qs, _⟩, ?_, .operatorDue hqs⟩
          rw [place, Traced.result_bind, hr]
          rfl

theorem placeAll_of_steps {r r' : Reading} {s : Stacks} (ts : List (Terminal × Int))
    (hs : r.HeldBy order s) (h : r.steps? (ts.map (·.1)) = some r') :
    ∃ s', (s.placeAll order ts).result = .ok s' ∧ r'.HeldBy order s' := by
  induction ts generalizing r s with
  | nil =>
    cases h
    exact ⟨s, rfl, hs⟩
  | cons t ts ih =>
    rw [List.map_cons, Reading.steps?_cons] at h
    obtain ⟨q, hq, h⟩ := Option.bind_eq_some_iff.1 h
    obtain ⟨s', hp, hs'⟩ := place_of_step t.2 hs hq
    obtain ⟨s'', hp', hs''⟩ := ih hs' h
    exact ⟨s'', by rw [placeAll_cons, Traced.result_bind, hp]; exact hp', hs''⟩

/-- Where an operator is due the end of the input gives the tree of the reading, unless a group is
open. -/
theorem finish_of_held {here : Frame} {u : Tree} {outer : List Frame} {s : Stacks} (p : Int)
    (hs : (Reading.operatorDue here u outer).HeldBy order s) :
    (outer = [] → (s.finish order p).result = .ok (order.arrange (here.disjunction u))) ∧
      (outer ≠ [] → ∃ q, (s.finish order p).result = .error (.unclosed q)) := by
  cases hs with
  | operatorDue hp =>
    obtain ⟨rest, hr, hrest⟩ := reduceGroup_of_held order u hp
    constructor
    · rintro rfl
      obtain rfl := List.map_eq_nil_iff.1 hrest
      rw [finish, Traced.result_bind, hr]
      rfl
    · intro ho
      obtain ⟨f, outer, rfl⟩ := List.exists_cons_of_ne_nil ho
      obtain ⟨q, qs, rfl, hq, _⟩ := List.map_eq_cons_iff.1 hrest
      cases q with
      | operator o p => cases hq
      | group q =>
        refine ⟨q, ?_⟩
        rw [finish, Traced.result_bind, hr]
        rfl

theorem finish_of_result {r : Reading} {s : Stacks} {t : Tree} (p : Int) (hs : r.HeldBy order s)
    (h : r.result? = some t) : (s.finish order p).result = .ok (order.arrange t) := by
  match r, h with
  | .operatorDue here u [], h =>
    cases h
    exact (finish_of_held p hs).1 rfl

theorem start_held : Reading.start.HeldBy order start := by
  change (Reading.operandDue .empty []).HeldBy order ⟨[], []⟩
  exact .operandDue rfl

end Stacks

theorem parseFrom_of_yields {σ : Type} [TokenSource σ] {order : OperandOrder} {source source' last : σ}
    {ts : List (Terminal × Int)} {es : List Event} {p : Int} {t : Tree}
    (hy : Yields source ts source')
    (hn : TokenSource.next source' = (⟨es, .ok ⟨.eof, p⟩⟩, last))
    (ht : Grammar.read? (ts.map (·.1)) = some t) :
    (parseFrom order source).1.result = .ok (order.arrange t) := by
  obtain ⟨r, hr, ht⟩ := Option.bind_eq_some_iff.1 ht
  obtain ⟨s, hp, hs⟩ := Stacks.placeAll_of_steps ts Stacks.start_held hr
  exact Stacks.read_eq_ok_iff.2
    ⟨ts, source', es, p, last, s, hy, hn, hp, Stacks.finish_of_result _ hs ht⟩

/-- No part of a grammatical word is in error by itself: the lexical error behind it is met. -/
theorem parseFrom_of_error {σ : Type} [TokenSource σ] {order : OperandOrder} {source source' last : σ}
    {ts : List (Terminal × Int)} {es : List Event} {e : LexError} {w : List Terminal}
    (hy : Yields source ts source') (hn : TokenSource.next source' = (⟨es, .error e⟩, last))
    (hw : (Grammar.read? (ts.map (·.1) ++ w)).isSome) :
    (parseFrom order source).1.result = .error (.lexical e) := by
  obtain ⟨t, ht⟩ := Option.isSome_iff_exists.1 hw
  obtain ⟨r, hr, _⟩ := Option.bind_eq_some_iff.1 ht
  rw [Grammar.Reading.steps?_append] at hr
  obtain ⟨q, hq, _⟩ := Option.bind_eq_some_iff.1 hr
  obtain ⟨s, hp, _⟩ : ∃ s, (Stacks.start.placeAll order ts).result = .ok s ∧ q.HeldBy order s :=
    Stacks.placeAll_of_steps ts Stacks.start_held hq
  rw [parseFrom, Stacks.read_of_yields hy, hp]
  exact Stacks.read_of_error s hn

end ZeroOne
