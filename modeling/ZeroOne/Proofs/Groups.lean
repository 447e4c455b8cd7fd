import ZeroOne.Proofs.EmptyGroups
import ZeroOne.Proofs.Relabeling
import ZeroOne.Proofs.Surplus

/-! Groups in any surroundings, also in those that are not grammatical. What stands in a group is placed
as if it stood alone, and an empty group is as good as none. -/
namespace ZeroOne

open Grammar (Derives dropGroups)

namespace Stacks

variable {order : OperandOrder} {s s' : Stacks}

def inGroup (s : Stacks) (p : Int) (below : Stacks) : Stacks :=
  ⟨s.pending ++ .group p :: below.pending, s.operands ++ below.operands⟩

theorem reduce_append {o : Operator} {p : Int} {operands operands' : List Tree}
    (h : (reduce order o p operands).result = .ok operands') (below : List Tree) :
    (reduce order o p (operands ++ below)).result = .ok (operands' ++ below) := by
  obtain ⟨l, r, rest, rfl, rfl⟩ := reduce_eq_ok h
  rfl

/-- Reductions stop at the open group. They leave what lies below it as it was, since they found their
operands above it. -/
theorem reduceWhile_inGroup {due : Operator → Bool} {pending : List Pending} {operands : List Tree}
    (h : (reduceWhile order due pending operands).result = .ok s) (p : Int) (below : Stacks) :
    (reduceWhile order due (pending ++ .group p :: below.pending)
      (operands ++ below.operands)).result = .ok (s.inGroup p below) := by
  induction pending generalizing operands with
  | nil =>
    cases h
    rfl
  | cons q pending ih =>
    cases q with
    | group _ =>
      cases h
      rfl
    | operator o q =>
      rw [List.cons_append, reduceWhile]
      by_cases ho : due o
      · rw [reduceWhile, if_pos ho, Traced.result_bind_eq_ok_iff] at h
        obtain ⟨operands', hr, h⟩ := h
        rw [if_pos ho, Traced.result_bind_eq_ok_iff]
        exact ⟨operands' ++ below.operands, reduce_append hr below.operands, ih h⟩
      · rw [reduceWhile, if_neg ho] at h
        cases h
        rw [if_neg ho]
        rfl

/-- A terminal that is placed on some stacks is placed in a group in the same way. -/
theorem place_inGroup {t : Terminal} {q : Int} (h : (s.place order t q).result = .ok s') (p : Int)
    (below : Stacks) : ((s.inGroup p below).place order t q).result = .ok (s'.inGroup p below) := by
  cases t with
  | lit l =>
    cases h
    rfl
  | lparen =>
    cases h
    rfl
  | op o =>
    obtain ⟨r, hr, rfl⟩ := place_op_eq_ok h
    rw [place, Traced.result_bind_eq_ok_iff]
    exact ⟨r.inGroup p below, reduceWhile_inGroup hr p below, rfl⟩
  | rparen =>
    -- The parenthesis closes a group of its own, never the one below.
    obtain ⟨i, hr⟩ := place_rparen_eq_ok h
    rw [place, Traced.result_bind_eq_ok_iff]
    exact ⟨_, reduceWhile_inGroup hr p below, rfl⟩

theorem placeAll_inGroup {ts : List (Terminal × Int)} (h : (s.placeAll order ts).result = .ok s')
    (p : Int) (below : Stacks) :
    ((s.inGroup p below).placeAll order ts).result = .ok (s'.inGroup p below) := by
  induction ts generalizing s with
  | nil =>
    cases h
    rfl
  | cons t ts ih =>
    rw [placeAll_cons, Traced.result_bind_eq_ok_iff] at h ⊢
    obtain ⟨r, hr, h⟩ := h
    exact ⟨r.inGroup p below, place_inGroup hr p below, ih h⟩

/-- An empty group is opened and closed, and nothing is reduced. -/
theorem placeAll_emptyGroup (s : Stacks) (p q : Int) :
    s.placeAll order [(.lparen, p), (.rparen, q)] = pure s := rfl

/-- What gives a tree when it stands alone pushes that tree when it stands in a group, whatever the
group stands in. -/
theorem placeAll_group {ts : List (Terminal × Int)} {t : Tree} {r : Int}
    (hp : (start.placeAll order ts).result = .ok s') (hf : (s'.finish order r).result = .ok t)
    (s : Stacks) (p q : Int) :
    (s.placeAll order ((.lparen, p) :: ts ++ [(.rparen, q)])).result =
      .ok { s with operands := t :: s.operands } := by
  have hinner : ((start.inGroup p s).placeAll order ts).result = .ok (s'.inGroup p s) :=
    placeAll_inGroup hp p s
  have hreduce : (reduceWhile order (fun _ => true) (s'.pending ++ .group p :: s.pending)
      (s'.operands ++ s.operands)).result = .ok ((⟨[], [t]⟩ : Stacks).inGroup p s) :=
    reduceWhile_inGroup (finish_eq_ok hf) p s
  have hclose : ((s'.inGroup p s).place order .rparen q).result =
      .ok { s with operands := t :: s.operands } := by
    rw [place, Traced.result_bind_eq_ok_iff]
    exact ⟨_, hreduce, rfl⟩
  have hopen : s.placeAll order ((.lparen, p) :: ts ++ [(.rparen, q)]) =
      (start.inGroup p s).placeAll order (ts ++ [(.rparen, q)]) := rfl
  rw [hopen, placeAll_append, Traced.result_bind, hinner]
  change (((s'.inGroup p s).place order .rparen q) >>= pure).result = _
  rw [Traced.result_bind, hclose]
  rfl

/-- A word of the grammar is read to its tree, also if empty groups stand in it. -/
theorem exists_placeAll_of_derives (order : OperandOrder) {ts : List (Terminal × Int)} {t : Tree}
    (h : Derives 0 (dropGroups (ts.map (·.1))) t) (r : Int) :
    ∃ s, (start.placeAll order ts).result = .ok s ∧
      (s.finish order r).result = .ok (order.arrange t) := by
  obtain ⟨us, hus, hsame⟩ := exists_placeAll_dropGroups order ts
  rw [← hus] at h
  have hread : Grammar.read? (us.map (·.1)) = some t := Grammar.read?_of_derives h
  obtain ⟨reading, hsteps, ht⟩ := Option.bind_eq_some_iff.1 hread
  obtain ⟨s, hp, hs⟩ := placeAll_of_steps us start_held hsteps
  exact ⟨s, (hsame start).symm.trans hp, finish_of_result r hs ht⟩

/-- An empty group between two tokens changes nothing of what is read, wherever it stands. -/
theorem read_emptyGroup (s : Stacks) (a b : List Token) (pos p q : Int) :
    (s.read order (⟨a ++ ⟨.terminal .lparen, p⟩ :: ⟨.terminal .rparen, q⟩ :: b, pos⟩ : Queue)).1 =
      (s.read order (⟨a ++ b, pos⟩ : Queue)).1 := by
  induction a generalizing s with
  | nil =>
    have hopen : TokenSource.next
        (⟨⟨.terminal .lparen, p⟩ :: ⟨.terminal .rparen, q⟩ :: b, pos⟩ : Queue) =
        (⟨[], .ok ⟨.terminal .lparen, p⟩⟩, ⟨⟨.terminal .rparen, q⟩ :: b, pos⟩) := rfl
    have hclose : TokenSource.next (⟨⟨.terminal .rparen, q⟩ :: b, pos⟩ : Queue) =
        (⟨[], .ok ⟨.terminal .rparen, q⟩⟩, ⟨b, pos⟩) := rfl
    have hplace : (⟨.group p :: s.pending, s.operands⟩ : Stacks).place order .rparen q =
        ⟨[], .ok s⟩ := rfl
    rw [List.nil_append, List.nil_append, read_eq_of_terminal s hopen]
    change ((⟨.group p :: s.pending, s.operands⟩ : Stacks).read order _).1 = _
    rw [read_eq_of_terminal _ hclose, hplace]
    rfl
  | cons t a ih =>
    obtain ⟨kind, i⟩ := t
    have hnext : ∀ us : List Token, TokenSource.next (⟨⟨kind, i⟩ :: us, pos⟩ : Queue) =
        (⟨[], .ok ⟨kind, i⟩⟩, ⟨us, pos⟩) := fun _ => rfl
    rw [List.cons_append, List.cons_append]
    cases kind with
    | eof =>
      rw [read_eq_of_eof s (hnext _), read_eq_of_eof s (hnext _)]
      rfl
    | terminal t =>
      rw [read_eq_of_terminal s (hnext _), read_eq_of_terminal s (hnext _)]
      rcases s.place order t i with ⟨fs, e | s'⟩
      · rfl
      · exact congrArg (Traced.after _) (ih s')

end Stacks

/-- Groups are transparent in every context: an empty one changes nothing, and one around a word of the
grammar pushes its tree. -/
theorem group_transparent (order : OperandOrder) :
    (∀ (s : Stacks) (p q : Int), s.placeAll order [(.lparen, p), (.rparen, q)] = pure s) ∧
      (∀ (s : Stacks) (ts : List (Terminal × Int)) (t : Tree) (p q : Int),
        Derives 0 (dropGroups (ts.map (·.1))) t →
          (s.placeAll order ((.lparen, p) :: ts ++ [(.rparen, q)])).result =
            .ok { s with operands := order.arrange t :: s.operands }) ∧
      (∀ (a b : List Token) (pos p q : Int) (g : Int → Int),
        (parseFrom order (⟨a.map (Token.map g) ++ ⟨.terminal .lparen, p⟩ :: ⟨.terminal .rparen, q⟩ ::
            b.map (Token.map g), g pos⟩ : Queue)).1.result =
          mapBoth id (SyntaxError.map id g id)
            (parseFrom order (⟨a ++ b, pos⟩ : Queue)).1.result) ∧
      -- The stacks that terminals are placed on are those of a parse that has read them.
      ∀ {σ : Type} [TokenSource σ] {source source' : σ} {ts : List (Terminal × Int)} {s : Stacks},
        Yields source ts source' → (Stacks.start.placeAll order ts).result = .ok s →
          ∃ es, parseFrom order source =
            ((s.read order source').1.after es, (s.read order source').2) := by
  refine ⟨Stacks.placeAll_emptyGroup, ?_, ?_, ?_⟩
  · intro s ts t p q h
    obtain ⟨s', hp, hf⟩ := Stacks.exists_placeAll_of_derives order h 0
    exact Stacks.placeAll_group hp hf s p q
  · intro a b pos p q g
    have hdrop : (parseFrom order (_ : Queue)).1 = _ :=
      Stacks.read_emptyGroup .start (a.map (Token.map g)) (b.map (Token.map g)) (g pos) p q
    have hmoved := (parseFrom_follows (carries_id order) (Queue.follows g)
      (rfl : _ = (⟨a ++ b, pos⟩ : Queue).map g)).1
    rw [Queue.map, List.map_append] at hmoved
    rw [hdrop]
    exact congrArg Traced.result hmoved
  · intro σ _ source source' ts s hy hs
    rcases hp : Stacks.start.placeAll order ts with ⟨es, x⟩
    rw [hp] at hs
    obtain rfl : x = .ok s := hs
    obtain ⟨fs, _, hread⟩ := Stacks.exists_read_eq_after hy hp
    exact ⟨fs, hread⟩

/-- A group behind an operand and an operator, with an empty group in it, and sums the other way round. -/
theorem group_transparent_unfinished :
    Derives 0 (dropGroups [.lit .zero, .op .add, .lparen, .rparen, .lit .one])
        (.add (.number 0) (.number 1)) ∧
      ((⟨[.operator .mul 1], [.bool true]⟩ : Stacks).placeAll .swapped
          [(.lparen, 2), (.lit .zero, 3), (.op .add, 4), (.lparen, 5), (.rparen, 6), (.lit .one, 7),
            (.rparen, 8)]).result =
        .ok ⟨[.operator .mul 1], [.add (.number 1) (.number 0), .bool true]⟩ := by
  have h : Derives 0 (dropGroups [.lit .zero, .op .add, .lparen, .rparen, .lit .one])
      (.add (.number 0) (.number 1)) :=
    Grammar.read?_eq_some_iff.1 (by decide)
  refine ⟨h, ?_⟩
  have hgroup := (group_transparent .swapped).2.1 ⟨[.operator .mul 1], [.bool true]⟩
    [(.lit .zero, 3), (.op .add, 4), (.lparen, 5), (.rparen, 6), (.lit .one, 7)] _ 2 8 h
  exact hgroup

end ZeroOne
