import ZeroOne.Proofs.Reader

/-! What the parser does not look at. Other trees on its stack and other offsets of tokens are carried
through to all that a parse gives, its events included. -/
namespace ZeroOne

section

variable {ε ε' α α' β β' : Type}

def mapBoth (f : α → α') (g : ε → ε') : Except ε α → Except ε' α'
  | .ok a => .ok (f a)
  | .error e => .error (g e)

def Traced.change (m : Event → Event) (f : α → α') (g : ε → ε') (x : Traced ε α) : Traced ε' α' :=
  ⟨x.events.map m, mapBoth f g x.result⟩

/-- A change of the first part is a change of the whole if what follows makes the same change. -/
theorem Traced.change_bind {x : Traced ε α} {k : α → Traced ε β} {k' : α' → Traced ε' β'}
    {m : Event → Event} {f : α → α'} {f' : β → β'} {g : ε → ε'}
    (hk : ∀ a, k' (f a) = (k a).change m f' g) :
    x.change m f g >>= k' = (x >>= k).change m f' g := by
  obtain ⟨es, r⟩ := x
  cases r with
  | error e => rfl
  | ok a =>
    change (k' (f a)).after (es.map m) = ((k a).after es).change m f' g
    rw [hk]
    simp [after, change]

end

def Token.map (g : Int → Int) (t : Token) : Token := ⟨t.kind, g t.pos⟩

def Pending.map (g : Int → Int) : Pending → Pending
  | .operator o p => .operator o (g p)
  | .group p => .group (g p)

def Stacks.map (f : Tree → Tree) (g : Int → Int) (s : Stacks) : Stacks :=
  ⟨s.pending.map (Pending.map g), s.operands.map f⟩

def ParseError.map (f : Tree → Tree) (g : Int → Int) : ParseError → ParseError
  | .missingOperand o p => .missingOperand o (g p)
  | .unmatched p => .unmatched (g p)
  | .unclosed p => .unclosed (g p)
  | .empty p => .empty (g p)
  | .several ts p => .several (ts.map f) (g p)

def SyntaxError.map (f : Tree → Tree) (g : Int → Int) (h : LexError → LexError) :
    SyntaxError → SyntaxError
  | .lexical e => .lexical (h e)
  | .structural e => .structural (e.map f g)

/-- Changes the events of a parse; there are no others that tell of its trees and tokens. -/
def Event.map (f : Tree → Tree) (g : Int → Int) : Event → Event
  | .token t => .token (t.map g)
  | .reduce o t => .reduce o (f t)
  | e => e

/-- The composites of one operand order go over to those of another, and literals stay. -/
structure Carries (order order' : OperandOrder) (f : Tree → Tree) : Prop where
  literal : ∀ l, f (.ofLiteral l) = .ofLiteral l
  combine : ∀ o l r, f (order.combine o l r) = order'.combine o (f l) (f r)

theorem carries_id (order : OperandOrder) : Carries order order id where
  literal _ := rfl
  combine _ _ _ := rfl

/-- One source hands out what another one does, each token and error changed alike, as long as they
are related. -/
structure Follows {σ σ' : Type} [TokenSource σ] [TokenSource σ'] (f : Tree → Tree) (g : Int → Int)
    (h : LexError → LexError) (R : σ → σ' → Prop) : Prop where
  next : ∀ {source source'}, R source source' →
    (TokenSource.next source').1 =
        (TokenSource.next source).1.change (Event.map f g) (Token.map g) h ∧
      R (TokenSource.next source).2 (TokenSource.next source').2
  position : ∀ {source source'}, R source source' →
    TokenSource.position source' = g (TokenSource.position source)

namespace Stacks

variable {order order' : OperandOrder} {f : Tree → Tree}

theorem reduce_map (hf : Carries order order' f) (g : Int → Int) (o : Operator) (p : Int)
    (operands : List Tree) :
    reduce order' o (g p) (operands.map f) =
      (reduce order o p operands).change (Event.map f g) (List.map f) (ParseError.map f g) := by
  match operands with
  | [] => rfl
  | [_] => rfl
  | r :: l :: below =>
    change (⟨[.reduce o (order'.combine o (f l) (f r))],
      .ok (order'.combine o (f l) (f r) :: below.map f)⟩ : Traced ParseError (List Tree)) = _
    rw [← hf.combine]
    rfl

theorem reduceWhile_map (hf : Carries order order' f) (g : Int → Int) (due : Operator → Bool)
    (pending : List Pending) (operands : List Tree) :
    reduceWhile order' due (pending.map (Pending.map g)) (operands.map f) =
      (reduceWhile order due pending operands).change (Event.map f g) (Stacks.map f g)
        (ParseError.map f g) := by
  induction pending generalizing operands with
  | nil => rfl
  | cons q pending ih =>
    cases q with
    | group p => rfl
    | operator o p =>
      rw [List.map_cons, Pending.map, reduceWhile, reduceWhile]
      by_cases ho : due o
      · rw [if_pos ho, if_pos ho, reduce_map hf]
        exact Traced.change_bind ih
      · rw [if_neg ho, if_neg ho]
        rfl

/-- One terminal is placed alike before and after the change. -/
theorem place_map (hf : Carries order order' f) (g : Int → Int) (s : Stacks) (t : Terminal) (p : Int) :
    (s.map f g).place order' t (g p) =
      (s.place order t p).change (Event.map f g) (Stacks.map f g) (ParseError.map f g) := by
  cases t with
  | lit l =>
    change (⟨[], .ok ⟨s.pending.map (Pending.map g), .ofLiteral l :: s.operands.map f⟩⟩ :
      Traced ParseError Stacks) = _
    rw [← hf.literal]
    rfl
  | lparen => rfl
  | op o =>
    have hreduce := reduceWhile_map hf g (fun top => o.precedence ≤ top.precedence) s.pending s.operands
    unfold place
    change reduceWhile order' _ (s.pending.map (Pending.map g)) (s.operands.map f) >>= _ = _
    rw [hreduce]
    exact Traced.change_bind fun _ => rfl
  | rparen =>
    have hreduce := reduceWhile_map hf g (fun _ => true) s.pending s.operands
    unfold place
    change reduceWhile order' _ (s.pending.map (Pending.map g)) (s.operands.map f) >>= _ = _
    rw [hreduce]
    refine Traced.change_bind fun s => ?_
    rcases s with ⟨_ | ⟨_ | _, pending⟩, operands⟩ <;> rfl

theorem finish_map (hf : Carries order order' f) (g : Int → Int) (s : Stacks) (p : Int) :
    (s.map f g).finish order' (g p) =
      (s.finish order p).change (Event.map f g) f (ParseError.map f g) := by
  have hreduce := reduceWhile_map hf g (fun _ => true) s.pending s.operands
  have hseveral : ∀ ts : List Tree, ParseError.several (ts.map f).reverse (g p) =
      (ParseError.several ts.reverse p).map f g := by
    intro ts
    rw [← List.map_reverse]
    rfl
  unfold finish
  change reduceWhile order' _ (s.pending.map (Pending.map g)) (s.operands.map f) >>= _ = _
  rw [hreduce]
  refine Traced.change_bind fun s => ?_
  rcases s with ⟨_ | ⟨_ | _, pending⟩, _ | ⟨t, _ | ⟨u, operands⟩⟩⟩
  case nil.cons.cons | cons.operator.cons.cons =>
    exact congrArg Traced.fail (hseveral (t :: u :: operands))
  all_goals rfl

section

variable {σ σ' : Type} [TokenSource σ] [TokenSource σ'] {g : Int → Int} {h : LexError → LexError}
  {R : σ → σ' → Prop}

/-- Parses of two sources, one of which follows the other, go alike to the end, and the sources stay
related. -/
theorem read_map (hf : Carries order order' f) (hR : Follows f g h R) {source : σ} {source' : σ'}
    (hs : R source source') (s : Stacks) :
    ((s.map f g).read order' source').1 =
        (s.read order source).1.change (Event.map f g) f (SyntaxError.map f g h) ∧
      R (s.read order source).2 ((s.map f g).read order' source').2 := by
  induction hn : TokenSource.remaining source using Nat.strongRecOn generalizing source source' s with
  | ind n ih =>
    obtain ⟨hnext, hrel⟩ := hR.next hs
    rcases hx : TokenSource.next source with ⟨⟨es, e | ⟨t | _, p⟩⟩, last⟩
    all_goals
      rcases hx' : TokenSource.next source' with ⟨x', last'⟩
      rw [hx, hx'] at hnext hrel
      obtain rfl : x' = _ := hnext
    · rw [read_eq_of_error s hx, read_eq_of_error (s.map f g) hx']
      exact ⟨rfl, hrel⟩
    · have hplace := place_map hf g s t p
      rw [read_eq_of_terminal s hx, read_eq_of_terminal (s.map f g) hx', hplace]
      rcases s.place order t p with ⟨fs, e | s'⟩
      · refine ⟨?_, hrel⟩
        simp [Traced.change, mapBoth, SyntaxError.map]
      · have hrest := ih _ (hn ▸ TokenSource.remaining_next hx) hrel s' rfl
        refine ⟨?_, hrest.2⟩
        change ((s'.map f g).read order' last').1.after _ = _
        rw [hrest.1]
        simp [Traced.change, Traced.after]
    · have hfinish := finish_map hf g s (TokenSource.position last)
      rw [← hR.position hrel] at hfinish
      rw [read_eq_of_eof s hx, read_eq_of_eof (s.map f g) hx', hfinish]
      refine ⟨?_, hrel⟩
      rcases s.finish order (TokenSource.position last) with ⟨fs, e | t⟩
      · exact congrArg (Traced.mk · _) List.map_append.symm
      · exact congrArg (Traced.mk · _) List.map_append.symm

end

end Stacks

def Queue.map (g : Int → Int) (q : Queue) : Queue := ⟨q.tokens.map (Token.map g), g q.position⟩

theorem Queue.follows (g : Int → Int) :
    Follows id g id (fun q q' : Queue => q' = q.map g) where
  position h := h ▸ rfl
  next {q q'} h := by
    subst h
    obtain ⟨ts, p⟩ := q
    cases ts with
    | nil => exact ⟨rfl, rfl⟩
    | cons t ts => exact ⟨rfl, rfl⟩

theorem parseFrom_follows {σ σ' : Type} [TokenSource σ] [TokenSource σ'] {order order' : OperandOrder}
    {f : Tree → Tree} {g : Int → Int} {h : LexError → LexError} {R : σ → σ' → Prop}
    (hf : Carries order order' f) (hR : Follows f g h R) {source : σ} {source' : σ'}
    (hs : R source source') :
    (parseFrom order' source').1 =
        (parseFrom order source).1.change (Event.map f g) f (SyntaxError.map f g h) ∧
      R (parseFrom order source).2 (parseFrom order' source').2 :=
  Stacks.read_map hf hR hs .start

def SyntaxError.mapTrees (f : Tree → Tree) : SyntaxError → SyntaxError
  | .lexical e => .lexical e
  | .structural e => .structural (e.map f id)

/-- Parses of one source in two operand orders read as far and end alike, up to the trees. -/
theorem Stacks.read_mapTrees {σ : Type} [TokenSource σ] {order order' : OperandOrder} {f : Tree → Tree}
    (hf : Carries order order' f) (source : σ) (s : Stacks) :
    ((s.map f id).read order' source).1.result =
        mapBoth f (SyntaxError.mapTrees f) (s.read order source).1.result ∧
      ((s.map f id).read order' source).2 = (s.read order source).2 := by
  induction hn : TokenSource.remaining source using Nat.strongRecOn generalizing source s with
  | ind n ih =>
    rcases hx : TokenSource.next source with ⟨⟨es, e | ⟨t | _, p⟩⟩, last⟩
    · rw [read_eq_of_error s hx, read_eq_of_error (s.map f id) hx]
      exact ⟨rfl, rfl⟩
    · have hplace := place_map hf id s t p
      rw [id] at hplace
      rw [read_eq_of_terminal s hx, read_eq_of_terminal (s.map f id) hx, hplace]
      rcases s.place order t p with ⟨fs, e | s'⟩
      · exact ⟨rfl, rfl⟩
      · exact ih _ (hn ▸ TokenSource.remaining_next hx) last s' rfl
    · have hfinish := finish_map hf id s (TokenSource.position last)
      rw [id] at hfinish
      rw [read_eq_of_eof s hx, read_eq_of_eof (s.map f id) hx, hfinish]
      rcases s.finish order (TokenSource.position last) with ⟨fs, e | t⟩ <;> exact ⟨rfl, rfl⟩

theorem parseFrom_mapTrees {σ : Type} [TokenSource σ] {order order' : OperandOrder} {f : Tree → Tree}
    (hf : Carries order order' f) (source : σ) :
    (parseFrom order' source).1.result =
        mapBoth f (SyntaxError.mapTrees f) (parseFrom order source).1.result ∧
      (parseFrom order' source).2 = (parseFrom order source).2 :=
  Stacks.read_mapTrees hf source .start

end ZeroOne
