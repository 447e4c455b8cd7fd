import ZeroOne.Proofs.Calls
import ZeroOne.Proofs.Surplus

/-! The history of a parse. The trees on the operand stack, each with its subtrees in front of it, are
all that was built so far. -/
namespace ZeroOne

/-- The operands of a composite in the order in which they were written, for parts of any kind. -/
def OperandOrder.inTurn {α : Type} (order : OperandOrder) (s : Symbol) (left right : List α) : List α :=
  match order, s with
  | .swapped, .op .add | .swapped, .op .mul => right ++ left
  | _, _ => left ++ right

namespace Tree

/-- All trees within a tree, each behind its own subtrees, those of the operand that was written first in
front. -/
def postorder (order : OperandOrder) : Tree → List Tree
  | .binary s l r => order.inTurn s (l.postorder order) (r.postorder order) ++ [.binary s l r]
  | t => [t]

def symbol? : Tree → Option Symbol
  | .binary s _ _ => some s
  | _ => none

end Tree

/-- The tree that is pushed at an event: the leaf of a literal that is read, or a composite. -/
def Event.built? : Event → Option Tree
  | .token ⟨.terminal (.lit l), _⟩ => some (.ofLiteral l)
  | .reduce _ t => some t
  | _ => none

def Tree.reductionRecord? (t : Tree) : Option String :=
  t.symbol?.map fun s => "reduce " ++ s.spelling ++ " -> " ++ t.render

def messages (c : Channel) (log : List Event) : List (Except Fault String) :=
  (log.filter (·.channel = c)).map Event.message

section

variable {ε α β : Type} {x : Traced ε α} {f : α → Traced ε β}

theorem Traced.exists_of_result_bind {b : β} (h : (x >>= f).result = .ok b) :
    ∃ a, x.result = .ok a ∧ (f a).result = .ok b ∧ (x >>= f).events = x.events ++ (f a).events := by
  obtain ⟨es, e | a⟩ := x
  · cases h
  · exact ⟨a, rfl, h, rfl⟩

theorem Traced.events_bind_of_nil (hf : ∀ a, (f a).events = []) : (x >>= f).events = x.events := by
  obtain ⟨es, e | a⟩ := x
  · rfl
  · change es ++ (f a).events = es
    rw [hf, List.append_nil]

end

theorem postorder_combine (order : OperandOrder) (o : Operator) (l r : Tree) :
    (order.combine o l r).postorder order =
      l.postorder order ++ r.postorder order ++ [order.combine o l r] := by
  cases order <;> cases o <;> rfl

theorem OperandOrder.mem_inTurn {α : Type} {order : OperandOrder} {s : Symbol} {left right : List α}
    {a : α} : a ∈ order.inTurn s left right ↔ a ∈ left ∨ a ∈ right := by
  have hforward : a ∈ left ++ right ↔ a ∈ left ∨ a ∈ right := List.mem_append
  have hbackward : a ∈ right ++ left ↔ a ∈ left ∨ a ∈ right := List.mem_append.trans or_comm
  cases order with
  | written => exact hforward
  | swapped =>
    rcases s with (_ | _ | _) | _
    · exact hbackward
    · exact hbackward
    · exact hforward
    · exact hforward

theorem self_mem_postorder (order : OperandOrder) (t : Tree) : t ∈ t.postorder order := by
  cases t <;> simp [Tree.postorder]

/-- Trees of literals can be written, and so can all trees in them. -/
theorem writable_of_mem_postorder {order : OperandOrder} {t : Tree}
    (h : ∀ u ∈ t.postorder order, (∃ l, u = .ofLiteral l) ∨ ∃ s l r, u = .binary s l r) :
    ∀ u ∈ t.postorder order, u.Writable := by
  have leaf : ∀ {u : Tree}, (∃ l, u = .ofLiteral l) → u.Writable := by
    rintro _ ⟨l, rfl⟩
    exact Tree.writable_ofLiteral l
  induction t with
  | binary s l r ihl ihr =>
    have hmem : ∀ u, u ∈ (Tree.binary s l r).postorder order ↔
        (u ∈ l.postorder order ∨ u ∈ r.postorder order) ∨ u = .binary s l r := by
      simp [Tree.postorder, OperandOrder.mem_inTurn]
    have hl := ihl fun u hu => h u ((hmem u).2 (.inl (.inl hu)))
    have hr := ihr fun u hu => h u ((hmem u).2 (.inl (.inr hu)))
    intro u hu
    rcases (hmem u).1 hu with (hu | hu) | rfl
    · exact hl u hu
    · exact hr u hu
    · exact ⟨hl l (self_mem_postorder order l), hr r (self_mem_postorder order r)⟩
  | _ =>
    intro u hu
    obtain rfl := List.mem_singleton.1 hu
    rcases h _ hu with hu | ⟨_, _, _, hu⟩
    · exact leaf hu
    · cases hu

namespace Stacks

variable {order : OperandOrder} {s s' : Stacks}

/-- The trees that were pushed to come to the operands, in order. -/
def history (order : OperandOrder) (s : Stacks) : List Tree :=
  s.operands.reverse.flatMap (Tree.postorder order)

theorem history_cons (pending : List Pending) (t : Tree) (operands : List Tree) :
    history order ⟨pending, t :: operands⟩ =
      history order ⟨pending, operands⟩ ++ t.postorder order := by
  simp [history]

theorem history_reduce {o : Operator} {p : Int} {operands operands' : List Tree} (pending : List Pending)
    (h : (reduce order o p operands).result = .ok operands') :
    history order ⟨pending, operands'⟩ =
      history order ⟨pending, operands⟩ ++ (reduce order o p operands).events.filterMap Event.built? := by
  obtain ⟨l, r, below, rfl, rfl⟩ := reduce_eq_ok h
  -- The two operands stand side by side in the history, the left one first, so only the composite is new.
  have hevents : (reduce order o p (r :: l :: below)).events.filterMap Event.built? =
      [order.combine o l r] := rfl
  rw [hevents, history_cons, history_cons, history_cons, postorder_combine]
  simp only [List.append_assoc]

theorem history_reduceWhile {due : Operator → Bool} {pending : List Pending} {operands : List Tree}
    (h : (reduceWhile order due pending operands).result = .ok s) :
    s.history order = history order ⟨pending, operands⟩ ++
      (reduceWhile order due pending operands).events.filterMap Event.built? := by
  induction pending generalizing operands with
  | nil =>
    cases h
    exact (List.append_nil _).symm
  | cons q pending ih =>
    cases q with
    | group p =>
      cases h
      exact (List.append_nil _).symm
    | operator o p =>
      unfold reduceWhile at h ⊢
      by_cases ho : due o
      · rw [if_pos ho] at h ⊢
        obtain ⟨operands', hr, hrest, hevents⟩ := Traced.exists_of_result_bind h
        have hreduce := history_reduce pending hr
        have hstep : history order ⟨.operator o p :: pending, operands⟩ =
            history order ⟨pending, operands⟩ := rfl
        rw [hevents, List.filterMap_append, ih hrest, hreduce, hstep, List.append_assoc]
      · rw [if_neg ho] at h ⊢
        cases h
        exact (List.append_nil _).symm

/-- An operator, a closing parenthesis and the end of the input record their reductions only. -/
theorem events_place_op (s : Stacks) (o : Operator) (p : Int) :
    (s.place order (.op o) p).events =
      (reduceWhile order (fun top => o.precedence ≤ top.precedence) s.pending s.operands).events :=
  Traced.events_bind_of_nil fun _ => rfl

theorem events_place_rparen (s : Stacks) (p : Int) :
    (s.place order .rparen p).events =
      (reduceWhile order (fun _ => true) s.pending s.operands).events := by
  apply Traced.events_bind_of_nil
  intro s
  split <;> rfl

theorem events_finish (s : Stacks) (p : Int) :
    (s.finish order p).events = (reduceWhile order (fun _ => true) s.pending s.operands).events := by
  apply Traced.events_bind_of_nil
  intro s
  split <;> rfl

/-- One terminal adds to the history what is built when it is read and placed. -/
theorem history_place {t : Terminal} {p : Int} (h : (s.place order t p).result = .ok s') :
    s'.history order = s.history order ++
      (Event.token ⟨.terminal t, p⟩ :: (s.place order t p).events).filterMap Event.built? := by
  cases t with
  | lit l =>
    cases h
    have hleaf : (Tree.ofLiteral l).postorder order = [.ofLiteral l] := by cases l <;> rfl
    rw [history_cons, hleaf]
    rfl
  | lparen =>
    cases h
    exact (List.append_nil _).symm
  | op o =>
    obtain ⟨r, hr, rfl⟩ := place_op_eq_ok h
    rw [events_place_op]
    have hhistory := history_reduceWhile hr
    exact hhistory
  | rparen =>
    obtain ⟨q, hr⟩ := place_rparen_eq_ok h
    rw [events_place_rparen]
    have hhistory := history_reduceWhile hr
    exact hhistory

/-- The history of a single tree that is left is the tree in postorder. -/
theorem history_finish {p : Int} {t : Tree} (h : (s.finish order p).result = .ok t) :
    t.postorder order =
      s.history order ++ (s.finish order p).events.filterMap Event.built? := by
  have hr : (reduceWhile order (fun _ => true) s.pending s.operands).result = .ok ⟨[], [t]⟩ :=
    finish_eq_ok h
  have hsingle : history order ⟨[], [t]⟩ = t.postorder order := by simp [history]
  rw [events_finish, ← hsingle]
  exact history_reduceWhile hr

theorem events_reductions {ε α : Type} {x : Traced ε α} {es : List Event} {r : Except ε α}
    (h : x.Reduces) (hx : x = ⟨es, r⟩) : ∀ e ∈ es, e.IsReduction := by
  subst hx
  exact h

theorem filter_lexer_of_reductions {es : List Event} (h : ∀ e ∈ es, e.IsReduction) :
    es.filter (·.channel = .lexer) = [] := by
  apply List.filter_eq_nil_iff.2
  intro e he
  cases h e he
  simp [Event.channel]

/-- A parse of a lexer that comes to a tree, with all that it records. -/
inductive Accepts (order : OperandOrder) : Stacks → Lexer → List Event → Tree → Prop
  | finished {s : Stacks} {lexer last : Lexer} {p : Int} {es : List Event} {t : Tree} :
    lexer.next = (⟨[], .ok ⟨.eof, p⟩⟩, last) → s.finish order last.position = ⟨es, .ok t⟩ →
      Accepts order s lexer es t
  | placed {s s' : Stacks} {lexer lexer' : Lexer} {u : Terminal} {p : Int} {es fs : List Event}
      {t : Tree} :
    lexer.next = (⟨[.token ⟨.terminal u, p⟩], .ok ⟨.terminal u, p⟩⟩, lexer') →
      s.place order u p = ⟨es, .ok s'⟩ → Accepts order s' lexer' fs t →
      Accepts order s lexer (.token ⟨.terminal u, p⟩ :: es ++ fs) t

theorem accepts_of_read {lexer : Lexer} {t : Tree} (h : (s.read order lexer).1.result = .ok t) :
    Accepts order s lexer (s.read order lexer).1.events t := by
  induction hlength : lexer.rest.length using Nat.strongRecOn generalizing lexer s with
  | ind n ih =>
    rcases hn : lexer.next with ⟨⟨es, e | ⟨u | _, p⟩⟩, next⟩
    · rw [read_of_error s hn] at h
      cases h
    · have hrecord : es = [.token ⟨.terminal u, p⟩] := by
        cases Lexer.step_of_next hn
        rfl
      subst hrecord
      rw [read_eq_of_terminal s hn] at h ⊢
      rcases hp : s.place order u p with ⟨fs, e | s'⟩
      · rw [hp] at h
        cases h
      · rw [hp] at h
        have hrest := ih _ (hlength ▸ TokenSource.remaining_next hn) h rfl
        exact .placed hn hp hrest
    · have hrecord : es = [] := by
        cases Lexer.step_of_next hn
        rfl
      subst hrecord
      rw [read_eq_of_eof s hn] at h ⊢
      rcases hf : s.finish order (TokenSource.position next) with ⟨fs, e | u⟩
      · rw [hf] at h
        cases h
      · rw [hf] at h
        obtain rfl : u = t := Except.ok.inj h
        exact .finished hn hf

namespace Accepts

variable {lexer : Lexer} {es : List Event} {t : Tree}

theorem history (h : Accepts order s lexer es t) :
    t.postorder order = s.history order ++ es.filterMap Event.built? := by
  induction h with
  | @finished s lexer last p es t hn hf =>
    have hfinish := history_finish (congrArg Traced.result hf)
    rw [hf] at hfinish
    exact hfinish
  | @placed s s' lexer lexer' u p es fs t hn hp _ ih =>
    have hplace := history_place (congrArg Traced.result hp)
    rw [hp] at hplace
    rw [ih, hplace, List.filterMap_append, List.append_assoc]

/-- The lexer is read to its end, and all of its tokens are recorded. -/
theorem tokens (h : Accepts order s lexer es t) :
    ∃ ts p, lexer.tokens.1.result = .ok (toTokens ts ++ [⟨.eof, p⟩]) ∧
      es.filter (·.channel = .lexer) = (toTokens ts).map .token := by
  induction h with
  | @finished s lexer last p es t hn hf =>
    have hes := filter_lexer_of_reductions (events_reductions (reduces_finish s last.position) hf)
    refine ⟨[], p, ?_, hes⟩
    rw [Lexer.tokens_eq lexer hn]
    rfl
  | @placed s s' lexer lexer' u p es fs t hn hp _ ih =>
    obtain ⟨ts, q, htokens, hfs⟩ := ih
    have hes := filter_lexer_of_reductions (events_reductions (reduces_place s u p) hp)
    refine ⟨(u, p) :: ts, q, ?_, ?_⟩
    · rw [Lexer.tokens_eq lexer hn]
      exact congrArg (Except.map _) htokens
    · have hrecord : (Event.token ⟨.terminal u, p⟩ :: es ++ fs).filter (·.channel = .lexer) =
          .token ⟨.terminal u, p⟩ :: (es ++ fs).filter (·.channel = .lexer) := rfl
      rw [hrecord, List.filter_append, hes, hfs]
      rfl

theorem reductions (h : Accepts order s lexer es t) :
    ∀ e ∈ es, (∃ u, e = .token u) ∨ e.IsReduction := by
  induction h with
  | @finished s lexer last p es t hn hf =>
    exact fun e he => .inr (events_reductions (reduces_finish s last.position) hf e he)
  | @placed s s' lexer lexer' u p es fs t hn hp _ ih =>
    intro e he
    rcases List.mem_append.1 he with he | he
    · rcases List.mem_cons.1 he with rfl | he
      · exact .inl ⟨_, rfl⟩
      · exact .inr (events_reductions (reduces_place s u p) hp e he)
    · exact ih e he

end Accepts
end Stacks

/-- The trees that are built are leaves of literals and composites. -/
theorem kind_of_mem_built {es : List Event} (h : ∀ e ∈ es, (∃ u, e = .token u) ∨ e.IsReduction)
    {t : Tree} (ht : t ∈ es.filterMap Event.built?) :
    (∃ l, t = .ofLiteral l) ∨ ∃ s l r, t = .binary s l r := by
  obtain ⟨e, he, hbuilt⟩ := List.mem_filterMap.1 ht
  rcases h e he with ⟨⟨k, p⟩, rfl⟩ | ⟨o, l, r⟩
  · rcases k with (l | _ | _ | _) | _
    · exact .inl ⟨l, (Option.some.inj hbuilt).symm⟩
    all_goals cases hbuilt
  · exact .inr ⟨_, _, _, (Option.some.inj hbuilt).symm⟩

/-- The records of the parser are those of the composites that are built. -/
theorem messages_eq_filter {es : List Event} (h : ∀ e ∈ es, (∃ u, e = .token u) ∨ e.IsReduction)
    (hw : ∀ t ∈ es.filterMap Event.built?, t.Writable) :
    messages .parser es =
      ((es.filterMap Event.built?).filterMap Tree.reductionRecord?).map .ok := by
  induction es with
  | nil => rfl
  | cons e es ih =>
    have hstep : ∀ e' ∈ es, (∃ u, e' = .token u) ∨ e'.IsReduction :=
      fun e' he => h e' (List.mem_cons_of_mem _ he)
    rcases h e List.mem_cons_self with ⟨⟨k, p⟩, rfl⟩ | ⟨o, l, r⟩
    · have hsilent : messages .parser (.token ⟨k, p⟩ :: es) = messages .parser es := rfl
      rcases k with (l | o | _ | _) | _
      · have hleaf : (Tree.ofLiteral l).reductionRecord? = none := by cases l <;> rfl
        have hbuilt : (Event.token ⟨.terminal (.lit l), p⟩ :: es).filterMap Event.built? =
            .ofLiteral l :: es.filterMap Event.built? := rfl
        rw [hbuilt] at hw ⊢
        rw [hsilent, ih hstep fun t ht => hw t (List.mem_cons_of_mem _ ht),
          List.filterMap_cons_none hleaf]
      all_goals exact hsilent.trans (ih hstep hw)
    · have hbuilt : (Event.reduce o (.binary (.op o) l r) :: es).filterMap Event.built? =
          .binary (.op o) l r :: es.filterMap Event.built? := rfl
      rw [hbuilt] at hw ⊢
      have hprint := Tree.print_of_writable (hw _ List.mem_cons_self)
      have hmessage : (Event.reduce o (.binary (.op o) l r)).message =
          .ok ("reduce " ++ o.spelling ++ " -> " ++ (Tree.binary (.op o) l r).render) := by
        rw [Event.message, hprint]
        rfl
      have hrecord : messages .parser (.reduce o (.binary (.op o) l r) :: es) =
          (Event.reduce o (.binary (.op o) l r)).message :: messages .parser es := rfl
      rw [hrecord, hmessage, ih hstep fun t ht => hw t (List.mem_cons_of_mem _ ht)]
      rfl

/-- The trace of a parse with a tree spells the tree: its tokens and its composites, in postorder, are
recorded, and nothing else. -/
theorem trace_spells_tree {order : OperandOrder} {text : Text} {t : Tree}
    (h : (parse order text).result = .ok t) :
    (parse order text).events.filterMap Event.built? = t.postorder order ∧
      (∃ ts p, (tokenize text).result = .ok (toTokens ts ++ [⟨.eof, p⟩]) ∧
        messages .lexer (parse order text).events =
          (toTokens ts).map fun u => .ok ("token " ++ u.spelling ++ " at " ++ u.pos.repr)) ∧
      messages .parser (parse order text).events =
        ((t.postorder order).filterMap Tree.reductionRecord?).map .ok ∧
      (∀ e ∈ (parse order text).events,
        e.level = .debug ∧ (e.channel = .lexer ∨ e.channel = .parser)) ∧
      t.print = .ok t.render ∧
      ∀ s l r, t = .binary s l r →
        (messages .parser (parse order text).events).getLast? =
          some (.ok ("reduce " ++ s.spelling ++ " -> " ++ t.render)) := by
  have haccepts : Stacks.Accepts order .start (.ofText text) (parse order text).events t :=
    Stacks.accepts_of_read h
  have hbuilt : t.postorder order = (parse order text).events.filterMap Event.built? :=
    haccepts.history
  have hkinds := haccepts.reductions
  have hwritable : ∀ u ∈ t.postorder order, u.Writable :=
    writable_of_mem_postorder fun u hu => kind_of_mem_built hkinds (hbuilt ▸ hu)
  have hparser := messages_eq_filter hkinds (hbuilt ▸ hwritable)
  rw [← hbuilt] at hparser
  refine ⟨hbuilt.symm, ?_, hparser, fun e he => ?_,
    Tree.print_of_writable (hwritable t (self_mem_postorder order t)), ?_⟩
  · obtain ⟨ts, p, htokens, hlexer⟩ := haccepts.tokens
    refine ⟨ts, p, htokens, ?_⟩
    rw [messages, hlexer, List.map_map]
    rfl
  · rcases hkinds e he with ⟨u, rfl⟩ | ⟨o, l, r⟩
    · exact ⟨rfl, .inl rfl⟩
    · exact ⟨rfl, .inr rfl⟩
  · rintro s l r rfl
    rw [hparser, Tree.postorder, List.filterMap_append, List.map_append]
    exact List.getLast?_concat

/-- Two operators that stand behind their operands, with the operands of both exchanged. -/
theorem trace_spells_tree_swapped :
    let text := Text.ofString "1 1 + * 0"
    let t := Tree.add (.mul (.number 0) (.number 1)) (.number 1)
    (parse .swapped text).result = .ok t ∧
      (parse .swapped text).events.filterMap Event.built? =
        [.number 1, .number 1, .number 0, .mul (.number 0) (.number 1), t] ∧
      (messages .parser (parse .swapped text).events).getLast? =
        some (.ok "reduce + -> ((0 * 1) + 1)") := by
  intro text t
  have hread : Yields (Lexer.ofText text)
      [(.lit .one, 0), (.lit .one, 2), (.op .add, 4), (.op .mul, 6), (.lit .zero, 8)] ⟨[], 9⟩ :=
    .token rfl (.token rfl (.token rfl (.token rfl (.token rfl (.done _)))))
  have hresult : (parse .swapped text).result = .ok t := Stacks.read_of_yields_eof hread rfl .start
  have hrender : t.render = "((0 * 1) + 1)" := by decide
  obtain ⟨hbuilt, _, _, _, _, hlast⟩ := trace_spells_tree hresult
  have hrecord := hlast _ _ _ rfl
  rw [hrender] at hrecord
  exact ⟨hresult, hbuilt, hrecord⟩

end ZeroOne
