import ZeroOne.Tree.Render

/-! What happens along the way: events, their log records, and answers that come with their events. -/
namespace ZeroOne

inductive Channel
  | lexer
  | parser
  | simplifier
  | pipeline
  deriving DecidableEq, Repr

def Channel.name : Channel → String
  | .lexer => "lexer"
  | .parser => "shunting_yard"
  | .simplifier => "simplifier"
  | .pipeline => "pipeline"

inductive Level
  | debug
  | info
  deriving DecidableEq, Repr

namespace Level

def name : Level → String
  | .debug => "DEBUG"
  | .info => "INFO"

def ofName? (s : String) : Option Level := [debug, info].find? (·.name == s)

def shows : Level → Level → Bool
  | .debug, _ => true
  | .info, l => l = .info

end Level

inductive Event
  | token (t : Token)
  | reduce (o : Operator) (tree : Tree)
  | pass (number : Nat) (before after : Tree)
  | fixpoint (passes : Nat) (tree : Tree)
  | parsing
  | parsed (tree : Tree)
  | simplifying
  | simplified (passes : Nat) (tree : Tree)
  | evaluating
  | illTyped (tree : Tree)
  deriving DecidableEq, Repr

namespace Event

def channel : Event → Channel
  | .token _ => .lexer
  | .reduce _ _ => .parser
  | .pass _ _ _ | .fixpoint _ _ => .simplifier
  | _ => .pipeline

/-- The stages of a run and their verdict are information; all else is for debugging. -/
def level : Event → Level
  | .parsing | .simplifying | .evaluating | .illTyped _ => .info
  | _ => .debug

/-- The text of a record, which fails with a tree in it that cannot be written. -/
def message : Event → Except Fault String
  | .token t => return "token " ++ t.spelling ++ " at " ++ t.pos.repr
  | .reduce o t => return "reduce " ++ o.spelling ++ " -> " ++ (← t.print)
  | .pass n t u => return "pass " ++ n.repr ++ ": " ++ (← t.print) ++ " -> " ++ (← u.print)
  | .fixpoint n t => return "fixpoint reached after " ++ n.repr ++ " pass(es): " ++ (← t.print)
  | .parsing => return "Parsing..."
  | .parsed t => return "AST: " ++ (← t.print)
  | .simplifying => return "Simplifying..."
  | .simplified n t => return "Simplified AST (" ++ n.repr ++ " pass(es)): " ++ (← t.print)
  | .evaluating => return "Evaluating..."
  | .illTyped t => return "Expression is not well-typed: " ++ (← t.print)

end Event

structure Traced (ε α : Type) where
  events : List Event
  result : Except ε α

namespace Traced

variable {ε ε' α β γ : Type}

def ofExcept (r : Except ε α) : Traced ε α := ⟨[], r⟩

def fail (e : ε) : Traced ε α := ⟨[], .error e⟩

def emit (e : Event) : Traced ε Unit := ⟨[e], .ok ()⟩

def after (events : List Event) (x : Traced ε α) : Traced ε α := ⟨events ++ x.events, x.result⟩

def mapError (f : ε → ε') (x : Traced ε α) : Traced ε' α := ⟨x.events, x.result.mapError f⟩

/-- Goes on with an answer; the events of both parts stay in order, and a failure ends the trace. -/
def bind (x : Traced ε α) (f : α → Traced ε β) : Traced ε β :=
  match x.result with
  | .ok a => (f a).after x.events
  | .error e => ⟨x.events, .error e⟩

instance : Monad (Traced ε) where
  pure a := ⟨[], .ok a⟩
  bind := bind

@[simp] theorem pure_def (a : α) : (pure a : Traced ε α) = ⟨[], .ok a⟩ := rfl

@[simp] theorem mk_ok_bind (es : List Event) (a : α) (f : α → Traced ε β) :
    (⟨es, .ok a⟩ : Traced ε α) >>= f = (f a).after es := rfl

@[simp] theorem mk_error_bind (es : List Event) (e : ε) (f : α → Traced ε β) :
    (⟨es, .error e⟩ : Traced ε α) >>= f = ⟨es, .error e⟩ := rfl

@[simp] theorem after_nil (x : Traced ε α) : x.after [] = x := rfl

@[simp] theorem after_after (as bs : List Event) (x : Traced ε α) :
    (x.after bs).after as = x.after (as ++ bs) := by
  simp [after]

theorem result_bind (x : Traced ε α) (f : α → Traced ε β) :
    (x >>= f).result = x.result.bind fun a => (f a).result := by
  obtain ⟨es, r⟩ := x
  cases r <;> rfl

theorem result_bind_eq_ok_iff {x : Traced ε α} {f : α → Traced ε β} {b : β} :
    (x >>= f).result = .ok b ↔ ∃ a, x.result = .ok a ∧ (f a).result = .ok b := by
  rw [result_bind]
  cases x.result <;> simp [Except.bind]

theorem result_bind_eq_error_iff {x : Traced ε α} {f : α → Traced ε β} {e : ε} :
    (x >>= f).result = .error e ↔
      x.result = .error e ∨ ∃ a, x.result = .ok a ∧ (f a).result = .error e := by
  rw [result_bind]
  cases x.result <;> simp [Except.bind]

private theorem bind_ret (x : Traced ε α) : x >>= pure = x := by
  obtain ⟨es, r⟩ := x
  cases r <;> simp [after]

private theorem bind_bind (x : Traced ε α) (f : α → Traced ε β) (g : β → Traced ε γ) :
    x >>= f >>= g = x >>= fun a => f a >>= g := by
  obtain ⟨es, r⟩ := x
  cases r with
  | error e => rfl
  | ok a =>
    rcases h : f a with ⟨fs, s⟩
    cases s <;> simp [h, after]

instance : LawfulMonad (Traced ε) :=
  LawfulMonad.mk' (Traced ε) bind_ret (fun _ _ => rfl) bind_bind

end Traced
end ZeroOne
