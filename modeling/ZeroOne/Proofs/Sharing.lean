import ZeroOne.Session
import ZeroOne.Proofs.Resumption

/-! The lexers of a session. Readers and parsers by any names share them, and all that these do to a
lexer is calls. -/
namespace ZeroOne

namespace Session

variable {s : Session} {name : String} {h : Nat} {lexer : Lexer} {order : OperandOrder}

theorem getElem?_of_lexer? (hs : s.lexer? name = some (h, lexer)) : s.lexers[h]? = some lexer := by
  unfold lexer? at hs
  split at hs
  · obtain ⟨l, hl, heq⟩ := Option.map_eq_some_iff.1 hs
    cases heq
    exact hl
  · cases hs

theorem getElem?_of_parser? (hs : s.parser? name = some (h, lexer, order)) :
    s.lexers[h]? = some lexer := by
  unfold parser? at hs
  split at hs
  · obtain ⟨l, hl, heq⟩ := Option.map_eq_some_iff.1 hs
    cases heq
    exact hl
  · cases hs

/-- A lexer of a session is made for a text and then carries out calls. -/
def Called (s : Session) : Prop :=
  ∀ lexer ∈ s.lexers, ∃ text cs, ((Lexer.ofText text).calls cs).2 = lexer

namespace Called

theorem store {ε : Type} (hs : s.Called) (name : Option String) (result : Except ε Tree) :
    (s.store name result).Called := by
  unfold Session.store
  split <;> exact hs

theorem update (hs : s.Called) (hl : s.lexers[h]? = some lexer) (c : Call) :
    (s.update h (lexer.call c).2).Called := by
  intro l hmem
  rcases List.mem_or_eq_of_mem_set hmem with hmem | rfl
  · exact hs l hmem
  · obtain ⟨text, cs, hcs⟩ := hs lexer (List.mem_of_getElem? hl)
    refine ⟨text, cs ++ [c], ?_⟩
    rw [Lexer.calls_append, hcs]
    rfl

theorem reads {α : Type} (hs : s.Called) (id : String) (read : Lexer → Traced LexError α × Lexer)
    (answer : Except LexError α → Nat → Answer) (c : Call)
    (hread : ∀ lexer : Lexer, (lexer.call c).2 = (read lexer).2) :
    (s.reads id read answer).2.Called := by
  unfold Session.reads
  split
  · exact hs
  · rename_i h lexer hl
    have hupdate := hs.update (getElem?_of_lexer? hl) c
    rwa [hread] at hupdate

theorem step (hs : s.Called) (c : Command) : (s.step c).2.Called := by
  cases c with
  | lexer id text =>
    intro l hmem
    rcases List.mem_append.1 hmem with hmem | hmem
    · exact hs l hmem
    · exact ⟨text, [], (List.mem_singleton.1 hmem).symm⟩
  | next id => exact hs.reads id _ _ .next fun _ => rfl
  | rest id => exact hs.reads id _ _ .rest fun _ => rfl
  | take id count => exact hs.reads id _ _ (.take count) fun _ => rfl
  | parse id name =>
    unfold Session.step
    dsimp only
    split
    · exact hs
    · rename_i h lexer order hp
      exact (hs.update (getElem?_of_parser? hp) (.parse order)).store name _
  | simplify id ref name =>
    unfold Session.step
    dsimp only
    split
    · exact hs
    · exact hs
    · exact hs.store name _
  | fix id ref name =>
    unfold Session.step
    dsimp only
    split
    · exact hs
    · exact hs
    · rename_i passes t _ _
      have hbind : (s.bind id (.simplifier t.fix.2)).Called := hs
      exact hbind.store name _
  | simplifier id => exact hs
  | _ =>
    -- Nothing but names can change.
    unfold Session.step
    dsimp only
    split <;> exact hs

end Called

def afterAll (s : Session) (cs : List Command) : Session := cs.foldl (fun s c => (s.step c).2) s

theorem Called.afterAll (hs : s.Called) (cs : List Command) : (s.afterAll cs).Called := by
  induction cs generalizing s with
  | nil => exact hs
  | cons c cs ih => exact ih (hs.step c)

/-- Whatever readers and parsers share it, a lexer of a session is that of the rest of some text. -/
theorem exists_shift_of_mem (cs : List Command) (h : lexer ∈ (start.afterAll cs).lexers) :
    ∃ text : Text, lexer = (Lexer.ofText (text.drop lexer.position)).shift lexer.position := by
  have hstart : start.Called := nofun
  obtain ⟨text, calls, rfl⟩ := hstart.afterAll cs lexer h
  exact ⟨text, (Lexer.reads_calls _ calls).advances.eq_shift.2⟩

end Session
end ZeroOne
