import ZeroOne.Proofs.Conservation
import ZeroOne.Proofs.Nesting

/-! Parentheses. The groups that wait on the stacks are the ones that are open by standard matching, so what
a parse says of parentheses is what standard matching says. -/
namespace ZeroOne

open Grammar (Nested HasOpening HasClosing AllOpened AllClosed Opens)

def Pending.group? : Pending → Option Int
  | .operator _ _ => none
  | .group p => some p

namespace Stacks

variable {order : OperandOrder} {s s' : Stacks} {e : ParseError} {ts us : List (Terminal × Int)}
  {t : Terminal} {p : Int}

def groups (s : Stacks) : List Int := s.pending.filterMap Pending.group?

theorem groups_of_reduceWhile {due : Operator → Bool} {pending : List Pending} {operands : List Tree}
    (h : (reduceWhile order due pending operands).result = .ok s) :
    s.groups = (⟨pending, operands⟩ : Stacks).groups :=
  reduceWhile_keeps (fun _ _ _ _ _ _ => rfl) h

theorem opens_of_place (hs : Opens us s.groups) (h : (s.place order t p).result = .ok s') :
    Opens (us ++ [(t, p)]) s'.groups := by
  cases t with
  | lit l =>
    cases h
    exact hs.append (.other nofun nofun .nil)
  | lparen =>
    cases h
    exact .group hs .nil
  | op o =>
    obtain ⟨r, hr, rfl⟩ := place_op_eq_ok h
    have hgroups : r.groups = s.groups := groups_of_reduceWhile hr
    rw [← hgroups] at hs
    exact hs.append (.other nofun nofun .nil)
  | rparen =>
    obtain ⟨q, hr⟩ := place_rparen_eq_ok h
    have hgroups : q :: s'.groups = s.groups := groups_of_reduceWhile hr
    rw [← hgroups] at hs
    exact hs.closed p

/-- The groups that wait are those that are open. -/
theorem opens_of_placeAll (hs : Opens us s.groups) (h : (s.placeAll order ts).result = .ok s') :
    Opens (us ++ ts) s'.groups :=
  placeAll_keeps (P := fun us s => Opens us s.groups) opens_of_place hs h

theorem opens_of_placeAll_start (h : (start.placeAll order ts).result = .ok s) : Opens ts s.groups := by
  have hstart : Opens [] start.groups := .nil .nil
  exact opens_of_placeAll hstart h

/-- A parse ends with a reduction in error, with a parenthesis in error, or with nested terminals
and no token in error. -/
inductive Verdict (order : OperandOrder) (ts : List (Terminal × Int)) : Except ParseError Tree → Prop
  | missingOperand (o : Operator) (q : Int) : Verdict order ts (.error (.missingOperand o q))
  | unmatched {us vs : List (Terminal × Int)} {q : Int} :
    ts = us ++ (.rparen, q) :: vs → Nested (us.map (·.1)) → Verdict order ts (.error (.unmatched q))
  | unclosed {s : Stacks} {us vs : List (Terminal × Int)} {q : Int} :
    (start.placeAll order ts).result = .ok s → ts = us ++ (.lparen, q) :: vs →
      AllOpened (ts.map (·.1)) → Nested (vs.map (·.1)) → Verdict order ts (.error (.unclosed q))
  | nested {x : Except ParseError Tree} :
    Nested (ts.map (·.1)) → (∀ e, x = .error e → e.token? = none) → Verdict order ts x

theorem verdict (order : OperandOrder) (ts : List (Terminal × Int)) (pos : Int) :
    Verdict order ts (start.placeAll order ts >>= fun s => s.finish order pos).result := by
  rw [Traced.result_bind]
  rcases hp : (start.placeAll order ts).result with e | s
  · obtain ⟨us, ⟨t, q⟩, vs, r, hts, hus, hq⟩ := exists_place_eq_error hp
    rcases place_eq_error hq with ⟨o, p, _, rfl⟩ | ⟨ht, rfl, trees, hr⟩
    · exact .missingOperand o p
    · obtain rfl : t = .rparen := ht
      have hopens := opens_of_placeAll_start hus
      rw [← groups_of_reduceWhile hr] at hopens
      exact .unmatched hts hopens.nested
  · have hopens := opens_of_placeAll_start hp
    change Verdict order ts (s.finish order pos).result
    rcases finish_cases order s pos with ⟨o, q, _, hf⟩ | ⟨trees, hr⟩ | ⟨q, rest, trees, hr, hf⟩
    · rw [hf]
      exact .missingOperand o q
    · rw [← groups_of_reduceWhile hr] at hopens
      rw [finish_of_reduceWhile hr]
      exact .nested hopens.nested fun e => token?_of_only
    · rw [← groups_of_reduceWhile hr] at hopens
      rw [hf]
      have hall := hopens.allOpened
      cases hopens with
      | group _ hv => exact .unclosed hp rfl hall hv

theorem eq_error_of_structural {x : Except ParseError Tree}
    (h : x.mapError SyntaxError.structural = .error (.structural e)) : x = .error e := by
  rcases x with e' | t
  · exact congrArg Except.error (SyntaxError.structural.inj (Except.error.inj h))
  · cases h

end Stacks

/-- What a parse says of parentheses is what matching each closing one with the last open one says.
-/
theorem parse_matches_parentheses {σ : Type} [TokenSource σ] (order : OperandOrder)
    {source source' last : σ} {ts : List (Terminal × Int)} {es : List Event} {p : Int}
    (hy : Yields source ts source') (hend : TokenSource.next source' = (⟨es, .ok ⟨.eof, p⟩⟩, last)) :
    (∀ t, (parseFrom order source).1.result = .ok t → Nested (ts.map (·.1))) ∧
      (∀ q, (parseFrom order source).1.result = .error (.structural (.unmatched q)) →
        ∃ front behind, ts = front ++ (.rparen, q) :: behind ∧ ¬ HasOpening (front.map (·.1)) ∧
          AllOpened (front.map (·.1)) ∧ AllClosed (front.map (·.1))) ∧
      (∀ q, (parseFrom order source).1.result = .error (.structural (.unclosed q)) →
        AllOpened (ts.map (·.1)) ∧
          (∃ front behind, ts = front ++ (.lparen, q) :: behind ∧ ¬ HasClosing (behind.map (·.1)) ∧
            AllClosed (behind.map (·.1))) ∧
          (parseFrom order source).2 = last) ∧
      (¬ AllOpened (ts.map (·.1)) ∨ ¬ AllClosed (ts.map (·.1)) →
        ∃ e, (parseFrom order source).1.result = .error (.structural e) ∧
          ((∃ q, e = .unmatched q) ∨ (∃ q, e = .unclosed q) ∨ ∃ o q, e = .missingOperand o q)) := by
  have hresult : (parseFrom order source).1.result = _ := Stacks.read_of_yields_eof hy hend .start
  have hverdict := Stacks.verdict order ts (TokenSource.position last)
  generalize (Stacks.start.placeAll order ts >>= _).result = x at hresult hverdict
  refine ⟨fun t h => ?_, fun q h => ?_, fun q h => ?_, fun h => ?_⟩
  · rw [hresult] at h
    cases hverdict with
    | missingOperand | unmatched | unclosed => cases h
    | nested hts => exact hts
  · rw [hresult] at h
    have hx : x = .error (.unmatched q) := Stacks.eq_error_of_structural h
    cases hverdict with
    | missingOperand | unclosed => cases hx
    | nested _ hnone => cases hnone _ hx
    | @unmatched us vs _ hts hu =>
      cases hx
      exact ⟨us, vs, hts, hu.not_hasOpening, hu.allOpened, hu.allClosed⟩
  · rw [hresult] at h
    have hx : x = .error (.unclosed q) := Stacks.eq_error_of_structural h
    cases hverdict with
    | missingOperand | unmatched => cases hx
    | nested _ hnone => cases hnone _ hx
    | @unclosed s us vs _ hp hts hall hv =>
      cases hx
      have hleft : (parseFrom order source).2 = (s.read order source').2 := Stacks.left_of_yields hy hp
      rw [hleft, Stacks.read_eq_of_eof s hend]
      exact ⟨hall, ⟨us, vs, hts, hv.not_hasClosing, hv.allClosed⟩, rfl⟩
  · cases hverdict with
    | missingOperand o q => exact ⟨_, hresult, .inr (.inr ⟨o, q, rfl⟩)⟩
    | @unmatched _ _ q => exact ⟨_, hresult, .inl ⟨q, rfl⟩⟩
    | @unclosed _ _ _ q => exact ⟨_, hresult, .inr (.inl ⟨q, rfl⟩)⟩
    | nested hts =>
      rcases h with h | h
      · exact absurd hts.allOpened h
      · exact absurd hts.allClosed h

/-- A group is closed twice; a group is opened behind an empty one. -/
theorem parse_matches_parentheses_lone :
    let ts : List (Terminal × Int) :=
      [(.lparen, 0), (.lit .one, 1), (.rparen, 2), (.rparen, 3), (.lparen, 4)]
    let us : List (Terminal × Int) := [(.lparen, 0), (.rparen, 1), (.lparen, 2), (.lit .one, 3)]
    (¬ AllOpened (ts.map (·.1)) ∧
        (parseFrom .written (⟨toTokens ts, 5⟩ : Queue)).1.result =
          .error (.structural (.unmatched 3)) ∧
        ∃ e, (parseFrom .written (⟨toTokens ts, 5⟩ : Queue)).1.result = .error (.structural e) ∧
          ((∃ q, e = .unmatched q) ∨ (∃ q, e = .unclosed q) ∨ ∃ o q, e = .missingOperand o q)) ∧
      (parseFrom .swapped (⟨toTokens us, 4⟩ : Queue)).1.result = .error (.structural (.unclosed 2)) ∧
        AllOpened (us.map (·.1)) ∧ (parseFrom .swapped (⟨toTokens us, 4⟩ : Queue)).2 = ⟨[], 4⟩ := by
  intro ts us
  have hlone : ¬ AllOpened (ts.map (·.1)) := by
    intro h
    have hone : Nested [.lit .one] := .other nofun nofun .nil
    have hfront : Nested [.lparen, .lit .one, .rparen] := .group hone .nil
    exact hfront.not_hasOpening (h _ [.lparen] rfl)
  have hunmatched : (parseFrom .written (⟨toTokens ts, 5⟩ : Queue)).1.result =
      .error (.structural (.unmatched 3)) := result_parseFrom_toTokens .written ts 5
  have hunclosed : (parseFrom .swapped (⟨toTokens us, 4⟩ : Queue)).1.result =
      .error (.structural (.unclosed 2)) := result_parseFrom_toTokens .swapped us 4
  have hts : Yields (⟨toTokens ts, 5⟩ : Queue) ts ⟨[], 5⟩ := Queue.yields ts [] 5
  have hus : Yields (⟨toTokens us, 4⟩ : Queue) us ⟨[], 4⟩ := Queue.yields us [] 4
  obtain ⟨_, _, _, hfound⟩ := parse_matches_parentheses .written hts rfl
  obtain ⟨_, _, hclosed, _⟩ := parse_matches_parentheses .swapped hus rfl
  obtain ⟨hall, _, hleft⟩ := hclosed 2 hunclosed
  exact ⟨⟨hlone, hunmatched, hfound (.inl hlone)⟩, hunclosed, hall, hleft⟩

end ZeroOne
