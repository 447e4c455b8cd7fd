import ZeroOne.Proofs.Reader

/-! Which token an error is about. As long as tokens are read, an error names one of those that were
read; only at the end of the input can an error name none. -/
namespace ZeroOne

def Pending.source : Pending → Terminal × Int
  | .operator o p => (.op o, p)
  | .group p => (.lparen, p)

def ParseError.Names (e : ParseError) (t : Terminal × Int) : Prop :=
  e.token? = some ⟨.terminal t.1, t.2⟩

theorem ParseError.Names.pos_eq {e : ParseError} {t : Terminal × Int} (h : e.Names t) : e.pos = t.2 := by
  cases e with
  | missingOperand | unmatched | unclosed => exact congrArg Token.pos (Option.some.inj h)
  | empty | several => cases h

namespace Stacks

variable {order : OperandOrder} {s s' : Stacks} {e : ParseError}

theorem missingOperand_of_reduceWhile {due : Operator → Bool} {pending : List Pending}
    {operands : List Tree} (h : (reduceWhile order due pending operands).result = .error e) :
    ∃ o q, .operator o q ∈ pending ∧ e = .missingOperand o q := by
  induction pending generalizing operands with
  | nil => cases h
  | cons q pending ih =>
    cases q with
    | group _ => cases h
    | operator o p =>
      rw [reduceWhile] at h
      by_cases ho : due o
      · rw [if_pos ho, Traced.result_bind_eq_error_iff] at h
        rcases h with hr | ⟨operands', _, h⟩
        · exact ⟨o, p, List.mem_cons_self, reduce_eq_error hr⟩
        · obtain ⟨o', q, hq, he⟩ := ih h
          exact ⟨o', q, List.mem_cons_of_mem _ hq, he⟩
      · rw [if_neg ho] at h
        cases h

theorem pending_suffix_of_reduceWhile {due : Operator → Bool} {pending : List Pending}
    {operands : List Tree} (h : (reduceWhile order due pending operands).result = .ok s) :
    s.pending <:+ pending := by
  induction pending generalizing operands with
  | nil =>
    cases h
    exact List.suffix_rfl
  | cons q pending ih =>
    cases q with
    | group _ =>
      cases h
      exact List.suffix_rfl
    | operator o p =>
      rw [reduceWhile] at h
      by_cases ho : due o
      · rw [if_pos ho, Traced.result_bind_eq_ok_iff] at h
        obtain ⟨_, _, h⟩ := h
        exact (ih h).trans (List.suffix_cons _ _)
      · rw [if_neg ho] at h
        cases h
        exact List.suffix_rfl

/-- What waits behind a terminal waited before, or is the terminal itself. -/
theorem mem_pending_of_place {t : Terminal} {p : Int} (h : (s.place order t p).result = .ok s')
    {q : Pending} (hq : q ∈ s'.pending) : q ∈ s.pending ∨ q.source = (t, p) := by
  cases t with
  | lit l =>
    cases h
    exact .inl hq
  | lparen =>
    cases h
    rcases List.mem_cons.1 hq with rfl | hq
    · exact .inr rfl
    · exact .inl hq
  | op o =>
    obtain ⟨r, hr, rfl⟩ := place_op_eq_ok h
    rcases List.mem_cons.1 hq with rfl | hq
    · exact .inr rfl
    · exact .inl ((pending_suffix_of_reduceWhile hr).subset hq)
  | rparen =>
    obtain ⟨_, hr⟩ := place_rparen_eq_ok h
    exact .inl ((pending_suffix_of_reduceWhile hr).subset (List.mem_cons_of_mem _ hq))

theorem mem_pending_of_placeAll {ts : List (Terminal × Int)}
    (h : (s.placeAll order ts).result = .ok s') {q : Pending} (hq : q ∈ s'.pending) :
    q ∈ s.pending ∨ q.source ∈ ts := by
  induction ts generalizing s with
  | nil =>
    cases h
    exact .inl hq
  | cons t ts ih =>
    rw [placeAll_cons, Traced.result_bind_eq_ok_iff] at h
    obtain ⟨r, hp, h⟩ := h
    rcases ih h with hr | hts
    · rcases mem_pending_of_place hp hr with hs | ht
      · exact .inl hs
      · right
        rw [ht]
        exact List.mem_cons_self
    · exact .inr (List.mem_cons_of_mem _ hts)

/-- A terminal is in error if a reduction is, or if it closes a group and none is open. -/
theorem place_eq_error {t : Terminal} {p : Int} (h : (s.place order t p).result = .error e) :
    (∃ o q, .operator o q ∈ s.pending ∧ e = .missingOperand o q) ∨
      t = .rparen ∧ e = .unmatched p ∧
        ∃ trees, (reduceWhile order (fun _ => true) s.pending s.operands).result = .ok ⟨[], trees⟩ := by
  cases t with
  | lit l => cases h
  | lparen => cases h
  | op o =>
    rw [place, Traced.result_bind_eq_error_iff] at h
    rcases h with hr | ⟨r, _, h⟩
    · exact .inl (missingOperand_of_reduceWhile hr)
    · cases h
  | rparen =>
    rw [place, Traced.result_bind] at h
    rcases reduceAll_cases order s.pending s.operands with ⟨o, q, hq, hr⟩ | ⟨trees, hr⟩ | ⟨q, _, _, hr⟩
    all_goals rw [hr] at h
    · exact .inl ⟨o, q, hq, (Except.error.inj h).symm⟩
    · exact .inr ⟨rfl, (Except.error.inj h).symm, trees, hr⟩
    · cases h

/-- An error on the way names a terminal that was placed on the way, or that waited before. -/
theorem names_of_placeAll {ts : List (Terminal × Int)}
    (h : (s.placeAll order ts).result = .error e) :
    (∃ t ∈ ts, e.Names t) ∨ ∃ q ∈ s.pending, e.Names q.source := by
  obtain ⟨us, t, vs, r, rfl, hus, ht⟩ := exists_place_eq_error h
  rcases place_eq_error ht with ⟨o, p, hq, rfl⟩ | ⟨hclose, rfl, _⟩
  · rcases mem_pending_of_placeAll hus hq with hq | hq
    · exact .inr ⟨_, hq, rfl⟩
    · exact .inl ⟨_, List.mem_append_left _ hq, rfl⟩
  · refine .inl ⟨t, List.mem_append_right _ List.mem_cons_self, ?_⟩
    rw [ParseError.Names, hclose]
    rfl

theorem names_of_placeAll_start {ts : List (Terminal × Int)}
    (h : (start.placeAll order ts).result = .error e) : ∃ t ∈ ts, e.Names t := by
  rcases names_of_placeAll h with hn | ⟨q, hq, _⟩
  · exact hn
  · cases hq

/-- An error at the end of the input names what waits, or no token, and then it stands at the end. -/
theorem names_of_finish {p : Int} (h : (s.finish order p).result = .error e) :
    (∃ q ∈ s.pending, e.Names q.source) ∨ e.token? = none ∧ e.pos = p := by
  rcases finish_cases order s p with ⟨o, q, hq, hf⟩ | ⟨trees, hr⟩ | ⟨q, rest, trees, hr, hf⟩
  · rw [hf] at h
    obtain rfl := Except.error.inj h
    exact .inl ⟨_, hq, rfl⟩
  · right
    rw [finish, Traced.result_bind, hr] at h
    rcases trees with _ | ⟨t, _ | ⟨u, trees⟩⟩
    · obtain rfl : .empty p = e := Except.error.inj h
      exact ⟨rfl, rfl⟩
    · cases h
    · obtain rfl : .several (t :: u :: trees).reverse p = e := Except.error.inj h
      exact ⟨rfl, rfl⟩
  · rw [hf] at h
    obtain rfl := Except.error.inj h
    have hsuffix : .group q :: rest <:+ s.pending := pending_suffix_of_reduceWhile hr
    exact .inl ⟨.group q, hsuffix.subset List.mem_cons_self, rfl⟩

/-- An error of a parse from the start names a terminal that was placed, or stands at the end. -/
theorem names_of_finish_start {ts : List (Terminal × Int)} {p : Int}
    (hp : (start.placeAll order ts).result = .ok s) (h : (s.finish order p).result = .error e) :
    (∃ t ∈ ts, e.Names t) ∨ e.token? = none ∧ e.pos = p := by
  rcases names_of_finish h with ⟨q, hq, hn⟩ | hend
  · rcases mem_pending_of_placeAll hp hq with hstart | hts
    · cases hstart
    · exact .inl ⟨q.source, hts, hn⟩
  · exact .inr hend

end Stacks
end ZeroOne
