import ZeroOne.Proofs.EmptyGroups
import ZeroOne.Proofs.Layers
import ZeroOne.Proofs.Surplus

/-! What the parser accepts. Beside the words of the grammar these are words with empty groups and words
in which operands stand side by side. -/
namespace ZeroOne

namespace Grammar

theorem separated_append {v w : List Terminal} (o : Operator) (hv : Separated v) (hw : Separated w) :
    Separated (v ++ .op o :: w) := by
  have hop : Separated (.op o :: w) := separated_cons_iff.2 ⟨nofun, hw⟩
  refine List.isChain_append.2 ⟨hv, hop, ?_⟩
  rintro t _ u ⟨⟩ ⟨_, hu⟩
  cases hu

theorem Derivable.separated {layer : Layer} {w : List Terminal} (h : Derivable layer w) :
    Separated w := by
  induction h with
  | literal l => exact List.isChain_singleton _
  | @group w _ ih =>
    have hclose : Separated (w ++ [.rparen]) := by
      refine List.isChain_append.2 ⟨ih, List.isChain_singleton _, ?_⟩
      rintro t _ u ⟨⟩ ⟨_, hu⟩
      cases hu
    exact separated_cons_iff.2 ⟨nofun, hclose⟩
  | factor _ ih => exact ih
  | product _ _ ihv ihw => exact separated_append .mul ihv ihw
  | term _ ih => exact ih
  | sum _ _ _ ihv ihw => exact separated_append _ ihv ihw

theorem length_outerOperators (order : OperandOrder) (outer : List Frame) :
    ((outerOperators outer).filterMap fun o => o).length = (outerOperands order outer).length := by
  induction outer with
  | nil => rfl
  | cons f outer ih => simp [outerOperators, outerOperands, ih]

end Grammar

namespace Stacks

open Grammar (Frame Reading Separated separated_cons_iff read?)

variable {order : OperandOrder} {r : Reading} {s s' : Stacks}

/-- Where an operand is due every operand waits for an operator. -/
theorem surplus_of_held {here : Frame} {outer : List Frame}
    (hs : (Reading.operandDue here outer).HeldBy order s) : s.surplus = 0 := by
  cases hs with
  | @operandDue _ _ pending hp =>
    have hpending : pending.filterMap Pending.operator? =
        (pending.map Pending.operator?).filterMap fun o => o := by
      rw [List.filterMap_map]
      rfl
    rw [surplus, hpending, hp]
    simp [Grammar.length_outerOperators order]

theorem endsOperand_of_step {t : Terminal} {here : Frame} {x : Tree} {outer : List Frame}
    (h : r.step? t = some (.operatorDue here x outer)) : t.endsOperand := by
  cases t with
  | lit l => rfl
  | rparen => rfl
  | lparen => cases r <;> cases h
  | op o => cases r <;> cases h

/-- Outside of all groups there is none to close. -/
theorem not_place_rparen {here : Frame} {x : Tree} {p : Int}
    (hs : (Reading.operatorDue here x []).HeldBy order s) :
    (s.place order .rparen p).result ≠ .ok s' := by
  intro h
  obtain ⟨q, hq⟩ := place_rparen_eq_ok h
  cases hs with
  | operatorDue hpending =>
    obtain ⟨rest, hrest, hnil⟩ := reduceGroup_of_held order x hpending
    obtain rfl := List.map_eq_nil_iff.1 hnil
    rw [hrest] at hq
    cases hq

/-- If no operand follows on another one, a terminal that the parser accepts can come next. -/
theorem exists_step {t : Terminal} {q p : Int} {ts : List (Terminal × Int)} {u : Tree}
    (hs : r.HeldBy order s) (hw : Separated (t :: ts.map (·.1)))
    (hr : ∀ here x outer, r = .operatorDue here x outer → t.startsOperand = false)
    (h : (s.placeAll order ((t, q) :: ts)).result = .ok s')
    (hf : (s'.finish order p).result = .ok u) : ∃ r', r.step? t = some r' := by
  cases r with
  | operandDue here outer =>
    by_cases ht : t.startsOperand
    · cases t with
      | lit l => exact ⟨_, rfl⟩
      | lparen => exact ⟨_, rfl⟩
      | op o => cases ht
      | rparen => cases ht
    · -- An operand is missing here, and none of those behind is without an operator of its own.
      exfalso
      have hle := hw.surplus_le
      have hsum : s'.surplus = s.surplus + Grammar.surplus (t :: ts.map (·.1)) :=
        surplus_of_placeAll h
      rw [surplus_of_held hs, surplus_of_finish hf] at hsum
      rw [List.head?_cons, Option.any_some, if_neg ht] at hle
      omega
  | operatorDue here x outer =>
    have ht := hr here x outer rfl
    cases t with
    | lit l => cases ht
    | lparen => cases ht
    | op o => exact ⟨_, rfl⟩
    | rparen =>
      cases outer with
      | cons around outer => exact ⟨_, rfl⟩
      | nil =>
        rw [placeAll_cons, Traced.result_bind_eq_ok_iff] at h
        obtain ⟨s'', hp, _⟩ := h
        exact absurd hp (not_place_rparen hs)

theorem exists_steps {p : Int} {u : Tree} (ts : List (Terminal × Int)) (hs : r.HeldBy order s)
    (hw : Separated (ts.map (·.1)))
    (hr : ∀ here x outer, r = .operatorDue here x outer →
      ∀ t, (ts.map (·.1)).head? = some t → t.startsOperand = false)
    (h : (s.placeAll order ts).result = .ok s') (hf : (s'.finish order p).result = .ok u) :
    ∃ t, (r.steps? (ts.map (·.1))).bind Reading.result? = some t ∧ u = order.arrange t := by
  induction ts generalizing r s with
  | nil =>
    cases h
    cases r with
    | operandDue here outer =>
      have h0 := surplus_of_held hs
      have h1 := surplus_of_finish hf
      omega
    | operatorDue here x outer =>
      obtain ⟨hclosed, hopen⟩ := finish_of_held p hs
      by_cases ho : outer = []
      · subst ho
        refine ⟨_, rfl, ?_⟩
        rw [hclosed rfl] at hf
        exact (Except.ok.inj hf).symm
      · obtain ⟨q, hq⟩ := hopen ho
        rw [hq] at hf
        cases hf
  | cons t ts ih =>
    obtain ⟨t, q⟩ := t
    have hstep : ∃ r', r.step? t = some r' :=
      exists_step hs hw (fun here x outer hd => hr here x outer hd t rfl) h hf
    obtain ⟨r', hr'⟩ := hstep
    obtain ⟨s'', hp, hs'⟩ := place_of_step q hs hr'
    rw [placeAll_cons, Traced.result_bind, hp] at h
    obtain ⟨hends, hw'⟩ := separated_cons_iff.1 hw
    rw [List.map_cons, Reading.steps?_cons, hr']
    refine ih hs' hw' (fun here x outer hd => ?_) h
    subst hd
    exact hends (endsOperand_of_step hr')

theorem read?_of_placeAll {p : Int} {t : Tree} (ts : List (Terminal × Int))
    (hw : Separated (ts.map (·.1))) (h : (start.placeAll .written ts).result = .ok s)
    (hf : (s.finish .written p).result = .ok t) : read? (ts.map (·.1)) = some t := by
  obtain ⟨u, hu, rfl⟩ := exists_steps ts start_held hw nofun h hf
  exact hu

end Stacks

open Grammar in
/-- A text with a tree, its empty groups dropped, is grammatical if and only if no operand follows
directly on another. -/
theorem parse_sound {text : Text} {t : Tree} (h : (parse .written text).result = .ok t) :
    ∃ tokens, (tokenize text).result = .ok tokens ∧
      t.leaves = (terminals tokens).filterMap Terminal.leaf? ∧
      (Derivable .expr (dropGroups (terminals tokens)) ↔ Separated (dropGroups (terminals tokens))) ∧
      (Separated (dropGroups (terminals tokens)) → Derives 0 (dropGroups (terminals tokens)) t) := by
  obtain ⟨ts, source, es, p, last, s, hy, hn, hp, hf⟩ := Stacks.read_eq_ok_iff.1 h
  refine ⟨_, Lexer.tokens_of_yields hy hn, ?_⟩
  rw [terminals_append_eof]
  obtain ⟨us, hus, hresult⟩ := Stacks.exists_placeAll_dropGroups .written ts
  have hleaves : t.leaves = (ts.map (·.1)).filterMap Terminal.leaf? := by
    rw [Stacks.leaves_of_finish hf, Stacks.leaves_of_placeAll hp]
    rfl
  have hderives : Separated (dropGroups (ts.map (·.1))) → Derives 0 (dropGroups (ts.map (·.1))) t := by
    intro hw
    rw [← hus] at hw ⊢
    exact read?_eq_some_iff.1 (Stacks.read?_of_placeAll us hw ((hresult _).trans hp) hf)
  exact ⟨hleaves, ⟨Derivable.separated, fun hw => derivable_iff_grammatical.2 ⟨t, hderives hw⟩⟩, hderives⟩

open Grammar in
theorem parse_sound_empty_group :
    (parse .written (.ofString "1 () + 0")).result = .ok (.add (.number 1) (.number 0)) ∧
      Derives 0 [.lit .one, .op .add, .lit .zero] (.add (.number 1) (.number 0)) := by
  have hy : Yields (Lexer.ofText (.ofString "1 () + 0"))
      [(.lit .one, 0), (.lparen, 2), (.rparen, 3), (.op .add, 5), (.lit .zero, 7)] ⟨[], 8⟩ :=
    .token rfl (.token rfl (.token rfl (.token rfl (.token rfl (.done _)))))
  have hn : TokenSource.next (⟨[], 8⟩ : Lexer) = (⟨[], .ok ⟨.eof, 8⟩⟩, ⟨[], 8⟩) := rfl
  have h : (parse .written (.ofString "1 () + 0")).result = .ok (.add (.number 1) (.number 0)) :=
    Stacks.read_eq_ok_iff.2 ⟨_, _, _, _, _, _, hy, hn, rfl, rfl⟩
  obtain ⟨tokens, ht, _, _, hd⟩ := parse_sound h
  obtain rfl := Except.ok.inj ((Lexer.tokens_of_yields hy hn).symm.trans ht)
  have hw : Separated [.lit .one, .op .add, .lit .zero] := by
    simp [Separated, Terminal.endsOperand, Terminal.startsOperand]
  exact ⟨h, hd hw⟩

open Grammar in
/-- Operands that stand side by side are accepted if operators come for them later. -/
theorem parse_side_by_side :
    (parse .written (.ofString "1 1 +")).result = .ok (.add (.number 1) (.number 1)) ∧
      ∃ tokens, (tokenize (.ofString "1 1 +")).result = .ok tokens ∧
        dropGroups (terminals tokens) = [.lit .one, .lit .one, .op .add] ∧
        ¬ Derivable .expr (dropGroups (terminals tokens)) := by
  have hy : Yields (Lexer.ofText (.ofString "1 1 +"))
      [(.lit .one, 0), (.lit .one, 2), (.op .add, 4)] ⟨[], 5⟩ :=
    .token rfl (.token rfl (.token rfl (.done _)))
  have hn : TokenSource.next (⟨[], 5⟩ : Lexer) = (⟨[], .ok ⟨.eof, 5⟩⟩, ⟨[], 5⟩) := rfl
  have hw : ¬ Derivable .expr [.lit .one, .lit .one, .op .add] := by
    intro h
    have hs := (separated_cons_iff.1 h.separated).1 rfl (.lit .one) rfl
    cases hs
  refine ⟨Stacks.read_eq_ok_iff.2 ⟨_, _, _, _, _, _, hy, hn, rfl, rfl⟩, ?_⟩
  exact ⟨_, Lexer.tokens_of_yields hy hn, rfl, hw⟩

end ZeroOne
