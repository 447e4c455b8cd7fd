import ZeroOne.Proofs.History
import ZeroOne.Proofs.Parentheses

/-! What waits between two tokens. The operator stack is known from the terminals that were placed: it holds
the open groups, and in each of them the operators that bind tighter the higher they lie. -/
namespace ZeroOne

open Grammar (Unclosed literals operators)

theorem Operator.precedence_lt (o : Operator) : o.precedence < 3 := by
  cases o <;> decide

namespace Grammar

/-- Nested words in which each operator outside of all groups has at least a given precedence. -/
inductive Tight (n : Nat) : List Terminal → Prop
  | nil : Tight n []
  | lit {l : Literal} {w : List Terminal} : Tight n w → Tight n (.lit l :: w)
  | op {o : Operator} {w : List Terminal} : n ≤ o.precedence → Tight n w → Tight n (.op o :: w)
  | group {v w : List Terminal} : Nested v → Tight n w → Tight n (.lparen :: v ++ .rparen :: w)

namespace Tight

variable {m n : Nat} {u v w : List Terminal}

theorem nested (h : Tight n w) : Nested w := by
  induction h with
  | nil => exact .nil
  | lit _ ih => exact .other nofun nofun ih
  | op _ _ ih => exact .other nofun nofun ih
  | group hv _ ih => exact .group hv ih

theorem mono (h : Tight n w) (hm : m ≤ n) : Tight m w := by
  induction h with
  | nil => exact .nil
  | lit _ ih => exact .lit ih
  | op ho _ ih => exact .op (hm.trans ho) ih
  | group hv _ ih => exact .group hv ih

theorem append (hv : Tight n v) (hw : Tight n w) : Tight n (v ++ w) := by
  induction hv with
  | nil => exact hw
  | lit _ ih => exact .lit ih
  | op ho _ ih => exact .op ho ih
  | group hv _ ih =>
    rw [List.append_assoc]
    exact .group hv ih

/-- An operator with a nested word behind it stands outside of all groups. -/
theorem le_precedence {o : Operator} (h : Tight n w) (hw : w = u ++ .op o :: v) (hv : Nested v) :
    n ≤ o.precedence := by
  induction h generalizing u with
  | nil => cases u <;> cases hw
  | lit _ ih =>
    rcases List.cons_eq_append_iff.1 hw with ⟨_, hcons⟩ | ⟨u, rfl, hrest⟩
    · cases hcons
    · exact ih hrest
  | op ho _ ih =>
    rcases List.cons_eq_append_iff.1 hw with ⟨_, hcons⟩ | ⟨u, rfl, hrest⟩
    · cases hcons
      exact ho
    · exact ih hrest
  | @group a b ha _ ih =>
    rcases entries_cases hw with ⟨_, heq⟩ | ⟨c, rfl, hc⟩ | ⟨c, hc, rfl⟩
    · cases heq
    · exact ih hc
    · rcases List.cons_eq_append_iff.1 hc with ⟨_, hcons⟩ | ⟨u, rfl, rfl⟩
      · cases hcons
      · -- The parenthesis that closes the group would have its partner behind the operator.
        obtain ⟨x, y, rfl, hy⟩ := hv.allOpened c b rfl
        have hclosing : HasClosing y := ha.allClosed (u ++ .op o :: x) y (by simp)
        exact absurd hclosing hy.not_hasClosing

end Tight
end Grammar

open Grammar (Tight)

namespace Pending

theorem source_inj {q r : Pending} (h : q.source = r.source) : q = r := by
  cases q <;> cases r <;> cases h <;> rfl

/-- Operators of at least this precedence are reduced before an entry is put on the stack; before a
group none is. -/
def level : Pending → Nat
  | .operator o _ => o.precedence
  | .group _ => 3

theorem level_le (q : Pending) : q.level ≤ 3 := by
  cases q with
  | operator o p => exact o.precedence_lt.le
  | group p => exact Nat.le_refl 3

/-- An operator stays under what reduces a given precedence if it binds less tight; a group always does. -/
def Under (n : Nat) : Pending → Prop
  | .operator o _ => o.precedence < n
  | .group _ => True

end Pending

/-- No entry that stays has its token in a tight word, with a nested word behind it. -/
theorem Grammar.Tight.not_under {n : Nat} {q : Pending} {ts us : List (Terminal × Int)}
    (h : Tight n ((ts ++ q.source :: us).map (·.1))) (hu : Nested (us.map (·.1))) : ¬ q.Under n := by
  rw [List.map_append, List.map_cons] at h
  cases q with
  | operator o p => exact Nat.not_lt.2 (h.le_precedence rfl hu)
  | group p =>
    have hclosing : HasClosing (us.map (·.1)) := h.nested.allClosed _ _ rfl
    exact absurd hclosing hu.not_hasClosing

/-- What waits behind some terminals: groups that are open, and operators behind which all of their
group binds tighter. -/
inductive Waits : Nat → List (Terminal × Int) → List Pending → Prop
  | nil {n : Nat} {us : List (Terminal × Int)} : Tight n (us.map (·.1)) → Waits n us []
  | entry {n : Nat} {q : Pending} {ts us : List (Terminal × Int)} {pending : List Pending} :
    Waits q.level ts pending → q.Under n → Tight n (us.map (·.1)) →
      Waits n (ts ++ q.source :: us) (q :: pending)

namespace Waits

variable {n : Nat} {q : Pending} {ts us : List (Terminal × Int)}
  {pending pending' above below : List Pending}

theorem append (h : Waits n ts pending) (hu : Tight n (us.map (·.1))) : Waits n (ts ++ us) pending := by
  cases h with
  | nil ht =>
    refine .nil ?_
    rw [List.map_append]
    exact ht.append hu
  | entry h hq hv =>
    rw [List.append_assoc, List.cons_append]
    refine .entry h hq ?_
    rw [List.map_append]
    exact hv.append hu

theorem tight (h : Waits n ts []) : Tight n (ts.map (·.1)) := by
  cases h with
  | nil ht => exact ht

theorem exists_last (h : Waits n ts (q :: pending)) :
    ∃ us vs, ts = us ++ q.source :: vs ∧ Waits q.level us pending ∧ q.Under n ∧
      Tight n (vs.map (·.1)) := by
  cases h with
  | entry h hq hv => exact ⟨_, _, rfl, h, hq, hv⟩

/-- What waits is known from the terminals. -/
theorem unique (h : Waits n ts pending) (h' : Waits n ts pending') : pending = pending' := by
  induction h generalizing pending' with
  | nil ht =>
    cases pending' with
    | nil => rfl
    | cons r pending' =>
      obtain ⟨us, vs, rfl, _, hr, hv⟩ := h'.exists_last
      exact absurd hr (ht.not_under hv.nested)
  | @entry n q us vs pending _ hq hv ih =>
    cases pending' with
    | nil => exact absurd hq (h'.tight.not_under hv.nested)
    | cons r pending' =>
      obtain ⟨us', vs', hsplit, hbelow, hr, hv'⟩ := h'.exists_last
      -- The topmost entries are the same, or one of them stands behind the other.
      rcases Grammar.entries_cases hsplit with ⟨rfl, hsource⟩ | ⟨c, _, rfl⟩ | ⟨c, _, rfl⟩
      · obtain rfl := Pending.source_inj hsource
        exact congrArg (q :: ·) (ih hbelow)
      · exact absurd hr (hv.not_under hv'.nested)
      · exact absurd hq (hv'.not_under hv.nested)

/-- What waits stands in the text in the order in which it lies on the stack. -/
theorem sublist (h : Waits n ts pending) : (pending.reverse.map Pending.source).Sublist ts := by
  induction h with
  | nil _ => exact List.nil_sublist _
  | @entry n q ts us pending _ _ _ ih =>
    have hlast : [q.source].Sublist (q.source :: us) := (List.nil_sublist us).cons_cons q.source
    rw [List.reverse_cons, List.map_append]
    exact ih.append hlast

theorem exists_below (h : Waits n ts (above ++ below)) (hn : n ≤ 3) :
    ∃ m us, m ≤ 3 ∧ Waits m us below := by
  induction above generalizing n ts with
  | nil => exact ⟨n, ts, hn, h⟩
  | cons q above ih =>
    obtain ⟨us, _, _, hbelow, _⟩ := h.exists_last
    exact ih hbelow q.level_le

/-- Operators that lie one on the other bind tighter the higher they lie, and so there are few of them. -/
theorem climbing {run : List (Operator × Int)}
    (h : Waits n ts (run.map (fun w => .operator w.1 w.2) ++ below)) :
    run.Pairwise (fun upper lower => lower.1.precedence < upper.1.precedence) ∧
      (∀ w ∈ run, w.1.precedence < n) ∧ run.length ≤ n := by
  induction run generalizing n ts with
  | nil => exact ⟨.nil, nofun, Nat.zero_le n⟩
  | cons w run ih =>
    obtain ⟨us, _, _, hbelow, hlt, _⟩ := h.exists_last
    change w.1.precedence < n at hlt
    obtain ⟨hclimb, hlow, hlength⟩ := ih hbelow
    change ∀ v ∈ run, v.1.precedence < w.1.precedence at hlow
    change run.length ≤ w.1.precedence at hlength
    refine ⟨.cons hlow hclimb, fun v hv => ?_, ?_⟩
    · rcases List.mem_cons.1 hv with rfl | hv
      · exact hlt
      · exact (hlow v hv).trans hlt
    · rw [List.length_cons]
      omega

end Waits

namespace Stacks

variable {order : OperandOrder} {s s' : Stacks} {ts us : List (Terminal × Int)} {t : Terminal} {p : Int}

/-- Reductions take away the operators that bind too tight to wait any longer. -/
theorem waits_of_reduceWhile {m n : Nat} {pending : List Pending} {operands : List Tree}
    (h : Waits n ts pending) (hm : m ≤ n)
    (hr : (reduceWhile order (fun top => m ≤ top.precedence) pending operands).result = .ok s) :
    Waits m ts s.pending := by
  induction h generalizing m operands with
  | nil hu =>
    cases hr
    exact .nil (hu.mono hm)
  | @entry n q ts us pending h hq hu ih =>
    cases q with
    | group p =>
      cases hr
      exact .entry h trivial (hu.mono hm)
    | operator o p =>
      rw [reduceWhile] at hr
      by_cases ho : m ≤ o.precedence
      · rw [if_pos (decide_eq_true ho), Traced.result_bind_eq_ok_iff] at hr
        obtain ⟨operands', _, hr⟩ := hr
        -- The operator and all behind it now stand behind what lies below it.
        have hbehind : Tight m (((.op o, p) :: us : List (Terminal × Int)).map (·.1)) := .op ho (hu.mono hm)
        exact (ih ho hr).append hbehind
      · rw [if_neg (by simpa using ho)] at hr
        cases hr
        exact .entry h (Nat.lt_of_not_le ho) (hu.mono hm)

theorem waits_of_place (hs : Waits 3 us s.pending) (h : (s.place order t p).result = .ok s') :
    Waits 3 (us ++ [(t, p)]) s'.pending := by
  cases t with
  | lit l =>
    cases h
    exact hs.append (.lit .nil)
  | lparen =>
    cases h
    exact .entry (q := .group p) hs trivial .nil
  | op o =>
    obtain ⟨r, hr, rfl⟩ := place_op_eq_ok h
    have hr' : Waits o.precedence us r.pending := waits_of_reduceWhile hs o.precedence_lt.le hr
    exact .entry (q := .operator o p) hr' o.precedence_lt .nil
  | rparen =>
    obtain ⟨q, hr⟩ := place_rparen_eq_ok h
    have hall : (fun _ : Operator => true) = fun top => decide (0 ≤ top.precedence) := by
      funext top
      simp
    rw [hall] at hr
    have hr' : Waits 0 us (.group q :: s'.pending) := waits_of_reduceWhile hs (Nat.zero_le 3) hr
    obtain ⟨us, vs, rfl, hbelow, _, hv⟩ := hr'.exists_last
    have hgroup : Tight 3 (((.lparen, q) :: vs ++ [(.rparen, p)] : List (Terminal × Int)).map (·.1)) := by
      rw [List.map_append]
      exact .group hv.nested .nil
    rw [List.append_assoc]
    exact hbelow.append hgroup

theorem waits_of_placeAll (hs : Waits 3 us s.pending) (h : (s.placeAll order ts).result = .ok s') :
    Waits 3 (us ++ ts) s'.pending :=
  placeAll_keeps (P := fun us s => Waits 3 us s.pending) waits_of_place hs h

/-- Each reduction takes one operand away. -/
theorem length_of_reduceWhile {due : Operator → Bool} {pending : List Pending} {operands : List Tree}
    (h : (reduceWhile order due pending operands).result = .ok s) :
    s.operands.length + (reduceWhile order due pending operands).events.length = operands.length := by
  induction pending generalizing operands with
  | nil =>
    cases h
    rfl
  | cons q pending ih =>
    cases q with
    | group p =>
      cases h
      rfl
    | operator o p =>
      unfold reduceWhile at h ⊢
      by_cases ho : due o
      · rw [if_pos ho] at h ⊢
        obtain ⟨operands', hr, hrest, hevents⟩ := Traced.exists_of_result_bind h
        obtain ⟨l, r, below, rfl, rfl⟩ := reduce_eq_ok hr
        have hone : (reduce order o p (r :: l :: below)).events.length = 1 := rfl
        have hlength := ih hrest
        rw [List.length_cons] at hlength
        rw [hevents, List.length_append, hone, List.length_cons, List.length_cons]
        omega
      · rw [if_neg ho] at h ⊢
        cases h
        rfl

theorem length_of_place (h : (s.place order t p).result = .ok s') :
    s'.operands.length + (s.place order t p).events.length = s.operands.length + (literals [t]).length := by
  cases t with
  | lit l =>
    cases h
    rfl
  | lparen =>
    cases h
    rfl
  | op o =>
    obtain ⟨r, hr, rfl⟩ := place_op_eq_ok h
    have hlength := length_of_reduceWhile hr
    rw [events_place_op]
    exact hlength
  | rparen =>
    obtain ⟨q, hr⟩ := place_rparen_eq_ok h
    have hlength := length_of_reduceWhile hr
    rw [events_place_rparen]
    exact hlength

theorem length_of_placeAll (h : (s.placeAll order ts).result = .ok s') :
    s'.operands.length + (s.placeAll order ts).events.length =
      s.operands.length + (literals (ts.map (·.1))).length := by
  induction ts generalizing s with
  | nil =>
    cases h
    rfl
  | cons t ts ih =>
    rw [placeAll_cons] at h ⊢
    obtain ⟨r, hr, hrest, hevents⟩ := Traced.exists_of_result_bind h
    have hplace := length_of_place hr
    have hsplit : literals ((t :: ts).map (·.1)) = literals [t.1] ++ literals (ts.map (·.1)) :=
      List.filterMap_append (l := [t.1])
    have hlength := ih hrest
    rw [hevents, hsplit, List.length_append, List.length_append]
    omega

theorem reduces_placeAll (s : Stacks) (ts : List (Terminal × Int)) : (s.placeAll order ts).Reduces := by
  induction ts generalizing s with
  | nil => exact Traced.reduces_of_nil rfl
  | cons t ts ih => exact (reduces_place s t.1 t.2).bind ih

end Stacks

/-- The stacks between two tokens are known from the terminals placed so far, and a parse goes on from
them. -/
theorem stacks_between_tokens {σ : Type} [TokenSource σ] {order : OperandOrder} {source source' : σ}
    {ts : List (Terminal × Int)} {es : List Event} {s : Stacks} (hy : Yields source ts source')
    (hs : Stacks.start.placeAll order ts = ⟨es, .ok s⟩) :
    (∃ fs, es.Sublist fs ∧
        parseFrom order source = ((s.read order source').1.after fs, (s.read order source').2)) ∧
      (∀ pending, Waits 3 ts pending ↔ pending = s.pending) ∧
      Unclosed ts s.groups.reverse ∧
      (s.pending.reverse.map Pending.source).Sublist ts ∧
      (∀ run : List (Operator × Int), run.map (fun w => .operator w.1 w.2) <:+: s.pending →
        run.Pairwise (fun upper lower => lower.1.precedence < upper.1.precedence) ∧ run.length ≤ 3) ∧
      (∀ e ∈ es, e.IsReduction) ∧
      s.operands.length + es.length = (literals (ts.map (·.1))).length ∧
      (s.pending.filterMap Pending.operator?).length + es.length =
        (operators (ts.map (·.1))).length := by
  have hok : (Stacks.start.placeAll order ts).result = .ok s := congrArg Traced.result hs
  have hwaits : Waits 3 ts s.pending := by
    have hstart : Waits 3 [] Stacks.start.pending := .nil .nil
    exact Stacks.waits_of_placeAll hstart hok
  have hlength := Stacks.length_of_placeAll hok
  rw [hs] at hlength
  have hoperands : s.operands.length + es.length = (literals (ts.map (·.1))).length := by
    rw [hlength]
    exact Nat.zero_add _
  have hreductions : ∀ e ∈ es, e.IsReduction :=
    Stacks.events_reductions (Stacks.reduces_placeAll .start ts) hs
  refine ⟨Stacks.exists_read_eq_after hy hs, fun pending => ⟨fun h => h.unique hwaits, ?_⟩,
    (Stacks.opens_of_placeAll_start hok).unclosed, hwaits.sublist, fun run hrun => ?_, hreductions,
    hoperands, ?_⟩
  · rintro rfl
    exact hwaits
  · obtain ⟨above, below, hsplit⟩ := hrun
    rw [← hsplit, List.append_assoc] at hwaits
    obtain ⟨m, us, hm, hrun⟩ := hwaits.exists_below (Nat.le_refl 3)
    obtain ⟨hclimb, _, hfew⟩ := hrun.climbing
    exact ⟨hclimb, hfew.trans hm⟩
  · have hsurplus := Stacks.surplus_of_placeAll hok
    rw [Grammar.surplus_eq] at hsurplus
    change (s.operands.length : Int) - (s.pending.filterMap Pending.operator?).length =
      0 + ((literals (ts.map (·.1))).length - (operators (ts.map (·.1))).length) at hsurplus
    omega

/-- Two operators wait below an open group and two in it, where a product was reduced. -/
theorem stacks_between_tokens_climbing :
    let ts : List (Terminal × Int) := [(.lit .one, 0), (.op .or, 2), (.lit .zero, 5), (.op .add, 7),
      (.lparen, 9), (.lit .one, 10), (.op .mul, 12), (.lit .zero, 14), (.op .add, 16), (.lit .one, 18),
      (.op .mul, 20)]
    let s : Stacks := ⟨[.operator .mul 20, .operator .add 16, .group 9, .operator .add 7, .operator .or 2],
      [.number 1, .mul (.number 1) (.number 0), .number 0, .number 1]⟩
    let es := [Event.reduce .mul (.mul (.number 1) (.number 0))]
    Yields (Lexer.ofText (Text.ofString "1 || 0 + (1 * 0 + 1 *")) ts ⟨[], 21⟩ ∧
      Stacks.start.placeAll .written ts = ⟨es, .ok s⟩ ∧
      Waits 3 ts s.pending ∧ Unclosed ts [9] ∧
      [(Operator.mul, (20 : Int)), (.add, 16)].Pairwise
        (fun upper lower => lower.1.precedence < upper.1.precedence) ∧
      s.operands.length + es.length = (literals (ts.map (·.1))).length := by
  intro ts s es
  have hread : Yields (Lexer.ofText (Text.ofString "1 || 0 + (1 * 0 + 1 *")) ts ⟨[], 21⟩ :=
    .token rfl (.token rfl (.token rfl (.token rfl (.token rfl (.token rfl (.token rfl (.token rfl
      (.token rfl (.token rfl (.token rfl (.done _)))))))))))
  have hplace : Stacks.start.placeAll .written ts = ⟨es, .ok s⟩ := rfl
  obtain ⟨_, hwaits, hunclosed, _, hclimb, _, hoperands, _⟩ := stacks_between_tokens hread hplace
  exact ⟨hread, hplace, (hwaits _).2 rfl, hunclosed, (hclimb _ ⟨[], _, rfl⟩).1, hoperands⟩

end ZeroOne
