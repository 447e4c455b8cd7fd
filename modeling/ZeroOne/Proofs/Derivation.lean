import ZeroOne.Grammar.Reading

/-! Reading a word terminal by terminal finds its derivation, and there is at most one. -/
namespace ZeroOne.Grammar

theorem Derives.weaken {p q : Nat} {w : List Terminal} {t : Tree} (h : Derives q w t) (hp : p ≤ q) :
    Derives p w t := by
  induction hp with
  | refl => exact h
  | step _ ih => exact ih (.looser h)

/-- The three operators have the same form of rule, each at the level of its precedence. -/
theorem Derives.operation (o : Operator) {v w : List Terminal} {l r : Tree}
    (hl : Derives o.precedence v l) (hr : Derives (o.precedence + 1) w r) :
    Derives o.precedence (v ++ .op o :: w) (.binary (.op o) l r) := by
  cases o with
  | or => exact .or hl hr
  | add => exact .add hl hr
  | mul => exact .mul hl hr

@[elab_as_elim]
theorem Derives.induction
    {motive : (p : Nat) → (w : List Terminal) → (t : Tree) → Derives p w t → Prop}
    (literal : ∀ l, motive atomic [.lit l] (.ofLiteral l) (.literal l))
    (group : ∀ w t (h : Derives 0 w t), motive 0 w t h →
      motive atomic (.lparen :: w ++ [.rparen]) t (.group h))
    (operation : ∀ (o : Operator) (v w : List Terminal) (l r : Tree) (hl : Derives o.precedence v l)
      (hr : Derives (o.precedence + 1) w r), motive o.precedence v l hl →
      motive (o.precedence + 1) w r hr →
      motive o.precedence (v ++ .op o :: w) (.binary (.op o) l r) (.operation o hl hr))
    (looser : ∀ p w t (h : Derives (p + 1) w t), motive (p + 1) w t h → motive p w t (.looser h))
    {p : Nat} {w : List Terminal} {t : Tree} (h : Derives p w t) : motive p w t h := by
  induction h with
  | literal l => exact literal l
  | group h ih => exact group _ _ h ih
  | or hl hr ihl ihr => exact operation .or _ _ _ _ hl hr ihl ihr
  | add hl hr ihl ihr => exact operation .add _ _ _ _ hl hr ihl ihr
  | mul hl hr ihl ihr => exact operation .mul _ _ _ _ hl hr ihl ihr
  | looser h ih => exact looser _ _ _ h ih

/-- The tree that an operand ends together with the operand that waits for it, if there is one. -/
def joined (o : Operator) : Option Tree → Tree → Tree
  | some l, t => .binary (.op o) l t
  | none, t => t

namespace Frame

theorem product_eq_joined (f : Frame) (t : Tree) : f.product t = joined .mul f.factor t := by
  rw [product]
  cases f.factor <;> rfl

theorem sum_eq_joined (f : Frame) (t : Tree) : f.sum t = joined .add f.summand (f.product t) := by
  rw [sum]
  cases f.summand <;> rfl

theorem disjunction_eq_joined (f : Frame) (t : Tree) :
    f.disjunction t = joined .or f.disjunct (f.sum t) := by
  rw [disjunction]
  cases f.disjunct <;> rfl

/-- The tree that an operand ends when all operators of at least a given precedence are done. -/
def close (f : Frame) : Nat → Tree → Tree
  | 0 => f.disjunction
  | 1 => f.sum
  | 2 => f.product
  | _ => id

def keep (f : Frame) : Nat → Frame
  | 0 => .empty
  | 1 => ⟨f.disjunct, none, none⟩
  | 2 => ⟨f.disjunct, f.summand, none⟩
  | _ => f

def await (f : Frame) (l : Tree) : Operator → Frame
  | .mul => { f with factor := some l }
  | .add => { f with summand := some l }
  | .or => { f with disjunct := some l }

theorem extend_eq_await (f : Frame) (t : Tree) (o : Operator) :
    f.extend t o = (f.keep o.precedence).await (f.close o.precedence t) o := by
  cases o <;> rfl

theorem keep_await {f : Frame} {o : Operator} (h : f.keep o.precedence = f) (l : Tree) :
    (f.await l o).keep (o.precedence + 1) = f.await l o := by
  cases o <;> rw [← h] <;> rfl

/-- Closing one precedence further joins the operand that waits for that operator. -/
theorem close_of_keep_eq_await {f g : Frame} {o : Operator} {l : Tree} (u : Tree)
    (h : g.keep (o.precedence + 1) = f.await l o) :
    g.keep o.precedence = f.keep o.precedence ∧
      g.close o.precedence u = .binary (.op o) l (g.close (o.precedence + 1) u) := by
  cases o <;> simp_all [keep, await, close, product, sum, disjunction, Operator.precedence]

/-- Closing one precedence further changes nothing if no operand waits for that operator. -/
theorem close_of_keep_keep {f g : Frame} {p : Nat} (u : Tree) (h : f.keep p = f)
    (hg : g.keep (p + 1) = f) : g.keep p = f ∧ g.close p u = g.close (p + 1) u := by
  subst hg
  refine ⟨?_, ?_⟩
  · rw [← h]
    match p with
    | 0 | 1 | 2 | p + 3 => rfl
  · obtain ⟨d, s, m⟩ := g
    match p with
    | 0 =>
      obtain rfl : none = d := congrArg disjunct h
      rfl
    | 1 =>
      obtain rfl : none = s := congrArg summand h
      rfl
    | 2 =>
      obtain rfl : none = m := congrArg factor h
      rfl
    | p + 3 => rfl

end Frame

namespace Reading

theorem steps?_append (r : Reading) (v w : List Terminal) :
    r.steps? (v ++ w) = (r.steps? v).bind fun r' => r'.steps? w := by
  simp [steps?, List.foldlM_append, Option.bind_eq_bind]

theorem steps?_cons (r : Reading) (t : Terminal) (w : List Terminal) :
    r.steps? (t :: w) = (r.step? t).bind fun r' => r'.steps? w := by
  simp [steps?, Option.bind_eq_bind]

/-- A derived word is read where an operand is due, and operators that bind less tight go on
waiting. -/
theorem steps?_of_derives {p : Nat} {w : List Terminal} {t : Tree} (h : Derives p w t) :
    ∀ (f : Frame) (outer : List Frame), f.keep p = f →
      ∃ g u, (operandDue f outer).steps? w = some (operatorDue g u outer) ∧
        g.keep p = f ∧ g.close p u = t := by
  induction h using Derives.induction with
  | literal l =>
    intro f outer hf
    exact ⟨f, .ofLiteral l, rfl, hf, rfl⟩
  | group w t _ ih =>
    intro f outer hf
    obtain ⟨g, u, hs, _, hc⟩ := ih .empty (f :: outer) rfl
    refine ⟨f, t, ?_, hf, rfl⟩
    rw [List.cons_append, steps?_cons]
    change (((operandDue .empty (f :: outer)).steps? (w ++ [.rparen]))) = _
    rw [steps?_append, hs]
    change some (operatorDue f (g.close 0 u) outer) = _
    rw [hc]
  | operation o v w l r _ _ ihl ihr =>
    intro f outer hf
    obtain ⟨g, u, hv, hg, hl⟩ := ihl f outer hf
    have hstep : (operatorDue g u outer).step? (.op o) = some (operandDue (f.await l o) outer) := by
      change some (operandDue (g.extend u o) outer) = _
      rw [Frame.extend_eq_await, hg, hl]
    obtain ⟨g', u', hw, hg', hr⟩ := ihr (f.await l o) outer (Frame.keep_await hf l)
    obtain ⟨hk, hc⟩ := Frame.close_of_keep_eq_await u' hg'
    refine ⟨g', u', ?_, hk.trans hf, hc.trans (by rw [hr])⟩
    rw [steps?_append, hv]
    change (operatorDue g u outer).steps? (.op o :: w) = _
    rw [steps?_cons, hstep]
    exact hw
  | looser p w t _ ih =>
    intro f outer hf
    have hf' : f.keep (p + 1) = f := by
      rw [← hf]
      match p with
      | 0 | 1 | 2 => rfl
      | p + 3 => rfl
    obtain ⟨g, u, hs, hg, hc⟩ := ih f outer hf'
    obtain ⟨hk, hu⟩ := Frame.close_of_keep_keep u hf hg
    exact ⟨g, u, hs, hk, hu.trans hc⟩

end Reading

theorem read?_of_derives {w : List Terminal} {t : Tree} (h : Derives 0 w t) :
    read? w = some t := by
  obtain ⟨g, u, hs, _, hc⟩ := Reading.steps?_of_derives h .empty [] rfl
  rw [read?, Reading.start, hs]
  exact congrArg some hc

/-- The terminals up to an operator whose left operand waits. -/
def Waiting (o : Operator) : Option Tree → List Terminal → Prop
  | none, v => v = []
  | some l, v => ∃ w, Derives o.precedence w l ∧ v = w ++ [.op o]

def Frame.Spells (f : Frame) (v : List Terminal) : Prop :=
  ∃ a b c, Waiting .or f.disjunct a ∧ Waiting .add f.summand b ∧ Waiting .mul f.factor c ∧
    v = a ++ b ++ c

/-- The terminals that were read into the frames around an open group, the innermost frame first. -/
inductive OuterSpells : List Frame → List Terminal → Prop
  | nil : OuterSpells [] []
  | cons {f : Frame} {outer : List Frame} {v w : List Terminal} :
    OuterSpells outer v → f.Spells w → OuterSpells (f :: outer) (v ++ w ++ [.lparen])

inductive Reading.Spells : Reading → List Terminal → Prop
  | operandDue {here : Frame} {outer : List Frame} {v w : List Terminal} :
    OuterSpells outer v → here.Spells w → Spells (.operandDue here outer) (v ++ w)
  | operatorDue {here : Frame} {outer : List Frame} {t : Tree} {v w x : List Terminal} :
    OuterSpells outer v → here.Spells w → Derives atomic x t →
      Spells (.operatorDue here t outer) (v ++ w ++ x)

theorem Waiting.join {o : Operator} {l : Option Tree} {v w : List Terminal} {t : Tree}
    (hv : Waiting o l v) (hw : Derives (o.precedence + 1) w t) :
    Derives o.precedence (v ++ w) (joined o l t) := by
  cases l with
  | none =>
    obtain rfl := hv
    exact .looser hw
  | some l =>
    obtain ⟨u, hu, rfl⟩ := hv
    simpa [joined] using Derives.operation o hu hw

namespace Frame

theorem spells_empty : Frame.empty.Spells [] := ⟨[], [], [], rfl, rfl, rfl, rfl⟩

/-- The parts of a frame join with an operand to derived words, one for each precedence. -/
theorem derives_of_spells {f : Frame} {v x : List Terminal} {t : Tree} (hf : f.Spells v)
    (ht : Derives atomic x t) :
    ∃ a b c, v = a ++ b ++ c ∧ Waiting .or f.disjunct a ∧ Waiting .add f.summand b ∧
      Derives 2 (c ++ x) (f.product t) ∧ Derives 1 (b ++ (c ++ x)) (f.sum t) ∧
      Derives 0 (v ++ x) (f.disjunction t) := by
  obtain ⟨a, b, c, ha, hb, hc, rfl⟩ := hf
  have hp : Derives 2 (c ++ x) (f.product t) := f.product_eq_joined t ▸ hc.join ht
  have hs : Derives 1 (b ++ (c ++ x)) (f.sum t) := f.sum_eq_joined t ▸ hb.join hp
  have hd : Derives 0 (a ++ (b ++ (c ++ x))) (f.disjunction t) :=
    f.disjunction_eq_joined t ▸ ha.join hs
  exact ⟨a, b, c, rfl, ha, hb, hp, hs, by simpa using hd⟩

theorem spells_extend {f : Frame} {v x : List Terminal} {t : Tree} (hf : f.Spells v)
    (ht : Derives atomic x t) (o : Operator) : (f.extend t o).Spells (v ++ x ++ [.op o]) := by
  obtain ⟨a, b, c, rfl, ha, hb, hp, hs, hd⟩ := derives_of_spells hf ht
  cases o with
  | mul => exact ⟨a, b, c ++ x ++ [.op .mul], ha, hb, ⟨_, hp, rfl⟩, by simp⟩
  | add => exact ⟨a, b ++ (c ++ x) ++ [.op .add], [], ha, ⟨_, hs, rfl⟩, rfl, by simp⟩
  | or => exact ⟨_, [], [], ⟨_, hd, rfl⟩, rfl, rfl, by simp⟩

end Frame

namespace Reading

theorem spells_step {r r' : Reading} {w : List Terminal} {t : Terminal} (hr : r.Spells w)
    (h : r.step? t = some r') : r'.Spells (w ++ [t]) := by
  cases hr with
  | @operandDue here outer v w ho hf =>
    cases t with
    | lit l =>
      cases h
      exact .operatorDue ho hf (.literal l)
    | lparen =>
      cases h
      simpa using Spells.operandDue (ho.cons hf) Frame.spells_empty
    | op o => cases h
    | rparen => cases h
  | @operatorDue here outer u v w x ho hf hu =>
    cases t with
    | lit l => cases h
    | lparen => cases h
    | op o =>
      cases h
      simpa using Spells.operandDue ho (Frame.spells_extend hf hu o)
    | rparen =>
      cases ho with
      | nil => cases h
      | @cons around outer v' w' ho haround =>
        cases h
        obtain ⟨_, _, _, _, _, _, _, _, hd⟩ := Frame.derives_of_spells hf hu
        simpa using Spells.operatorDue ho haround (.group hd)

theorem spells_steps {r r' : Reading} {v w : List Terminal} (hr : r.Spells v)
    (h : r.steps? w = some r') : r'.Spells (v ++ w) := by
  induction w generalizing r v with
  | nil =>
    cases h
    simpa using hr
  | cons t w ih =>
    rw [steps?_cons] at h
    obtain ⟨q, hq, h⟩ := Option.bind_eq_some_iff.1 h
    simpa using ih (spells_step hr hq) h

theorem derives_of_result {r : Reading} {w : List Terminal} {t : Tree} (hr : r.Spells w)
    (h : r.result? = some t) : Derives 0 w t := by
  cases hr with
  | operandDue => cases h
  | operatorDue ho hf hu =>
    cases ho with
    | cons => cases h
    | nil =>
      cases h
      obtain ⟨_, _, _, _, _, _, _, _, hd⟩ := Frame.derives_of_spells hf hu
      simpa using hd

end Reading

/-- Reading is derivation: it finds the tree of a word if and only if the word has that tree. -/
theorem read?_eq_some_iff {w : List Terminal} {t : Tree} : read? w = some t ↔ Derives 0 w t := by
  refine ⟨fun h => ?_, read?_of_derives⟩
  obtain ⟨r, hr, ht⟩ := Option.bind_eq_some_iff.1 h
  have hs : Reading.start.Spells [] := .operandDue .nil Frame.spells_empty
  exact Reading.derives_of_result (Reading.spells_steps hs hr) ht

theorem Derives.unique {w : List Terminal} {t u : Tree} (ht : Derives 0 w t) (hu : Derives 0 w u) :
    t = u :=
  Option.some.inj ((read?_of_derives ht).symm.trans (read?_of_derives hu))

end ZeroOne.Grammar
