import ZeroOne.Proofs.Derivation

/-! The grammar in three layers, where sums and disjunctions are not told apart. It has the same words. -/
namespace ZeroOne.Grammar

/-- The layers of the grammar without precedence between sum and disjunction. -/
inductive Layer
  | expr
  | term
  | factor

/-- Expressions are terms with `+` or `||` between them, terms are factors with `*` between them,
factors are literals or groups. -/
inductive Derivable : Layer → List Terminal → Prop
  | literal (l : Literal) : Derivable .factor [.lit l]
  | group {w : List Terminal} : Derivable .expr w → Derivable .factor (.lparen :: w ++ [.rparen])
  | factor {w : List Terminal} : Derivable .factor w → Derivable .term w
  | product {v w : List Terminal} :
    Derivable .term v → Derivable .factor w → Derivable .term (v ++ .op .mul :: w)
  | term {w : List Terminal} : Derivable .term w → Derivable .expr w
  | sum {o : Operator} {v w : List Terminal} : o ≠ .mul →
    Derivable .expr v → Derivable .term w → Derivable .expr (v ++ .op o :: w)

/-- Expressions join to an expression, whatever is in the right one. -/
theorem Derivable.join {o : Operator} (ho : o ≠ .mul) {v w : List Terminal} (hv : Derivable .expr v)
    (hw : Derivable .expr w) : Derivable .expr (v ++ .op o :: w) := by
  generalize hl : Layer.expr = layer at hw
  induction hw with
  | literal | group | factor | product => cases hl
  | term hw => exact .sum ho hv hw
  | @sum o' a b ho' _ hb iha _ =>
    have h := Derivable.sum ho' (iha hl) hb
    simpa using h

def Layer.ofPrecedence : Nat → Layer
  | 0 | 1 => .expr
  | 2 => .term
  | _ => .factor

theorem derivable_of_derives {p : Nat} {w : List Terminal} {t : Tree} (h : Derives p w t) :
    Derivable (.ofPrecedence p) w := by
  induction h with
  | literal l => exact .literal l
  | group _ ih => exact .group ih
  | or _ _ ihl ihr => exact ihl.join (by decide) ihr
  | add _ _ ihl ihr => exact .sum (by decide) ihl ihr
  | mul _ _ ihl ihr => exact .product ihl ihr
  | @looser p _ _ _ ih =>
    match p, ih with
    | 0, ih => exact ih
    | 1, ih => exact .term ih
    | 2, ih => exact .factor ih
    | _ + 3, ih => exact ih

def Layer.precedence : Layer → Nat
  | .expr => 0
  | .term => 2
  | .factor => atomic

/-- A term can be added to every word: it is an operand of the last sum. -/
theorem Derives.exists_add {v w : List Terminal} {l r : Tree} (hl : Derives 0 v l)
    (hr : Derives 2 w r) : ∃ t, Derives 0 (v ++ .op .add :: w) t := by
  have sum : ∀ {v l}, Derives 1 v l → Derives 1 (v ++ .op .add :: w) (.add l r) :=
    fun hv => .add hv hr
  cases hl with
  | looser h => exact ⟨_, .looser (sum h)⟩
  | or ha hb =>
    have h := Derives.or ha (sum hb)
    exact ⟨_, by simpa using h⟩

theorem exists_derives {layer : Layer} {w : List Terminal} (h : Derivable layer w) :
    ∃ t, Derives layer.precedence w t := by
  induction h with
  | literal l => exact ⟨_, .literal l⟩
  | group _ ih =>
    obtain ⟨t, ht⟩ := ih
    exact ⟨t, .group ht⟩
  | factor _ ih =>
    obtain ⟨t, ht⟩ := ih
    exact ⟨t, .looser ht⟩
  | product _ _ ihv ihw =>
    obtain ⟨l, hl⟩ := ihv
    obtain ⟨r, hr⟩ := ihw
    exact ⟨_, .mul hl hr⟩
  | term _ ih =>
    obtain ⟨t, ht⟩ := ih
    exact ⟨t, ht.weaken (Nat.zero_le _)⟩
  | @sum o _ _ ho _ _ ihv ihw =>
    obtain ⟨l, hl⟩ := ihv
    obtain ⟨r, hr⟩ := ihw
    cases o with
    | mul => exact absurd rfl ho
    | add => exact hl.exists_add hr
    | or => exact ⟨_, .or hl (.looser hr)⟩

/-- Telling sums and disjunctions apart changes the trees but not the words. -/
theorem derivable_iff_grammatical {w : List Terminal} : Derivable .expr w ↔ Grammatical w := by
  refine ⟨exists_derives, ?_⟩
  rintro ⟨t, ht⟩
  exact derivable_of_derives ht

end ZeroOne.Grammar
