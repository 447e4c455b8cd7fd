import ZeroOne.Proofs.Viability

/-! The chart of items over the rules of the grammar. What the items behind a word await is what the word
can go on with, so a chart knows no dead ends. -/
namespace ZeroOne.Grammar

/-- The words that a string of parts stands for. -/
inductive Generates : List Part → List Terminal → Prop
  | nil : Generates [] []
  | terminal {parts : List Part} {w : List Terminal} (t : Terminal) :
    Generates parts w → Generates (.terminal t :: parts) (t :: w)
  | nonterminal {n : Nonterminal} {rule parts : List Part} {v w : List Terminal} :
    rule ∈ rules n → Generates rule v → Generates parts w →
      Generates (.nonterminal n :: parts) (v ++ w)

theorem Generates.of_rule {n : Nonterminal} {rule : List Part} {w : List Terminal} (hr : rule ∈ rules n)
    (h : Generates rule w) : Generates [.nonterminal n] w := by
  have hn := Generates.nonterminal hr h .nil
  rwa [List.append_nil] at hn

theorem generates_nonterminal_iff {n : Nonterminal} {w : List Terminal} :
    Generates [.nonterminal n] w ↔ ∃ rule ∈ rules n, Generates rule w := by
  constructor
  · generalize hparts : [Part.nonterminal n] = parts
    rintro (_ | _ | ⟨hr, hv, hw⟩)
    · cases hparts
    · cases hparts
    · cases hparts
      cases hw
      exact ⟨_, hr, by rwa [List.append_nil]⟩
  · rintro ⟨rule, hr, h⟩
    exact .of_rule hr h

theorem Generates.append {ps qs : List Part} {v w : List Terminal} (hv : Generates ps v)
    (hw : Generates qs w) : Generates (ps ++ qs) (v ++ w) := by
  induction hv with
  | nil => exact hw
  | terminal t _ ih => exact .terminal t ih
  | @nonterminal n rule parts v v' hr h _ _ ih =>
    have hall := Generates.nonterminal hr h ih
    rwa [← List.append_assoc] at hall

def Nonterminal.level : Nonterminal → Nat
  | .start | .disjunction => 0
  | .sum => 1
  | .product => 2
  | .atom => atomic

/-- Strings of parts as words, each nonterminal with its derivation. -/
def Composed : List Part → List Terminal → Prop
  | [], w => w = []
  | .terminal t :: parts, w => ∃ v, w = t :: v ∧ Composed parts v
  | .nonterminal n :: parts, w =>
    ∃ u v t, w = u ++ v ∧ Derives n.level u t ∧ Composed parts v

theorem composed_single {n : Nonterminal} {w : List Terminal} (h : Composed [.nonterminal n] w) :
    ∃ t, Derives n.level w t := by
  obtain ⟨u, v, t, rfl, hu, rfl⟩ := h
  exact ⟨t, by rwa [List.append_nil]⟩

theorem composed_operation {m n : Nonterminal} {o : Operator} {w : List Terminal}
    (h : Composed [.nonterminal m, .terminal (.op o), .nonterminal n] w) :
    ∃ u v l r, w = u ++ .op o :: v ∧ Derives m.level u l ∧ Derives n.level v r := by
  obtain ⟨u, _, l, rfl, hu, v, rfl, hv⟩ := h
  obtain ⟨r, hr⟩ := composed_single hv
  exact ⟨u, v, l, r, rfl, hu, hr⟩

theorem exists_derives_of_rule {n : Nonterminal} {rule : List Part} {w : List Terminal}
    (hr : rule ∈ rules n) (h : Composed rule w) : ∃ t, Derives n.level w t := by
  cases n <;> simp only [rules, List.mem_cons, List.not_mem_nil, or_false] at hr
  case start =>
    obtain rfl := hr
    exact composed_single h
  case disjunction =>
    rcases hr with rfl | rfl
    · obtain ⟨u, v, l, r, rfl, hu, hv⟩ := composed_operation h
      exact ⟨_, .or hu hv⟩
    · obtain ⟨t, ht⟩ := composed_single h
      exact ⟨t, .looser ht⟩
  case sum =>
    rcases hr with rfl | rfl
    · obtain ⟨u, v, l, r, rfl, hu, hv⟩ := composed_operation h
      exact ⟨_, .add hu hv⟩
    · obtain ⟨t, ht⟩ := composed_single h
      exact ⟨t, .looser ht⟩
  case product =>
    rcases hr with rfl | rfl
    · obtain ⟨u, v, l, r, rfl, hu, hv⟩ := composed_operation h
      exact ⟨_, .mul hu hv⟩
    · obtain ⟨t, ht⟩ := composed_single h
      exact ⟨t, .looser ht⟩
  case atom =>
    rcases hr with rfl | rfl | rfl | rfl | rfl
    case inr.inr.inr.inr =>
      obtain ⟨_, rfl, u, _, t, rfl, hu, _, rfl, rfl⟩ := h
      exact ⟨t, .group hu⟩
    all_goals
      obtain ⟨_, rfl, rfl⟩ := h
      exact ⟨_, .literal _⟩

theorem Generates.composed {parts : List Part} {w : List Terminal} (h : Generates parts w) :
    Composed parts w := by
  induction h with
  | nil => rfl
  | terminal t _ ih => exact ⟨_, rfl, ih⟩
  | nonterminal hr _ _ ihv ihw =>
    obtain ⟨t, ht⟩ := exists_derives_of_rule hr ihv
    exact ⟨_, _, t, rfl, ht, ihw⟩

def Nonterminal.ofLevel : Nat → Nonterminal
  | 0 => .disjunction
  | 1 => .sum
  | 2 => .product
  | _ => .atom

theorem Derives.generates {p : Nat} {w : List Terminal} {t : Tree} (h : Derives p w t) :
    Generates [.nonterminal (.ofLevel p)] w := by
  have operation : ∀ {m n : Nonterminal} {o : Operator} {v w : List Terminal},
      [Part.nonterminal m, .terminal (.op o), .nonterminal n] ∈ rules m →
      Generates [.nonterminal m] v → Generates [.nonterminal n] w →
      Generates [.nonterminal m] (v ++ .op o :: w) :=
    fun hr hv hw => .of_rule hr (hv.append (.terminal _ hw))
  induction h with
  | literal l => cases l <;> exact .of_rule (by decide) (.terminal _ .nil)
  | group _ ih =>
    exact .of_rule (by decide) (.terminal .lparen (ih.append (.terminal .rparen .nil)))
  | or _ _ ihl ihr => exact operation (by decide) ihl ihr
  | add _ _ ihl ihr => exact operation (by decide) ihl ihr
  | mul _ _ ihl ihr => exact operation (by decide) ihl ihr
  | @looser p _ _ _ ih =>
    match p, ih with
    | 0, ih | 1, ih | 2, ih => exact .of_rule (by decide) ih
    | _ + 3, ih => exact ih

/-- The rules generate the grammatical words. -/
theorem generates_start_iff {w : List Terminal} :
    Generates [.nonterminal .start] w ↔ Grammatical w := by
  constructor
  · intro h
    obtain ⟨u, v, t, rfl, hu, rfl⟩ := h.composed
    exact ⟨t, by rwa [List.append_nil]⟩
  · rintro ⟨t, ht⟩
    exact .of_rule (by decide) ht.generates

/-- Every string of parts stands for some word. -/
theorem exists_generates (parts : List Part) : ∃ w, Generates parts w := by
  have atom : Generates [.nonterminal .atom] [.lit .one] :=
    .of_rule (by decide) (.terminal (.lit .one) .nil)
  have product : Generates [.nonterminal .product] [.lit .one] := .of_rule (by decide) atom
  have sum : Generates [.nonterminal .sum] [.lit .one] := .of_rule (by decide) product
  have disjunction : Generates [.nonterminal .disjunction] [.lit .one] := .of_rule (by decide) sum
  have start : Generates [.nonterminal .start] [.lit .one] := .of_rule (by decide) disjunction
  induction parts with
  | nil => exact ⟨[], .nil⟩
  | cons part parts ih =>
    obtain ⟨w, hw⟩ := ih
    cases part with
    | terminal t => exact ⟨_, .terminal t hw⟩
    | nonterminal n =>
      cases n with
      | start => exact ⟨_, start.append hw⟩
      | disjunction => exact ⟨_, disjunction.append hw⟩
      | sum => exact ⟨_, sum.append hw⟩
      | product => exact ⟨_, product.append hw⟩
      | atom => exact ⟨_, atom.append hw⟩

/-- The rules of nonterminals that were begun behind a first part of a word, with the parts that are
still to come. -/
inductive Item : (origin : List Terminal) → Nonterminal → (due : List Part) → List Terminal → Prop
  | start {rule : List Part} : rule ∈ rules .start → Item [] .start rule []
  | predict {o w : List Terminal} {m n : Nonterminal} {due rule : List Part} :
    Item o m (.nonterminal n :: due) w → rule ∈ rules n → Item w n rule w
  | scan {o w : List Terminal} {n : Nonterminal} {due : List Part} {t : Terminal} :
    Item o n (.terminal t :: due) w → Item o n due (w ++ [t])
  | complete {o v w : List Terminal} {m n : Nonterminal} {due : List Part} :
    Item o m (.nonterminal n :: due) v → Item v n [] w → Item o m due w

def Charted (w : List Terminal) : Prop := ∃ o n due, Item o n due w

def Awaits (w : List Terminal) (t : Terminal) : Prop := ∃ o n due, Item o n (.terminal t :: due) w

namespace Item

variable {o w : List Terminal} {n : Nonterminal} {due : List Part}

/-- What an item has behind it and what is due make a word of its nonterminal. -/
theorem generates (h : Item o n due w) :
    ∃ u, w = o ++ u ∧ ∀ v, Generates due v → Generates [.nonterminal n] (u ++ v) := by
  induction h with
  | start hr => exact ⟨[], rfl, fun v hv => .of_rule hr hv⟩
  | predict _ hr => exact ⟨[], (List.append_nil _).symm, fun v hv => .of_rule hr hv⟩
  | @scan o w n due t _ ih =>
    obtain ⟨u, rfl, hu⟩ := ih
    refine ⟨u ++ [t], List.append_assoc _ _ _, fun v hv => ?_⟩
    rw [List.append_assoc]
    exact hu _ (.terminal t hv)
  | @complete o v w m n due _ _ ihm ihn =>
    obtain ⟨u, rfl, hu⟩ := ihm
    obtain ⟨u', rfl, hu'⟩ := ihn
    refine ⟨u ++ u', List.append_assoc _ _ _, fun v hv => ?_⟩
    rw [List.append_assoc]
    have hn : Generates [.nonterminal n] u' := by simpa using hu' [] .nil
    exact hu _ (hn.append hv)

/-- Each word of an item's nonterminal can stand where the item began. -/
theorem exists_context (h : Item o n due w) :
    ∀ u, Generates [.nonterminal n] u → ∃ v, Grammatical (o ++ u ++ v) := by
  induction h with
  | start =>
    intro u hu
    exact ⟨[], by simpa using generates_start_iff.1 hu⟩
  | @predict o w m n due rule hitem _ ih =>
    intro u hu
    obtain ⟨x, rfl, hx⟩ := hitem.generates
    obtain ⟨y, hy⟩ := exists_generates due
    obtain ⟨v, hv⟩ := ih _ (hx _ (hu.append hy))
    exact ⟨y ++ v, by simpa using hv⟩
  | scan _ ih => exact ih
  | complete _ _ ih _ => exact ih

/-- An item moves on over a word of the next parts that are due. -/
theorem advance {parts : List Part} {v : List Terminal} (hv : Generates parts v) :
    ∀ {o w : List Terminal} {n : Nonterminal} {due : List Part},
      Item o n (parts ++ due) w → Item o n due (w ++ v) := by
  induction hv with
  | nil =>
    intro o w n due h
    rwa [List.append_nil]
  | terminal t _ ih =>
    intro o w n due h
    simpa using ih (scan h)
  | @nonterminal m rule parts v v' hr _ _ ihv ihw =>
    intro o w n due h
    have hrule : Item w m (rule ++ []) w := by
      rw [List.append_nil]
      exact predict h hr
    simpa using ihw (complete h (ihv hrule))

/-- Where a word of the next parts goes on with a terminal, some item awaits it. -/
theorem awaits {parts : List Part} {x : List Terminal} (hx : Generates parts x) :
    ∀ {o w v y : List Terminal} {n : Nonterminal} {due : List Part} {t : Terminal},
      Item o n (parts ++ due) w → x = v ++ t :: y → Awaits (w ++ v) t := by
  induction hx with
  | nil =>
    intro o w v y n due t _ hsplit
    simp at hsplit
  | terminal u _ ih =>
    intro o w v y n due t h hsplit
    cases v with
    | nil =>
      obtain ⟨rfl, _⟩ := List.cons.inj hsplit
      rw [List.append_nil]
      exact ⟨o, n, _, h⟩
    | cons u' v =>
      obtain ⟨rfl, hbehind⟩ := List.cons.inj hsplit
      simpa using ih (scan h) hbehind
  | @nonterminal m rule parts a b hr ha _ iha ihb =>
    intro o w v y n due t h hsplit
    have hrule : Item w m (rule ++ []) w := by
      rw [List.append_nil]
      exact predict h hr
    rcases List.append_eq_append_iff.1 hsplit with ⟨v', rfl, hb⟩ | ⟨a', rfl, hrest⟩
    · simpa using ihb (complete h (advance ha hrule)) hb
    · cases a' with
      | nil =>
        have hb : b = [] ++ t :: y := hrest.symm
        simpa using ihb (complete h (advance ha hrule)) hb
      | cons u a' =>
        obtain ⟨rfl, _⟩ := List.cons.inj hrest
        exact iha hrule rfl

end Item

variable {w : List Terminal}

theorem Viable.of_append {u : List Terminal} (h : Viable (w ++ u)) : Viable w := by
  obtain ⟨v, hv⟩ := h
  exact ⟨u ++ v, by rwa [← List.append_assoc]⟩

/-- The terminals that are awaited behind a word are those that keep it viable. -/
theorem awaits_iff {t : Terminal} : Awaits w t ↔ Viable (w ++ [t]) := by
  constructor
  · rintro ⟨o, n, due, h⟩
    obtain ⟨u, rfl, hu⟩ := h.generates
    obtain ⟨y, hy⟩ := exists_generates due
    obtain ⟨v, hv⟩ := h.exists_context _ (hu _ (.terminal t hy))
    exact ⟨y ++ v, by simpa using hv⟩
  · rintro ⟨v, hv⟩
    obtain ⟨rule, hr, hrule⟩ := generates_nonterminal_iff.1 (generates_start_iff.2 hv)
    have hstart : Item [] .start (rule ++ []) [] := by
      rw [List.append_nil]
      exact .start hr
    exact Item.awaits hrule hstart (List.append_assoc w [t] v)

/-- There are items behind a word if and only if it is viable. -/
theorem charted_iff : Charted w ↔ Viable w := by
  constructor
  · rintro ⟨o, n, due, h⟩
    obtain ⟨u, rfl, hu⟩ := h.generates
    obtain ⟨y, hy⟩ := exists_generates due
    obtain ⟨v, hv⟩ := h.exists_context _ (hu y hy)
    exact ⟨y ++ v, by simpa using hv⟩
  · intro h
    rcases w.eq_nil_or_concat with rfl | ⟨v, t, rfl⟩
    · exact ⟨[], .start, _, .start (List.mem_singleton.2 rfl)⟩
    · rw [List.concat_eq_append] at h ⊢
      obtain ⟨o, n, due, hitem⟩ := awaits_iff.2 h
      exact ⟨o, n, due, .scan hitem⟩

end ZeroOne.Grammar
