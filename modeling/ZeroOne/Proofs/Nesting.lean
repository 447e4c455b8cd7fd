import ZeroOne.Token

/-! Nested words. Each parenthesis in them has a partner by standard matching, and the places that lack one
in other words are known from the nested stretches around them. -/
namespace ZeroOne

/-- What a terminal adds to the number of open groups. -/
def Terminal.depth : Terminal → Int
  | .lparen => 1
  | .rparen => -1
  | .lit _ | .op _ => 0

namespace Grammar

/-- Words in which each parenthesis has a partner, whatever else there is in them. -/
inductive Nested : List Terminal → Prop
  | nil : Nested []
  | other {t : Terminal} {w : List Terminal} : t ≠ .lparen → t ≠ .rparen → Nested w → Nested (t :: w)
  | group {v w : List Terminal} : Nested v → Nested w → Nested (.lparen :: v ++ .rparen :: w)

def depth : List Terminal → Int
  | [] => 0
  | t :: w => t.depth + depth w

/-- The partner of a closing parenthesis stands in front of it, and what is between them is nested. -/
def HasOpening (front : List Terminal) : Prop :=
  ∃ u v, front = u ++ .lparen :: v ∧ Nested v

def HasClosing (behind : List Terminal) : Prop :=
  ∃ v u, behind = v ++ .rparen :: u ∧ Nested v

def AllOpened (w : List Terminal) : Prop :=
  ∀ u v, w = u ++ .rparen :: v → HasOpening u

def AllClosed (w : List Terminal) : Prop :=
  ∀ u v, w = u ++ .lparen :: v → HasClosing v

section

variable {u v w : List Terminal}

theorem depth_append (v w : List Terminal) : depth (v ++ w) = depth v + depth w := by
  induction v with
  | nil => exact (Int.zero_add _).symm
  | cons t v ih =>
    rw [List.cons_append, depth, ih, depth, Int.add_assoc]

theorem depth_lparen (w : List Terminal) : depth (.lparen :: w) = depth w + 1 := Int.add_comm _ _

theorem depth_rparen (w : List Terminal) : depth (.rparen :: w) = depth w - 1 := Int.add_comm _ _

theorem depth_of_ne {t : Terminal} (hl : t ≠ .lparen) (hr : t ≠ .rparen) (w : List Terminal) :
    depth (t :: w) = depth w := by
  have ht : t.depth = 0 := by
    cases t with
    | lit | op => rfl
    | lparen => exact absurd rfl hl
    | rparen => exact absurd rfl hr
  rw [depth, ht, Int.zero_add]

theorem HasOpening.append_left (h : HasOpening v) (u : List Terminal) : HasOpening (u ++ v) := by
  obtain ⟨x, y, rfl, hy⟩ := h
  exact ⟨u ++ x, y, (List.append_assoc _ _ _).symm, hy⟩

theorem HasClosing.append_right (h : HasClosing v) (w : List Terminal) : HasClosing (v ++ w) := by
  obtain ⟨x, y, rfl, hx⟩ := h
  exact ⟨x, y ++ w, List.append_assoc _ _ _, hx⟩

/-- Two entries of a list are the same, or one stands behind the other. -/
theorem entries_cases {α : Type} {a b u v : List α} {x y : α} (h : a ++ x :: b = u ++ y :: v) :
    (a = u ∧ x = y) ∨ (∃ c, u = a ++ x :: c ∧ b = c ++ y :: v) ∨
      ∃ c, a = u ++ y :: c ∧ v = c ++ x :: b := by
  rcases List.append_eq_append_iff.1 h with ⟨c, hu, hb⟩ | ⟨c, ha, hv⟩
  · rcases List.cons_eq_append_iff.1 hb with ⟨hc, hy⟩ | ⟨d, hc, hd⟩
    · subst hc
      exact .inl ⟨(hu.trans (List.append_nil a)).symm, (List.cons.inj hy).1.symm⟩
    · subst hc
      exact .inr (.inl ⟨d, hu, hd⟩)
  · rcases List.cons_eq_append_iff.1 hv with ⟨hc, hx⟩ | ⟨d, hc, hd⟩
    · subst hc
      exact .inl ⟨ha.trans (List.append_nil u), (List.cons.inj hx).1⟩
    · subst hc
      exact .inr (.inr ⟨d, ha, hd⟩)

namespace Nested

theorem append (hv : Nested v) (hw : Nested w) : Nested (v ++ w) := by
  induction hv with
  | nil => exact hw
  | other hl hr _ ih => exact .other hl hr ih
  | group hv _ _ ih =>
    rw [List.append_assoc]
    exact .group hv ih

theorem allOpened (h : Nested w) : AllOpened w := by
  induction h with
  | nil =>
    intro u v huv
    cases u <;> cases huv
  | other hl hr _ ih =>
    intro u v huv
    rcases List.cons_eq_append_iff.1 huv with ⟨_, hcons⟩ | ⟨u, rfl, hw⟩
    · exact absurd (List.cons.inj hcons).1.symm hr
    · exact (ih u v hw).append_left [_]
  | @group a b ha _ iha ihb =>
    intro u v huv
    -- The parenthesis closes the group itself, or stands behind the group, or in it.
    rcases entries_cases huv with ⟨rfl, _⟩ | ⟨c, rfl, hc⟩ | ⟨c, hc, _⟩
    · exact ⟨[], a, rfl, ha⟩
    · exact ((ihb c v hc).append_left [.rparen]).append_left (.lparen :: a)
    · rcases List.cons_eq_append_iff.1 hc with ⟨_, hcons⟩ | ⟨u, rfl, hu⟩
      · cases hcons
      · exact (iha u c hu).append_left [.lparen]

theorem allClosed (h : Nested w) : AllClosed w := by
  induction h with
  | nil =>
    intro u v huv
    cases u <;> cases huv
  | other hl hr _ ih =>
    intro u v huv
    rcases List.cons_eq_append_iff.1 huv with ⟨_, hcons⟩ | ⟨u, rfl, hw⟩
    · exact absurd (List.cons.inj hcons).1.symm hl
    · exact ih u v hw
  | @group a b ha _ iha ihb =>
    intro u v huv
    rcases entries_cases huv with ⟨_, heq⟩ | ⟨c, rfl, hc⟩ | ⟨c, hc, rfl⟩
    · cases heq
    · exact ihb c v hc
    · rcases List.cons_eq_append_iff.1 hc with ⟨_, hcons⟩ | ⟨u, rfl, hu⟩
      · obtain rfl : c = a := (List.cons.inj hcons).2
        exact ⟨c, b, rfl, ha⟩
      · exact (iha u c hu).append_right _

theorem depth_eq_zero (h : Nested w) : depth w = 0 := by
  induction h with
  | nil => rfl
  | other hl hr _ ih =>
    rw [depth_of_ne hl hr]
    exact ih
  | @group v w _ _ ihv ihw =>
    have hopen : depth (.lparen :: v) = 1 := by rw [depth_lparen, ihv, Int.zero_add]
    rw [depth_append, hopen, depth_rparen, ihw]
    rfl

/-- No beginning of a nested word closes a group too many. -/
theorem depth_nonneg (h : Nested w) : ∀ u v, w = u ++ v → 0 ≤ depth u := by
  induction h with
  | nil =>
    intro u v huv
    obtain ⟨rfl, _⟩ := List.append_eq_nil_iff.1 huv.symm
    exact Int.le_refl 0
  | other hl hr _ ih =>
    intro u v huv
    rcases List.cons_eq_append_iff.1 huv with ⟨rfl, _⟩ | ⟨u, rfl, hu⟩
    · exact Int.le_refl 0
    · rw [depth_of_ne hl hr]
      exact ih u v hu
  | @group a b ha _ iha ihb =>
    intro u v huv
    -- The beginning goes beyond what is in the group, or it does not.
    rcases List.append_eq_append_iff.1 huv with ⟨c, rfl, hc⟩ | ⟨c, hc, _⟩
    · rw [depth_append, depth_lparen, ha.depth_eq_zero]
      rcases List.cons_eq_append_iff.1 hc with ⟨rfl, _⟩ | ⟨c, rfl, hsplit⟩
      · decide
      · have hfront := ihb c v hsplit
        rw [depth_rparen]
        omega
    · rcases List.cons_eq_append_iff.1 hc with ⟨rfl, _⟩ | ⟨u, rfl, hu⟩
      · exact Int.le_refl 0
      · have hfront := iha u c hu
        rw [depth_lparen]
        omega

theorem not_hasOpening (h : Nested w) : ¬ HasOpening w := by
  rintro ⟨u, v, rfl, hv⟩
  have hzero := h.depth_eq_zero
  have hfront := h.depth_nonneg u _ rfl
  rw [depth_append, depth_lparen, hv.depth_eq_zero] at hzero
  omega

theorem not_hasClosing (h : Nested w) : ¬ HasClosing w := by
  rintro ⟨v, u, rfl, hv⟩
  have hfront := h.depth_nonneg (v ++ [.rparen]) u (List.append_cons v .rparen u)
  rw [depth_append, hv.depth_eq_zero] at hfront
  exact absurd hfront (by decide)

end Nested

/-- What opens all that it closes holds no partner for a parenthesis in front of it. -/
theorem HasClosing.of_append (h : HasClosing (v ++ w)) (hw : AllOpened w) : HasClosing v := by
  obtain ⟨x, y, hsplit, hx⟩ := h
  rcases List.append_eq_append_iff.1 hsplit with ⟨c, rfl, hc⟩ | ⟨c, rfl, hc⟩
  · have hopen : HasOpening (v ++ c) := (hw c y hc).append_left v
    exact absurd hopen hx.not_hasOpening
  · rcases List.cons_eq_append_iff.1 hc with ⟨_, hcons⟩ | ⟨d, rfl, _⟩
    · exact absurd (hw [] y hcons) Nested.nil.not_hasOpening
    · exact ⟨x, d, rfl, hx⟩

end

/-- The offsets of the opening parentheses that lack a partner so far, the last one first. -/
inductive Opens : List (Terminal × Int) → List Int → Prop
  | nil {ts : List (Terminal × Int)} : Nested (ts.map (·.1)) → Opens ts []
  | group {ts us : List (Terminal × Int)} {p : Int} {ps : List Int} :
    Opens ts ps → Nested (us.map (·.1)) → Opens (ts ++ (.lparen, p) :: us) (p :: ps)

namespace Opens

variable {ts us : List (Terminal × Int)} {p : Int} {ps : List Int}

theorem append (h : Opens ts ps) (hu : Nested (us.map (·.1))) : Opens (ts ++ us) ps := by
  cases h with
  | nil ht =>
    refine .nil ?_
    rw [List.map_append]
    exact ht.append hu
  | group ht hv =>
    rw [List.append_assoc, List.cons_append]
    refine .group ht ?_
    rw [List.map_append]
    exact hv.append hu

theorem closed (h : Opens ts (p :: ps)) (q : Int) : Opens (ts ++ [(.rparen, q)]) ps := by
  cases h with
  | @group ts us _ _ ht hu =>
    have hgroup : Nested (((.lparen, p) :: us ++ [(.rparen, q)] : List (Terminal × Int)).map (·.1)) := by
      rw [List.map_append]
      exact .group hu .nil
    rw [List.append_assoc]
    exact ht.append hgroup

theorem nested (h : Opens ts []) : Nested (ts.map (·.1)) := by
  cases h with
  | nil ht => exact ht

theorem allOpened (h : Opens ts ps) : AllOpened (ts.map (·.1)) := by
  induction h with
  | nil ht => exact ht.allOpened
  | @group ts us p ps _ hu ih =>
    intro u v huv
    rw [List.map_append, List.map_cons] at huv
    rcases entries_cases huv with ⟨_, heq⟩ | ⟨c, rfl, hc⟩ | ⟨c, hc, _⟩
    · cases heq
    · exact ((hu.allOpened c v hc).append_left [.lparen]).append_left _
    · exact ih u c hc

end Opens

inductive Unclosed : List (Terminal × Int) → List Int → Prop
  | nil : Unclosed [] []
  | lacking {ts : List (Terminal × Int)} {p : Int} {ps : List Int} :
    ¬ HasClosing (ts.map (·.1)) → Unclosed ts ps → Unclosed ((.lparen, p) :: ts) (p :: ps)
  | closed {ts : List (Terminal × Int)} {p : Int} {ps : List Int} :
    HasClosing (ts.map (·.1)) → Unclosed ts ps → Unclosed ((.lparen, p) :: ts) ps
  | other {ts : List (Terminal × Int)} {t : Terminal} {p : Int} {ps : List Int} :
    t ≠ .lparen → Unclosed ts ps → Unclosed ((t, p) :: ts) ps

section

variable {ts us : List (Terminal × Int)} {ps qs : List Int}

theorem unclosed_of_allClosed (h : AllClosed (ts.map (·.1))) : Unclosed ts [] := by
  induction ts with
  | nil => exact .nil
  | cons t ts ih =>
    obtain ⟨t, p⟩ := t
    have hrest : Unclosed ts [] := ih fun u v huv => h (t :: u) v (congrArg (t :: ·) huv)
    by_cases ht : t = .lparen
    · subst ht
      exact .closed (h [] (ts.map (·.1)) rfl) hrest
    · exact .other ht hrest

theorem Unclosed.append (h : Unclosed ts ps) (hu : AllOpened (us.map (·.1))) (hus : Unclosed us qs) :
    Unclosed (ts ++ us) (ps ++ qs) := by
  induction h with
  | nil => exact hus
  | @lacking ts p ps hlack _ ih =>
    refine .lacking (fun hclosing => hlack ?_) ih
    rw [List.append_eq, List.map_append] at hclosing
    exact hclosing.of_append hu
  | @closed ts p ps hclosing _ ih =>
    refine .closed ?_ ih
    rw [List.append_eq, List.map_append]
    exact hclosing.append_right _
  | other ht _ ih => exact .other ht ih

/-- The open groups are the opening parentheses without a partner. -/
theorem Opens.unclosed (h : Opens ts ps) : Unclosed ts ps.reverse := by
  induction h with
  | nil ht => exact unclosed_of_allClosed ht.allClosed
  | @group ts us p ps _ hu ih =>
    have hnil : Opens [] [] := .nil .nil
    have hopens : Opens ((.lparen, p) :: us) [p] := .group hnil hu
    have hlast : Unclosed ((.lparen, p) :: us) [p] :=
      .lacking hu.not_hasClosing (unclosed_of_allClosed hu.allClosed)
    rw [List.reverse_cons]
    exact ih.append hopens.allOpened hlast

end

end Grammar

end ZeroOne
