import ZeroOne.Proofs.Reader
import Mathlib.Logic.Relation

/-! Empty groups. Deleting them from a word one by one ends at the same word in every order, and the
parser passes over all of them. -/
namespace ZeroOne

open Relation (ReflTransGen)

namespace Grammar

inductive DropsGroup : List Terminal → List Terminal → Prop
  | drop (v w : List Terminal) : DropsGroup (v ++ .lparen :: .rparen :: w) (v ++ w)

/-- Puts a terminal in front of a word, unless the two make an empty group. -/
def pushTerminal : Terminal → List Terminal → List Terminal
  | .lparen, .rparen :: w => w
  | t, w => t :: w

/-- A word without its empty groups, nor those that are empty without others. -/
def dropGroups (w : List Terminal) : List Terminal := w.foldr pushTerminal []

theorem pushTerminal_eq_or (t : Terminal) (w : List Terminal) :
    pushTerminal t w = t :: w ∨ t = .lparen ∧ w = .rparen :: pushTerminal t w := by
  unfold pushTerminal
  split
  · exact .inr ⟨rfl, rfl⟩
  · exact .inl rfl

theorem DropsGroup.cons (t : Terminal) {v w : List Terminal} (h : DropsGroup v w) :
    DropsGroup (t :: v) (t :: w) := by
  obtain ⟨a, b⟩ := h
  exact .drop (t :: a) b

theorem dropGroups_eq_of_drops {v w : List Terminal} (h : ReflTransGen DropsGroup v w) :
    dropGroups v = dropGroups w := by
  induction h with
  | refl => rfl
  | tail _ hd ih =>
    obtain ⟨a, b⟩ := hd
    rw [ih]
    simp only [dropGroups, List.foldr_append, List.foldr_cons, pushTerminal]

theorem drops_dropGroups (w : List Terminal) : ReflTransGen DropsGroup w (dropGroups w) := by
  induction w with
  | nil => exact .refl
  | cons t w ih =>
    have hcons : ReflTransGen DropsGroup (t :: w) (t :: dropGroups w) :=
      ih.lift (t :: ·) fun _ _ => .cons t
    change ReflTransGen DropsGroup (t :: w) (pushTerminal t (dropGroups w))
    obtain hp | ⟨rfl, hp⟩ := pushTerminal_eq_or t (dropGroups w)
    · rw [hp]
      exact hcons
    · rw [hp] at hcons
      exact hcons.tail (.drop [] _)

theorem dropGroups_ne (w v u : List Terminal) : dropGroups w ≠ v ++ .lparen :: .rparen :: u := by
  induction w generalizing v u with
  | nil => simp [dropGroups]
  | cons t w ih =>
    intro h
    change pushTerminal t (dropGroups w) = _ at h
    obtain hp | ⟨rfl, hp⟩ := pushTerminal_eq_or t (dropGroups w)
    · rw [hp] at h
      cases v with
      | nil =>
        -- The group would start at the terminal that was put in front.
        obtain ⟨rfl, hw⟩ := List.cons_eq_cons.1 h
        rw [hw] at hp
        exact absurd (congrArg List.length hp) (by simp only [pushTerminal, List.length_cons]; omega)
      | cons c v => exact ih v u (List.cons_eq_cons.1 h).2
    · rw [h] at hp
      exact ih (.rparen :: v) u hp

/-- Deleting empty groups one by one until none is left ends at the same word in every order. -/
theorem eq_dropGroups_iff {v w : List Terminal} :
    w = dropGroups v ↔ ReflTransGen DropsGroup v w ∧ ∀ u, ¬ DropsGroup w u := by
  have final : ∀ v u, ¬ DropsGroup (dropGroups v) u := by
    intro v u h
    generalize hw : dropGroups v = w at h
    obtain ⟨a, b⟩ := h
    exact dropGroups_ne v a b hw
  constructor
  · rintro rfl
    exact ⟨drops_dropGroups v, final v⟩
  · rintro ⟨h, hw⟩
    obtain hw' | ⟨u, hu, _⟩ := (drops_dropGroups w).cases_head
    · exact hw'.trans (dropGroups_eq_of_drops h).symm
    · exact absurd hu (hw u)

end Grammar

namespace Stacks

open Grammar (dropGroups pushTerminal pushTerminal_eq_or)

theorem exists_placeAll_dropGroups (order : OperandOrder) (ts : List (Terminal × Int)) :
    ∃ us : List (Terminal × Int), us.map (·.1) = dropGroups (ts.map (·.1)) ∧
      ∀ s : Stacks, (s.placeAll order us).result = (s.placeAll order ts).result := by
  induction ts with
  | nil => exact ⟨[], rfl, fun _ => rfl⟩
  | cons t ts ih =>
    obtain ⟨us, hus, hs⟩ := ih
    change ∃ vs : List (Terminal × Int), vs.map (·.1) = pushTerminal t.1 (dropGroups (ts.map (·.1))) ∧ _
    obtain hp | ⟨ht, hp⟩ := pushTerminal_eq_or t.1 (dropGroups (ts.map (·.1)))
    · refine ⟨t :: us, by rw [hp, ← hus]; rfl, fun s => ?_⟩
      simp only [placeAll_cons, Traced.result_bind, hs]
    · rw [hp] at hus
      obtain ⟨u, vs, rfl, hu, hvs⟩ := List.map_eq_cons_iff.1 hus
      refine ⟨vs, hvs, fun s => ?_⟩
      obtain ⟨t, p⟩ := t
      obtain ⟨u, q⟩ := u
      subst ht hu
      have hopen : ((s.placeAll order ((.lparen, p) :: ts))).result =
          ((⟨.group p :: s.pending, s.operands⟩ : Stacks).placeAll order ts).result := by
        rw [placeAll_cons, Traced.result_bind]
        rfl
      rw [hopen, ← hs, placeAll_cons, Traced.result_bind]
      rfl

end Stacks
end ZeroOne
