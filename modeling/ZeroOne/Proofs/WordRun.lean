import ZeroOne.Token.Lexer
import Mathlib.Data.List.TakeWhile

/-! Runs of word bytes. Only the runs that are a word as a whole are read without error. -/
namespace ZeroOne

/-- A run of word bytes at an offset that is as long as possible on both sides. -/
structure IsWordRun (bytes : List UInt8) (i : Nat) (run : List UInt8) : Prop where
  nonempty : run ≠ []
  longest : run = (bytes.drop i).takeWhile isWordByte
  before : ∀ b, (bytes.take i).getLast? = some b → isWordByte b = false

/-- A run is a word if it spells a terminal as a whole. -/
def IsWord (run : List UInt8) : Prop := ∃ t ∈ Terminal.words, t.bytes = run

structure FirstUnknownRun (bytes : List UInt8) (i : Nat) (run : List UInt8) : Prop where
  isRun : IsWordRun bytes i run
  unknown : ¬ IsWord run
  first : ∀ j < i, ∀ r, IsWordRun bytes j r → IsWord r

/-- No word can go on in a list of bytes. -/
def StopsWord (bytes : List UInt8) : Prop := ∀ b, bytes.head? = some b → isWordByte b = false

theorem takeWhile_eq_nil_of_stopsWord {bytes : List UInt8} (h : StopsWord bytes) :
    bytes.takeWhile isWordByte = [] := by
  cases bytes with
  | nil => rfl
  | cons b bs => simp [h b rfl]

theorem stopsWord_dropWhile (bytes : List UInt8) : StopsWord (bytes.dropWhile isWordByte) := by
  intro b hb
  have hnot := List.head?_dropWhile_not isWordByte bytes
  simpa [hb] using hnot

/-- A prefix adds no runs but words to those of the bytes behind it. -/
structure AddsWords (u bytes : List UInt8) : Prop where
  run_append : ∀ i r, IsWordRun (u ++ bytes) i r →
    IsWord r ∨ ∃ j, i = u.length + j ∧ IsWordRun bytes j r
  append_run : ∀ j r, IsWordRun bytes j r → IsWordRun (u ++ bytes) (u.length + j) r

namespace AddsWords

variable {u v bytes : List UInt8}

theorem nil (bytes : List UInt8) : AddsWords [] bytes where
  run_append i r h := .inr ⟨i, by simp, h⟩
  append_run j r h := by simpa using h

theorem append (hu : AddsWords u (v ++ bytes)) (hv : AddsWords v bytes) :
    AddsWords (u ++ v) bytes where
  run_append i r h := by
    rw [List.append_assoc] at h
    obtain hr | ⟨j, rfl, hr⟩ := hu.run_append i r h
    · exact .inl hr
    · obtain hw | ⟨k, rfl, hv⟩ := hv.run_append j r hr
      · exact .inl hw
      · exact .inr ⟨k, by simp [Nat.add_assoc], hv⟩
  append_run j r h := by
    have := hu.append_run _ r (hv.append_run j r h)
    simpa [Nat.add_assoc] using this

theorem single {b : UInt8} (hb : isWordByte b = false) (bytes : List UInt8) :
    AddsWords [b] bytes where
  run_append i r h := by
    right
    cases i with
    | zero => exact absurd (by simpa [hb] using h.longest) h.nonempty
    | succ j =>
      refine ⟨j, by simp [Nat.add_comm], h.nonempty, by simpa using h.longest, fun c hc => ?_⟩
      exact h.before c (by simp [List.getLast?_cons, hc])
  append_run j r h := by
    refine ⟨h.nonempty, by simpa [Nat.add_comm] using h.longest, fun c hc => ?_⟩
    simp only [List.length_cons, List.length_nil, Nat.zero_add, Nat.add_comm 1 j,
      List.singleton_append, List.take_succ_cons, List.getLast?_cons, Option.some.injEq] at hc
    cases ht : (bytes.take j).getLast? with
    | none =>
      rw [ht] at hc
      exact hc ▸ hb
    | some d =>
      rw [ht] at hc
      exact hc ▸ h.before d ht

theorem of_forall_false (hu : ∀ b ∈ u, isWordByte b = false) (bytes : List UInt8) :
    AddsWords u bytes := by
  induction u with
  | nil => exact nil bytes
  | cons b u ih =>
    exact (single (hu b (by simp)) (u ++ bytes)).append (ih fun c hc => hu c (by simp [hc]))

theorem isWordRun_zero (hne : u ≠ []) (hu : ∀ b ∈ u, isWordByte b) (hs : StopsWord bytes) :
    IsWordRun (u ++ bytes) 0 u := by
  refine ⟨hne, ?_, by simp⟩
  rw [List.drop_zero, List.takeWhile_append_of_pos hu, takeWhile_eq_nil_of_stopsWord hs,
    List.append_nil]

theorem of_isWord (hw : IsWord u) (hne : u ≠ []) (hu : ∀ b ∈ u, isWordByte b)
    (hs : StopsWord bytes) : AddsWords u bytes where
  run_append i r h := by
    obtain hi | hi := Nat.lt_or_ge i u.length
    · left
      cases i with
      | zero =>
        rw [h.longest, ← (isWordRun_zero hne hu hs).longest]
        exact hw
      | succ i =>
        -- Inside of the word the byte before is a word byte.
        have hi' : i < u.length := Nat.lt_of_succ_lt hi
        have hlast : ((u ++ bytes).take (i + 1)).getLast? = some u[i] := by
          rw [List.take_append_of_le_length hi.le, List.getLast?_take]
          simp [hi']
        have hb := h.before _ hlast
        rw [hu _ (List.getElem_mem hi')] at hb
        cases hb
    · obtain ⟨j, rfl⟩ := Nat.exists_eq_add_of_le hi
      refine .inr ⟨j, rfl, h.nonempty, by simpa using h.longest, fun c hc => ?_⟩
      refine h.before c ?_
      rw [List.take_length_add_append, List.getLast?_append, hc]
      rfl
  append_run j r h := by
    refine ⟨h.nonempty, by simpa using h.longest, fun c hc => ?_⟩
    rw [List.take_length_add_append, List.getLast?_append] at hc
    cases ht : (bytes.take j).getLast? with
    | some d =>
      rw [ht] at hc
      obtain rfl : d = c := by simpa using hc
      exact h.before d ht
    | none =>
      -- The run would start at the head of the bytes, where no word can go on.
      have hj : bytes.drop j = bytes := by
        obtain rfl | rfl := List.take_eq_nil_iff.1 (List.getLast?_eq_none_iff.1 ht)
        · rfl
        · simp
      refine absurd ?_ h.nonempty
      rw [h.longest, hj, takeWhile_eq_nil_of_stopsWord hs]

end AddsWords
end ZeroOne
