import Mathlib
import ZeroOne.Proofs.Equality
import ZeroOne.Tree.Render

/-! Printing loses nothing. The form of a tree can be told from what follows it, as long as no number
goes on there. -/
namespace ZeroOne

def isNumeral (c : Char) : Bool := c.isDigit || c = '-'

def StopsNumber (rest : List Char) : Prop := ∀ c, rest.head? = some c → isNumeral c = false

theorem stopsNumber_cons {c : Char} (h : isNumeral c = false) (rest : List Char) :
    StopsNumber (c :: rest) := by
  intro d hd
  obtain rfl := Option.some.inj hd
  exact h

theorem isNumeral_of_mem_toDigits {n : Nat} {c : Char} (h : c ∈ Nat.toDigits 10 n) : isNumeral c := by
  have hdigit : c.isDigit = true := Nat.isDigit_of_mem_toDigits (by omega) (by omega) h
  rw [isNumeral, hdigit]
  rfl

/-- A number is written with numerals only, at least one of them. -/
theorem exists_repr_eq_cons (n : Int) :
    ∃ c cs, n.repr.toList = c :: cs ∧ ∀ d ∈ c :: cs, isNumeral d := by
  obtain ⟨c, cs, hn⟩ := List.exists_cons_of_ne_nil (Nat.toDigits_ne_nil (n := n.natAbs) (b := 10))
  have hdigits : ∀ d ∈ c :: cs, isNumeral d := by
    intro d hd
    rw [← hn] at hd
    exact isNumeral_of_mem_toDigits hd
  rw [Int.repr_eq_if]
  by_cases h : 0 ≤ n
  · have habs : n.toNat = n.natAbs := by omega
    rw [if_pos h, habs, Nat.toList_repr, hn]
    exact ⟨c, cs, rfl, hdigits⟩
  · have habs : (-n).toNat = n.natAbs := by omega
    have hsign : isNumeral '-' := by decide
    rw [if_neg h, habs, String.toList_append, Nat.toList_repr, hn]
    refine ⟨'-', c :: cs, rfl, fun d hd => ?_⟩
    rcases List.mem_cons.1 hd with rfl | hd
    · exact hsign
    · exact hdigits d hd

theorem takeWhile_repr_append (n : Int) {rest : List Char} (h : StopsNumber rest) :
    (n.repr.toList ++ rest).takeWhile isNumeral = n.repr.toList := by
  obtain ⟨c, cs, hn, hall⟩ := exists_repr_eq_cons n
  have hrest : rest.takeWhile isNumeral = [] := by
    cases rest with
    | nil => rfl
    | cons d rest => simp [h d rfl]
  rw [hn, List.takeWhile_append_of_pos hall, hrest, List.append_nil]

/-- A number ends where its numerals end. -/
theorem repr_append_inj {m n : Int} {xs ys : List Char} (hx : StopsNumber xs) (hy : StopsNumber ys)
    (h : m.repr.toList ++ xs = n.repr.toList ++ ys) : m = n ∧ xs = ys := by
  have hrepr : m.repr.toList = n.repr.toList := by
    rw [← takeWhile_repr_append m hx, ← takeWhile_repr_append n hy, h]
  have hrest : xs = ys := by
    rw [hrepr] at h
    exact List.append_cancel_left h
  exact ⟨Int.repr_injective (String.toList_inj.1 hrepr), hrest⟩

namespace Symbol

/-- A symbol ends where the blank behind it stands. -/
theorem spelling_append_inj {s s' : Symbol} {xs ys : List Char}
    (h : s.spelling.toList ++ ' ' :: xs = s'.spelling.toList ++ ' ' :: ys) : s = s' ∧ xs = ys := by
  have hadd : (Symbol.op .add).spelling.toList = ['+'] := by decide
  have hmul : (Symbol.op .mul).spelling.toList = ['*'] := by decide
  have hor : (Symbol.op .or).spelling.toList = ['|', '|'] := by decide
  have hnone : Symbol.unspecified.spelling.toList = ['?'] := by decide
  rcases s with (_ | _ | _) | _ <;> rcases s' with (_ | _ | _) | _ <;>
    simp_all

end Symbol

namespace Tree

theorem toList_render_binary (s : Symbol) (l r : Tree) (rest : List Char) :
    (Tree.binary s l r).render.toList ++ rest =
      '(' :: (l.render.toList ++
        ' ' :: (s.spelling.toList ++ ' ' :: (r.render.toList ++ ')' :: rest))) := by
  have hopen : "(".toList = ['('] := by decide
  have hblank : " ".toList = [' '] := by decide
  have hclose : ")".toList = [')'] := by decide
  simp [render, hopen, hblank, hclose]

def Opening : Tree → Char → Prop
  | .number _, c => isNumeral c
  | .bool true, c => c = 't'
  | .bool false, c => c = 'f'
  | _, c => c = '('

theorem exists_opening {t : Tree} (h : t.Native) (rest : List Char) :
    ∃ c, (t.render.toList ++ rest).head? = some c ∧ t.Opening c := by
  cases t with
  | foreign f => exact h.elim
  | number n =>
    obtain ⟨c, cs, hn, hall⟩ := exists_repr_eq_cons n
    have hfirst : isNumeral c := hall c List.mem_cons_self
    refine ⟨c, ?_, hfirst⟩
    rw [render, hn]
    rfl
  | bool b =>
    have htrue : (bool true).render.toList = ['t', 'r', 'u', 'e'] := by decide
    have hfalse : (bool false).render.toList = ['f', 'a', 'l', 's', 'e'] := by decide
    cases b with
    | true => exact ⟨'t', by rw [htrue]; rfl, rfl⟩
    | false => exact ⟨'f', by rw [hfalse]; rfl, rfl⟩
  | binary s l r =>
    refine ⟨'(', ?_, rfl⟩
    rw [toList_render_binary]
    rfl

/-- Trees of the same kind, and of the same value if they are truth values. -/
def SameKind : Tree → Tree → Prop
  | .number _, .number _ => True
  | .bool d, .bool e => d = e
  | .binary _ _ _, .binary _ _ _ => True
  | _, _ => False

theorem sameKind_of_opening {a b : Tree} {c : Char} (ha : a.Native) (hb : b.Native) (hac : a.Opening c)
    (hbc : b.Opening c) : SameKind a b := by
  have htrue : isNumeral 't' = false := by decide
  have hfalse : isNumeral 'f' = false := by decide
  have hparen : isNumeral '(' = false := by decide
  rcases a with _ | (_ | _) | _ | _ <;> rcases b with _ | (_ | _) | _ | _ <;>
    simp_all [SameKind, Opening, Native]

/-- The first character tells which kind of tree it is. -/
theorem sameKind_of_render {a b : Tree} (ha : a.Native) (hb : b.Native) {xs ys : List Char}
    (h : a.render.toList ++ xs = b.render.toList ++ ys) : SameKind a b := by
  obtain ⟨c, hc, hac⟩ := exists_opening ha xs
  obtain ⟨d, hd, hbd⟩ := exists_opening hb ys
  rw [h, hd] at hc
  obtain rfl := Option.some.inj hc
  exact sameKind_of_opening ha hb hac hbd

/-- The form of a tree fixes the tree and where the form ends, if no number goes on behind it. -/
theorem render_append_inj {a b : Tree} (ha : a.Native) (hb : b.Native) {xs ys : List Char}
    (hx : StopsNumber xs) (hy : StopsNumber ys)
    (h : a.render.toList ++ xs = b.render.toList ++ ys) : a = b ∧ xs = ys := by
  have hkind := sameKind_of_render ha hb h
  induction a generalizing b xs ys with
  | foreign f => exact ha.elim
  | number m =>
    cases b with
    | number n =>
      obtain ⟨rfl, hrest⟩ := repr_append_inj hx hy h
      exact ⟨rfl, hrest⟩
    | _ => exact hkind.elim
  | bool d =>
    cases b with
    | bool e =>
      obtain rfl : d = e := hkind
      exact ⟨rfl, List.append_cancel_left h⟩
    | _ => exact hkind.elim
  | binary s l r ihl ihr =>
    cases b with
    | binary s' l' r' =>
      -- Behind each operand stands a blank or a parenthesis, with which no number goes on.
      have hblank : ∀ rest, StopsNumber (' ' :: rest) := stopsNumber_cons (by decide)
      have hclose : ∀ rest, StopsNumber (')' :: rest) := stopsNumber_cons (by decide)
      rw [toList_render_binary, toList_render_binary, List.cons_inj_right] at h
      obtain ⟨rfl, hbehind⟩ := ihl ha.1 hb.1 (hblank _) (hblank _) h (sameKind_of_render ha.1 hb.1 h)
      obtain ⟨rfl, hright⟩ := Symbol.spelling_append_inj (List.cons.inj hbehind).2
      obtain ⟨rfl, hend⟩ :=
        ihr ha.2 hb.2 (hclose _) (hclose _) hright (sameKind_of_render ha.2 hb.2 hright)
      exact ⟨rfl, (List.cons.inj hend).2⟩
    | _ => exact hkind.elim

theorem render_inj {a b : Tree} (ha : a.Native) (hb : b.Native) (h : a.render = b.render) : a = b := by
  have hnil : StopsNumber [] := nofun
  have happend : a.render.toList ++ [] = b.render.toList ++ [] := by rw [h]
  exact (render_append_inj ha hb hnil hnil happend).1

/-- Trees have the same form if and only if they are equal, and are printed in it if no number is
too long. -/
theorem printing_unambiguous :
    (∀ t : Tree, (t.Writable → t.print = .ok t.render) ∧
        (¬ t.Writable → t.print = .error .tooManyDigits)) ∧
      ∀ a b : Tree, a.Native → b.Native →
        a.same? b = .ok (decide (a.render = b.render)) ∧
          ∀ s s', a.print = .ok s → b.print = .ok s' → a.same? b = .ok (decide (s = s')) := by
  refine ⟨fun t => ⟨print_of_writable, print_of_not_writable⟩, fun a b ha hb => ?_⟩
  have hform : a = b ↔ a.render = b.render := ⟨congrArg render, render_inj ha hb⟩
  have hequal : a.same? b = .ok (decide (a.render = b.render)) := by
    rw [same?_eq ha.readable hb.readable, decide_eq_decide.2 hform]
  refine ⟨hequal, fun s s' hs hs' => ?_⟩
  obtain ⟨_, rfl⟩ := print_eq_ok_iff.1 hs
  obtain ⟨_, rfl⟩ := print_eq_ok_iff.1 hs'
  exact hequal

/-- The same digits and signs stand in both, but not in the same numbers. -/
theorem printing_unambiguous_digits :
    let a := Tree.binary .unspecified (.number (-11)) (.number 2)
    let b := Tree.binary .unspecified (.number (-1)) (.number 12)
    a.Native ∧ b.Native ∧ a.print = .ok "(-11 ? 2)" ∧ b.print = .ok "(-1 ? 12)" ∧
      a.same? b = .ok false := by
  intro a b
  obtain ⟨hprint, hequal⟩ := printing_unambiguous
  have ha : a.Native := ⟨trivial, trivial⟩
  have hb : b.Native := ⟨trivial, trivial⟩
  have hfits : Fits (-11) ∧ Fits 2 ∧ Fits (-1) ∧ Fits 12 := by decide
  have hrendera : a.render = "(-11 ? 2)" := by decide
  have hrenderb : b.render = "(-1 ? 12)" := by decide
  have hprinta : a.print = .ok "(-11 ? 2)" := hrendera ▸ (hprint a).1 ⟨hfits.1, hfits.2.1⟩
  have hprintb : b.print = .ok "(-1 ? 12)" := hrenderb ▸ (hprint b).1 ⟨hfits.2.2.1, hfits.2.2.2⟩
  refine ⟨ha, hb, hprinta, hprintb, ?_⟩
  rw [(hequal a b ha hb).2 _ _ hprinta hprintb]
  decide

end Tree
end ZeroOne
