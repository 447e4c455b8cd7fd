import ZeroOne.Proofs.Agreement

/-! Source trees come back from their written form, by the parser and by the grammar. -/
namespace ZeroOne

open Grammar (Spelled Derives Engine atomic spell isGap)

@[elab_as_elim]
theorem Tree.Source.induction {motive : Tree → Prop} (literal : ∀ l, motive (.ofLiteral l))
    (operation : ∀ o l r, motive l → motive r → motive (.binary (.op o) l r))
    {t : Tree} (h : t.Source) : motive t := by
  induction t with
  | number n =>
    obtain ⟨l, hl⟩ := h
    exact hl ▸ literal l
  | bool b =>
    obtain ⟨l, hl⟩ := h
    exact hl ▸ literal l
  | foreign f =>
    obtain ⟨l, hl⟩ := h
    exact hl ▸ literal l
  | binary s l r ihl ihr =>
    cases s with
    | unspecified => exact h.elim
    | op o => exact operation o l r (ihl h.1) (ihr h.2)

theorem stopsWord_of_mark {t : Terminal} (ht : t ∈ Terminal.marks) (bytes : List UInt8) :
    StopsWord (t.bytes ++ bytes) := by
  obtain ⟨c, cs, hc⟩ := List.exists_cons_of_ne_nil t.bytes_ne_nil
  intro b hb
  rw [hc] at hb
  obtain rfl := Option.some.inj hb
  exact isWordByte_of_mark ht c (by simp [hc])

/-- A text stands for a derived word, whatever follows it, and its runs of word bytes are words. -/
structure Prints (text : Text) (t : Tree) (w : List Terminal) : Prop where
  derives : Derives atomic w t
  spelled : ∀ {v : List Terminal} {rest : Text}, Spelled v rest → Spelled (w ++ v) (text ++ rest)
  words : ∀ {bytes : List UInt8}, StopsWord bytes → AddsWords text.encode bytes

namespace Prints

theorem literal (l : Literal) : Prints (spell (.lit l)) (.ofLiteral l) [.lit l] where
  derives := .literal l
  spelled h := .cons _ h
  words h := by
    rw [encode_spell]
    exact .of_terminal _ fun _ => h

theorem operation {o : Operator} {l r : Tree} {a b : Text} {v w : List Terminal}
    (hl : Prints a l v) (hr : Prints b r w) :
    Prints (spell .lparen ++ (a ++ ([32] ++ (spell (.op o) ++ ([32] ++ (b ++ spell .rparen))))))
      (.binary (.op o) l r) (.lparen :: (v ++ .op o :: w) ++ [.rparen]) where
  derives := by
    have weaken : ∀ {w t p}, p ≤ atomic → Derives atomic w t → Derives p w t :=
      fun hp h => h.weaken hp
    refine .group ((Derives.operation o (weaken ?_ hl.derives) (weaken ?_ hr.derives)).weaken ?_)
    all_goals cases o <;> decide
  spelled {v' rest} h := by
    have gap : ∀ c ∈ ([32] : Text), isGap c := by simp [isGap]
    have hclose := hr.spelled (.cons .rparen h)
    have hop := Spelled.blank_append gap (.cons (.op o) (.blank_append gap hclose))
    have hopen := Spelled.cons .lparen (hl.spelled hop)
    simpa using hopen
  words {bytes} h := by
    have hblank : isWordByte 32 = false := by decide
    have blank : ∀ {u}, AddsWords u bytes → AddsWords ([32] ++ u) bytes :=
      fun hu => (AddsWords.single hblank _).append hu
    have stops : ∀ u, StopsWord ([32] ++ u ++ bytes) := by
      intro u c hc
      obtain rfl := Option.some.inj hc
      exact hblank
    have hrparen : AddsWords Terminal.rparen.bytes bytes :=
      .of_terminal .rparen fun _ => h
    have hright := (hr.words (stopsWord_of_mark (by decide) bytes)).append hrparen
    have operator : ∀ {u}, AddsWords ([32] ++ u) bytes →
        AddsWords ((Terminal.op o).bytes ++ ([32] ++ u)) bytes :=
      fun hu => (AddsWords.of_terminal (.op o) fun _ => stops _).append hu
    have lparen : ∀ {u}, AddsWords u bytes → AddsWords (Terminal.lparen.bytes ++ u) bytes :=
      fun hu => (AddsWords.of_forall_false (isWordByte_of_mark (by decide)) _).append hu
    have hleft := (hl.words (stops _)).append (blank (operator (blank hright)))
    have hall := lparen hleft
    have he : Text.encode [32] = [32] := by decide
    simpa only [encode_append, encode_spell, he] using hall

end Prints

end ZeroOne
