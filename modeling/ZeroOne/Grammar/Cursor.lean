import ZeroOne.Text
import ZeroOne.Token

/-! Places in a text, in code points, and the terminals that are spelled there. -/
namespace ZeroOne.Grammar

/-- An offset with its line and column, which count from one. -/
structure Place where
  pos : Int
  line : Int
  column : Int
  deriving DecidableEq, Repr

namespace Place

def start : Place := ⟨0, 1, 1⟩

def nowhere : Place := ⟨-1, -1, -1⟩

/-- The place behind a code point; a line feed ends its line. -/
def next (p : Place) (c : CodePoint) : Place :=
  if c = 10 then ⟨p.pos + 1, p.line + 1, 1⟩ else ⟨p.pos + 1, p.line, p.column + 1⟩

def behind (front : Text) : Place := front.foldl next start

theorem pos_behind (front : Text) : (behind front).pos = front.length := by
  have pos_foldl : ∀ (p : Place), (front.foldl next p).pos = p.pos + front.length := by
    induction front with
    | nil => simp
    | cons c front ih =>
      intro p
      have hnext : (p.next c).pos = p.pos + 1 := by
        rw [next]
        split <;> rfl
      rw [List.foldl_cons, ih, hnext, List.length_cons]
      omega
  have h := pos_foldl start
  rwa [show start.pos = 0 from rfl, Int.zero_add] at h

end Place

/-- Space, tab, line feed, form feed and carriage return may stand between terminals. -/
def isGap (c : CodePoint) : Bool := c = 32 || c = 9 || c = 10 || c = 12 || c = 13

def spell (t : Terminal) : Text := t.letters.map CodePoint.ofChar

def strip? : (spelling text : Text) → Option Text
  | [], text => some text
  | c :: cs, d :: ds => if c = d then strip? cs ds else none
  | _ :: _, [] => none

theorem strip?_eq_some_iff {w text rest : Text} : strip? w text = some rest ↔ text = w ++ rest := by
  induction w generalizing text with
  | nil => simp [strip?]
  | cons c cs ih =>
    cases text with
    | nil => simp [strip?]
    | cons d ds =>
      by_cases h : c = d
      · simp [strip?, h, ih]
      · simp [strip?, h, Ne.symm h]

/-- The rest of a text and the place where it starts. -/
structure Cursor where
  rest : Text
  place : Place
  deriving DecidableEq, Repr

namespace Cursor

def ofText (t : Text) : Cursor := ⟨t, .start⟩

def skip (c : Cursor) : Cursor :=
  ⟨c.rest.dropWhile isGap, (c.rest.takeWhile isGap).foldl Place.next c.place⟩

/-- Moves over a terminal, if its spelling comes next. -/
def take? (c : Cursor) (t : Terminal) : Option Cursor :=
  match strip? (spell t) c.rest with
  | some rest => some ⟨rest, (spell t).foldl Place.next c.place⟩
  | none => none

/-- The first of some terminals whose spelling comes next, and the cursor behind it. -/
def scan? (c : Cursor) : List Terminal → Option (Terminal × Cursor)
  | [] => none
  | t :: ts =>
    match c.take? t with
    | some d => some (t, d)
    | none => c.scan? ts

theorem length_rest_skip (c : Cursor) : c.skip.rest.length ≤ c.rest.length :=
  (List.dropWhile_suffix isGap).length_le

private theorem length_spell_pos (t : Terminal) : 0 < (spell t).length := by
  rcases t with (_ | _ | _ | _) | (_ | _ | _) | _ | _ <;> decide

theorem length_rest_take? {c d : Cursor} {t : Terminal} (h : c.take? t = some d) :
    d.rest.length < c.rest.length := by
  rw [take?] at h
  split at h
  · rename_i rest hs
    cases h
    have := length_spell_pos t
    simp only [strip?_eq_some_iff.1 hs, List.length_append]
    omega
  · cases h

theorem take?_of_scan? {c d : Cursor} {t : Terminal} {ts : List Terminal}
    (h : c.scan? ts = some (t, d)) : t ∈ ts ∧ c.take? t = some d := by
  induction ts with
  | nil => cases h
  | cons u us ih =>
    rw [scan?] at h
    split at h
    · rename_i hu
      cases h
      exact ⟨List.mem_cons_self, hu⟩
    · exact ⟨List.mem_cons_of_mem _ (ih h).1, (ih h).2⟩

end Cursor
end ZeroOne.Grammar
