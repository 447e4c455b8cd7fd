import ZeroOne.Proofs.Answer
import ZeroOne.Proofs.Relabeling

/-! Operand order never shows in an answer. The trees of the two orders are mirror images, and neither
simplification nor evaluation can tell a sum or product from its mirror image. -/
namespace ZeroOne

namespace Tree

/-- A composite keeps its symbol in the mirror. If it also exchanges its operands, it is no
disjunction. -/
theorem mirror_binary (s : Symbol) :
    (∀ l r, (Tree.binary s l r).mirror = .binary s l.mirror r.mirror) ∨
      s ≠ .op .or ∧ ∀ l r, (Tree.binary s l r).mirror = .binary s r.mirror l.mirror := by
  rcases s with (_ | _ | _) | _
  · exact .inr ⟨by simp, fun _ _ => rfl⟩
  · exact .inr ⟨by simp, fun _ _ => rfl⟩
  · exact .inl fun _ _ => rfl
  · exact .inl fun _ _ => rfl

theorem mirror_eq_zero_iff {t : Tree} : t.mirror = zero ↔ t = zero := by
  cases t with
  | binary s l r => obtain hm | ⟨_, hm⟩ := mirror_binary s <;> simp [hm]
  | _ => rfl

/-- A sum or product does not depend on which operand comes first, since both must be numbers. -/
theorem outcome_comm {o : Operator} (h : o ≠ .or) (a b : Option Value) :
    outcome o a b = outcome o b a := by
  cases o with
  | or => exact absurd rfl h
  | add =>
    rcases a with _ | m | _ <;> rcases b with _ | n | _ <;>
      simp [outcome, decided?, combine, Int.add_comm]
  | mul =>
    rcases a with _ | m | _ <;> rcases b with _ | n | _ <;>
      simp [outcome, decided?, combine, Int.mul_comm]

theorem value?_mirror (t : Tree) : t.mirror.value? = t.value? := by
  induction t with
  | binary s l r ihl ihr =>
    cases s with
    | unspecified => rfl
    | op o =>
      obtain hm | ⟨ho, hm⟩ := mirror_binary (.op o)
      · rw [hm, value?, value?, ihl, ihr]
      · have hne : o ≠ .or := fun h => ho (congrArg _ h)
        rw [hm, value?, value?, ihl, ihr, outcome_comm hne]
  | _ => rfl

theorem zeroProduct_mirror {s : Symbol} {l r : Tree} :
    ZeroProduct s l.mirror r.mirror ↔ ZeroProduct s l r := by
  simp only [ZeroProduct, mirror_eq_zero_iff]

theorem zeroProduct_comm {s : Symbol} {l r : Tree} : ZeroProduct s l r ↔ ZeroProduct s r l :=
  and_congr_right fun _ => or_comm

theorem normal_mirror (t : Tree) : t.mirror.normal = t.normal.mirror := by
  induction t with
  | binary s l r ihl ihr =>
    have hstraight : ZeroProduct s l.mirror.normal r.mirror.normal ↔
        ZeroProduct s l.normal r.normal := by
      rw [ihl, ihr, zeroProduct_mirror]
    have hcrossed : ZeroProduct s r.mirror.normal l.mirror.normal ↔
        ZeroProduct s l.normal r.normal :=
      zeroProduct_comm.trans hstraight
    by_cases hz : ZeroProduct s l.normal r.normal
    · rw [normal_of_zeroProduct hz]
      obtain hm | ⟨_, hm⟩ := mirror_binary s
      · rw [hm, normal_of_zeroProduct (hstraight.2 hz)]
        rfl
      · rw [hm, normal_of_zeroProduct (hcrossed.2 hz)]
        rfl
    · rw [normal_of_not_zeroProduct hz]
      obtain hm | ⟨_, hm⟩ := mirror_binary s
      · rw [hm, hm, normal_of_not_zeroProduct (mt hstraight.1 hz), ihl, ihr]
      · rw [hm, hm, normal_of_not_zeroProduct (mt hcrossed.1 hz), ihl, ihr]
  | _ => rfl

end Tree

theorem carries_mirror : Carries .written .swapped Tree.mirror where
  literal := OperandOrder.arrange_ofLiteral .swapped
  combine := OperandOrder.arrange_binary .swapped

/-- The parser of swapped operands gives the mirror image of each tree. -/
theorem parse_swapped (text : Text) :
    (parse .swapped text).result =
      mapBoth Tree.mirror (SyntaxError.mapTrees Tree.mirror) (parse .written text).result :=
  (parseFrom_mapTrees carries_mirror (Lexer.ofText text)).1

def ParseError.mirroredMessage : ParseError → String
  | .several ts _ =>
    "Expected a single expression, found " ++ ts.length.repr ++
      " (" ++ ", ".intercalate (ts.map fun t => t.mirror.render) ++ ")"
  | e => e.message

/-- The answers of two parses, the second of which is the mirror image of the first. -/
inductive Mirrored : Except SyntaxError Tree → Except SyntaxError Tree → Prop
  | tree (t : Tree) : Mirrored (.ok t) (.ok t.mirror)
  | lexical (e : LexError) : Mirrored (.error (.lexical e)) (.error (.lexical e))
  | structural {e e' : ParseError} (pos : e'.pos = e.pos) (token : e'.token? = e.token?)
      (message : e'.message = e.mirroredMessage) :
    Mirrored (.error (.structural e)) (.error (.structural e'))

theorem ParseError.message_map_mirror (e : ParseError) :
    (e.map Tree.mirror id).message = e.mirroredMessage := by
  cases e with
  | several ts p =>
    have hmessage : ∀ us, (several us p).message =
        "Expected a single expression, found " ++ us.length.repr ++
          " (" ++ ", ".intercalate (us.map Tree.render) ++ ")" := fun _ => rfl
    have hrender : (ts.map Tree.mirror).map Tree.render = ts.map fun t => t.mirror.render :=
      List.map_map
    change (several (ts.map Tree.mirror) p).message = _
    rw [hmessage, List.length_map, hrender]
    rfl
  | _ => rfl

theorem mirrored_mapBoth (x : Except SyntaxError Tree) :
    Mirrored x (mapBoth Tree.mirror (SyntaxError.mapTrees Tree.mirror) x) := by
  match x with
  | .ok t => exact .tree t
  | .error (.lexical e) => exact .lexical e
  | .error (.structural e) =>
    refine .structural ?_ ?_ e.message_map_mirror
    all_goals cases e <;> rfl

/-- From any source the parser of swapped operands gives the mirror image of the tree or error, and
reads as far. -/
theorem parse_mirrored {σ : Type} [TokenSource σ] (source : σ) :
    Mirrored (parseFrom .written source).1.result (parseFrom .swapped source).1.result ∧
      (parseFrom .swapped source).2 = (parseFrom .written source).2 := by
  obtain ⟨hresult, hrest⟩ := parseFrom_mapTrees carries_mirror source
  rw [hresult]
  exact ⟨mirrored_mapBoth _, hrest⟩

/-- A product within a sum: both exchange their operands. -/
theorem parse_mirrored_nested :
    (parse .written (.ofString "1 + 0 * true")).result =
        .ok (.add (.number 1) (.mul (.number 0) (.bool true))) ∧
      (parse .swapped (.ofString "1 + 0 * true")).result =
        .ok (.add (.mul (.bool true) (.number 0)) (.number 1)) := by
  have hread : Yields (Lexer.ofText (.ofString "1 + 0 * true"))
      [(.lit .one, 0), (.op .add, 2), (.lit .zero, 4), (.op .mul, 6), (.lit .yes, 8)] ⟨[], 12⟩ :=
    .token rfl (.token rfl (.token rfl (.token rfl (.token rfl (.done _)))))
  have hwritten : (parseFrom .written (Lexer.ofText (.ofString "1 + 0 * true"))).1.result =
      .ok (.add (.number 1) (.mul (.number 0) (.bool true))) :=
    Stacks.read_of_yields_eof hread rfl .start
  refine ⟨hwritten, ?_⟩
  have hmirrored := (parse_mirrored (Lexer.ofText (.ofString "1 + 0 * true"))).1
  rw [hwritten] at hmirrored
  rw [parse]
  generalize (parseFrom .swapped (Lexer.ofText (.ofString "1 + 0 * true"))).1.result = x at hmirrored ⊢
  cases hmirrored
  rfl

/-- Runs in both operand orders have the same result, the same lexical error, or structural errors
at the same token. -/
theorem run_swapped (simplify : Bool) (text : Text) :
    (∃ v, (run simplify .written text).result = .ok v ∧
        (run simplify .swapped text).result = .ok v) ∨
      (∃ e, (run simplify .written text).result = .error (.unreadable (.lexical e)) ∧
        (run simplify .swapped text).result = .error (.unreadable (.lexical e))) ∨
      ∃ e e', (run simplify .written text).result = .error (.unreadable (.structural e)) ∧
        (run simplify .swapped text).result = .error (.unreadable (.structural e')) ∧
        e.pos = e'.pos ∧ e.token? = e'.token? := by
  have hswapped := parse_swapped text
  rcases hp : (parse .written text).result with (e | e) | t
  · rw [hp] at hswapped
    exact .inr (.inl ⟨e, result_run_of_parse_error simplify hp,
      result_run_of_parse_error simplify hswapped⟩)
  · rw [hp] at hswapped
    refine .inr (.inr ⟨e, e.map Tree.mirror id, result_run_of_parse_error simplify hp,
      result_run_of_parse_error simplify hswapped, ?_⟩)
    cases e <;> exact ⟨rfl, rfl⟩
  · rw [hp] at hswapped
    refine .inl ⟨_, result_run_of_parse simplify hp, ?_⟩
    rw [result_run_of_parse simplify hswapped]
    cases simplify with
    | false => exact congrArg _ (Tree.value?_mirror t)
    | true =>
      have hvalue : t.mirror.normal.value? = t.normal.value? := by
        rw [Tree.normal_mirror, Tree.value?_mirror]
      exact congrArg _ hvalue

end ZeroOne
