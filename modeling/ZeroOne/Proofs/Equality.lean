import ZeroOne.Tree.Compare

/-! Equality of trees is structural. A walk belongs to one tree only, so neither the comparison of two
walks nor a dictionary takes one tree for another. -/
namespace ZeroOne.Tree

/-- A native tree holds no foreign item; its composites may have any symbol. -/
def Native : Tree → Prop
  | .binary _ l r => l.Native ∧ r.Native
  | .foreign _ => False
  | _ => True

namespace Native

variable {a b t : Tree}

/-- The walk of a native tree has a label everywhere. -/
theorem exists_labels (h : t.Native) : ∃ ls : List Label, t.labels = ls.map .ok := by
  induction t with
  | number n => exact ⟨[.number n], rfl⟩
  | bool b => exact ⟨[.bool b], rfl⟩
  | foreign f => exact h.elim
  | binary s l r ihl ihr =>
    obtain ⟨ls, hl⟩ := ihl h.1
    obtain ⟨rs, hr⟩ := ihr h.2
    exact ⟨.symbol s :: (ls ++ rs), by simp [labels, hl, hr]⟩

theorem readable (h : t.Native) : t.Readable := by
  obtain ⟨ls, hls⟩ := h.exists_labels
  intro x hx
  rw [hls] at hx
  obtain ⟨y, _, rfl⟩ := List.mem_map.1 hx
  exact ⟨y, rfl⟩

theorem isNode (h : t.Native) : t.isNode := by
  cases t with
  | foreign f => exact h.elim
  | _ => rfl

theorem exists_key (h : t.Native) : ∃ ls, t.labels = ls.map .ok ∧ t.key? = .ok (.node ls) := by
  obtain ⟨ls, hls⟩ := h.exists_labels
  have hread : ∀ ls : List Label, (ls.map .ok).mapM id = (.ok ls : Except Fault (List Label)) := by
    intro ls
    induction ls with
    | nil => rfl
    | cons l ls ih =>
      rw [List.map_cons, List.mapM_cons, ih]
      rfl
  refine ⟨ls, hls, ?_⟩
  rw [key?_of_isNode h.isNode, hls, hread]
  rfl

/-- The keys of native trees are equal only for equal trees. -/
theorem key_inj {j k : Key} (ha : a.Native) (hb : b.Native) (hj : a.key? = .ok j)
    (hk : b.key? = .ok k) : j = k ↔ a = b := by
  obtain ⟨ls, hls, hj'⟩ := ha.exists_key
  obtain ⟨ms, hms, hk'⟩ := hb.exists_key
  obtain rfl : Key.node ls = j := Except.ok.inj (hj'.symm.trans hj)
  obtain rfl : Key.node ms = k := Except.ok.inj (hk'.symm.trans hk)
  have hmap : ls.map (Except.ok (ε := Fault)) = ms.map .ok ↔ ls = ms :=
    List.map_inj_right fun _ _ => Except.ok.inj
  rw [Key.node.injEq, ← hmap, ← hls, ← hms, labels_inj]

end Native

/-- The keys that were seen are those of some trees, and no tree among these is kept again. -/
theorem distinctFrom_of_native {ts : List Tree} (hts : ∀ t ∈ ts, t.Native) :
    ∀ (seen : List Key) (before : List Tree),
      (∀ t k, t.Native → t.key? = .ok k → (k ∈ seen ↔ t ∈ before)) →
      distinctFrom seen ts = .ok (ts.filter (· ∉ before)).eraseDups := by
  induction ts with
  | nil =>
    intro seen before _
    rfl
  | cons t ts ih =>
    intro seen before hseen
    have ht : t.Native := hts t (by simp)
    have hrest := ih fun u hu => hts u (List.mem_cons_of_mem _ hu)
    obtain ⟨ls, _, hkey⟩ := ht.exists_key
    have hmem := hseen t _ ht hkey
    rw [distinctFrom, hkey]
    by_cases hb : t ∈ before
    · simp only [hmem.2 hb, if_true]
      rw [hrest seen before hseen]
      simp [hb]
    · have hseen' : ∀ u k, u.Native → u.key? = .ok k →
          (k ∈ Key.node ls :: seen ↔ u ∈ t :: before) := by
        intro u k hu hk
        rw [List.mem_cons, List.mem_cons, hu.key_inj ht hk hkey, hseen u k hu hk]
      have hfilter : ts.filter (· ∉ t :: before) =
          (ts.filter (· ∉ before)).filter fun u => !u == t := by
        rw [List.filter_filter]
        refine List.filter_congr fun u _ => ?_
        rw [Bool.eq_iff_iff]
        simp
      simp only [mt hmem.1 hb, if_false]
      rw [hrest _ _ hseen', hfilter, List.filter_cons_of_pos (by simpa using hb), List.eraseDups_cons]
      rfl

/-- Native trees are equal if and only if they are the same, and then they have the same key. -/
theorem native_equality :
    (∀ a b : Tree, a.Native → b.Native →
        a.same? b = .ok (decide (a = b)) ∧ a.differs? b = .ok (decide (a ≠ b)) ∧
          ∃ j k, a.key? = .ok j ∧ b.key? = .ok k ∧ (j = k ↔ a = b)) ∧
      ∀ ts : List Tree, (∀ t ∈ ts, t.Native) → distinct ts = .ok ts.eraseDups := by
  refine ⟨fun a b ha hb => ?_, fun ts hts => ?_⟩
  · have hsame := same?_eq ha.readable hb.readable
    obtain ⟨ls, _, hj⟩ := ha.exists_key
    obtain ⟨ms, _, hk⟩ := hb.exists_key
    refine ⟨hsame, ?_, _, _, hj, hk, ha.key_inj hb hj hk⟩
    rw [differs?, hsame]
    simp [Except.map]
  · have hnone : ∀ t k, t.Native → t.key? = .ok k → (k ∈ ([] : List Key) ↔ t ∈ ([] : List Tree)) := by
      simp
    have hall : ts.filter (· ∉ ([] : List Tree)) = ts := List.filter_eq_self.2 (by simp)
    rw [distinct, distinctFrom_of_native hts [] [] hnone, hall]

/-- Two sums that differ in their nesting only, and a zero beside a false. -/
theorem native_equality_nesting :
    (add (add (.number 1) (.number 0)) (.bool false)).Native ∧
      (add (.number 1) (add (.number 0) (.bool false))).Native ∧
      (add (add (.number 1) (.number 0)) (.bool false)).same?
        (add (.number 1) (add (.number 0) (.bool false))) = .ok false ∧
      distinct [zero, .bool false, .binary .unspecified zero zero, zero, .bool false] =
        .ok [zero, .bool false, .binary .unspecified zero zero] := by
  have ha : (add (add (.number 1) (.number 0)) (.bool false)).Native := ⟨⟨trivial, trivial⟩, trivial⟩
  have hb : (add (.number 1) (add (.number 0) (.bool false))).Native := ⟨trivial, trivial, trivial⟩
  have hts : ∀ t ∈ [zero, .bool false, .binary .unspecified zero zero, zero, .bool false],
      t.Native := by simp [Native]
  have hfirst : [zero, .bool false, .binary .unspecified zero zero, zero, .bool false].eraseDups =
      [zero, .bool false, .binary .unspecified zero zero] := by decide
  refine ⟨ha, hb, (native_equality.1 _ _ ha hb).1.trans (by simp), ?_⟩
  rw [native_equality.2 _ hts, hfirst]

end ZeroOne.Tree
