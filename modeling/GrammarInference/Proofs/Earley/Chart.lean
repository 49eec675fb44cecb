/-
GrammarInference/Proofs/Earley/Chart.lean

The chart as a family of lists of items.

Design.  A set of items keeps its items three times: in order, in a look-up tree, and by the nonterminal they
wait for.  `ItemSet.Consistent` says that the three agree; then the ordered list alone describes the set, and
`Chart.listAt` gives it for a position.  Everything the recognizer does to a chart is a sequence of additions,
and each addition either changes nothing or puts one item at the end of one list (`listAt_add`).  So lists only
grow at their ends, and while the set at `j` is processed those before `j` stay as they are (`Chart.Grows`).
-/
import GrammarInference.Earley.Recognizer
import GrammarInference.Proofs.Earley.Table

namespace GrammarInference

namespace Earley

/-! ### Items in a look-up tree -/

theorem Item.compare_eq (a b : Item) : compare a b =
    compareLex (compareOn Item.production) (compareLex (compareOn Item.dot) (compareOn Item.origin)) a b := rfl

instance : Std.TransOrd Item := inferInstanceAs <| Std.TransCmp
  (compareLex (compareOn Item.production) (compareLex (compareOn Item.dot) (compareOn Item.origin)))

instance : Std.LawfulEqOrd Item where
  compare_self := by
    intro a
    rw [Item.compare_eq]
    simp [compareLex, compareOn]
  eq_of_compare := by
    intro a b h
    rw [Item.compare_eq] at h
    obtain ⟨p, d, o⟩ := a
    obtain ⟨p', d', o'⟩ := b
    simp only [compareLex, compareOn, Ordering.then_eq_eq, Nat.compare_eq_eq] at h
    obtain ⟨rfl, rfl, rfl⟩ := h
    rfl

/-! ### Sets of items -/

/-- The dot of the item stands before a reference to `n`. -/
def Item.Waits (t : Table) (n : String) (i : Item) : Prop := t.part? i.production i.dot = some (.name n)

instance (t : Table) (n : String) : DecidablePred (Item.Waits t n) := fun i =>
  inferInstanceAs (Decidable (t.part? i.production i.dot = some (.name n)))

namespace ItemSet

/-- The look-up tree and the waiting lists of a set agree with its items. -/
structure Consistent (t : Table) (s : ItemSet) : Prop where
  /-- No item occurs twice. -/
  nodup : s.items.toList.Nodup
  /-- The tree holds the items. -/
  mem_seen : ∀ i, s.seen.contains i = true ↔ i ∈ s.items.toList
  /-- The items that wait for a nonterminal are listed in the order of the set. -/
  waiting : ∀ n, (s.waitingFor n).toList = s.items.toList.filter fun i => decide (i.Waits t n)

variable {t : Table}

theorem consistent_empty : Consistent t ItemSet.empty where
  nodup := List.nodup_nil
  mem_seen := by simp [ItemSet.empty]
  waiting := by simp [ItemSet.empty, waitingFor, Std.TreeMap.get?_eq_getElem?]

theorem add_of_mem {s : ItemSet} (hs : s.Consistent t) {i : Item} (h : i ∈ s.items.toList) (next : Option Part) :
    s.add i next = s := by
  obtain ⟨items, seen, waiting⟩ := s
  exact if_pos ((hs.mem_seen i).mpr h)

theorem add_of_not_mem {s : ItemSet} (hs : s.Consistent t) {i : Item} (h : i ∉ s.items.toList)
    (next : Option Part) :
    s.add i next = ⟨s.items.push i, s.seen.insert i,
      match next with
      | some (.name n) => s.waiting.alter n fun w => some ((w.getD #[]).push i)
      | _ => s.waiting⟩ := by
  obtain ⟨items, seen, waiting⟩ := s
  exact if_neg fun hc => h ((hs.mem_seen i).mp hc)

theorem toList_items_add_of_not_mem {s : ItemSet} (hs : s.Consistent t) {i : Item} (h : i ∉ s.items.toList)
    (next : Option Part) : (s.add i next).items.toList = s.items.toList ++ [i] := by
  rw [add_of_not_mem hs h]
  exact Array.toList_push

/-- A new item joins the items that wait for the nonterminal behind its dot. -/
theorem toList_waitingFor_add_of_not_mem {s : ItemSet} (hs : s.Consistent t) {i : Item} (h : i ∉ s.items.toList)
    (n : String) : ((s.add i (t.part? i.production i.dot)).waitingFor n).toList =
      (s.waitingFor n).toList ++ if i.Waits t n then [i] else [] := by
  rw [add_of_not_mem hs h, waitingFor, waitingFor, Std.TreeMap.get?_eq_getElem?, Std.TreeMap.get?_eq_getElem?]
  rcases hnext : t.part? i.production i.dot with - | w | m
  · simp [Item.Waits, hnext]
  · simp [Item.Waits, hnext]
  · by_cases hm : m = n
    · subst hm
      simp [Item.Waits, hnext]
    · simp [Item.Waits, hnext, hm, Std.TreeMap.getElem?_alter]

/-- An addition leaves a consistent set, if it is told what stands behind the dot. -/
theorem Consistent.add {s : ItemSet} (hs : s.Consistent t) (i : Item) :
    (s.add i (t.part? i.production i.dot)).Consistent t := by
  by_cases h : i ∈ s.items.toList
  · rw [add_of_mem hs h]
    exact hs
  · have hlist := toList_items_add_of_not_mem hs h (t.part? i.production i.dot)
    refine ⟨?_, ?_, ?_⟩
    · rw [hlist, List.nodup_append]
      refine ⟨hs.nodup, List.nodup_cons.mpr ⟨List.not_mem_nil, List.nodup_nil⟩, ?_⟩
      rintro a ha b hb rfl
      exact h (List.mem_singleton.mp hb ▸ ha)
    · intro a
      rw [hlist, List.mem_append, List.mem_singleton, ← hs.mem_seen a, add_of_not_mem hs h,
        Std.TreeSet.contains_insert, Bool.or_eq_true, beq_iff_eq, Std.compare_eq_iff_eq]
      exact ⟨fun ha => ha.elim (fun e => .inr e.symm) .inl, fun ha => ha.elim .inr fun e => .inl e.symm⟩
    · intro n
      rw [hlist, List.filter_append, ← hs.waiting n, toList_waitingFor_add_of_not_mem hs h]
      by_cases hw : i.Waits t n <;> simp [hw]

end ItemSet

namespace Chart

variable {t : Table} {chart : Chart}

/-- The items at position `j`, in the order in which they were added. -/
def listAt (chart : Chart) (j : Nat) : List Item := (chart.itemsAt j).toList

/-- All sets of the chart are consistent. -/
def Consistent (t : Table) (chart : Chart) : Prop :=
  ∀ (j : Nat) (s : ItemSet), chart[j]? = some s → s.Consistent t

theorem listAt_of_getElem? {j : Nat} {s : ItemSet} (h : chart[j]? = some s) :
    chart.listAt j = s.items.toList := by
  rw [listAt, itemsAt, h]

theorem listAt_of_le {j : Nat} (h : chart.size ≤ j) : chart.listAt j = [] := by
  rw [listAt, itemsAt, Array.getElem?_eq_none h]

theorem lt_size_of_mem {j : Nat} {i : Item} (h : i ∈ chart.listAt j) : j < chart.size := by
  by_contra hj
  rw [listAt_of_le (Nat.le_of_not_lt hj)] at h
  exact List.not_mem_nil h

theorem item?_eq (chart : Chart) (j i : Nat) : chart.item? j i = (chart.listAt j)[i]? := by
  rw [item?, listAt, itemsAt]
  rcases chart[j]? with - | s <;> simp

theorem Consistent.nodup (hc : Consistent t chart) (j : Nat) : (chart.listAt j).Nodup := by
  rcases h : chart[j]? with - | s
  · rw [listAt, itemsAt, h]
    exact List.nodup_nil
  · rw [listAt_of_getElem? h]
    exact (hc j s h).nodup

/-- The waiting list of a nonterminal holds the items that wait for it. -/
theorem Consistent.waiting?_eq (hc : Consistent t chart) (j : Nat) (n : String) (k : Nat) :
    chart.waiting? j n k = ((chart.listAt j).filter fun i => decide (i.Waits t n))[k]? := by
  rcases h : chart[j]? with - | s
  · rw [waiting?, listAt, itemsAt, h]
    rfl
  · rw [listAt_of_getElem? h, ← (hc j s h).waiting n, waiting?, h]
    simp

/-! ### Additions -/

@[simp] theorem size_add (chart : Chart) (j : Nat) (i : Item) : (chart.add t j i).size = chart.size := by
  simp [add]

theorem Consistent.add (hc : Consistent t chart) (j : Nat) (i : Item) : Consistent t (chart.add t j i) := by
  intro k s hs
  rw [Chart.add, Array.getElem?_modify] at hs
  by_cases hjk : j = k
  · rw [if_pos hjk] at hs
    rcases hk : chart[k]? with - | s'
    · rw [hk] at hs
      cases hs
    · rw [hk] at hs
      cases hs
      exact (hc k s' hk).add i
  · rw [if_neg hjk] at hs
    exact hc k s hs

/-- An addition puts the item at the end of the list at its position, unless it is there. -/
theorem listAt_add (hc : Consistent t chart) {j : Nat} (hj : j < chart.size) (i : Item) (k : Nat) :
    (chart.add t j i).listAt k =
      if j = k ∧ i ∉ chart.listAt j then chart.listAt k ++ [i] else chart.listAt k := by
  have hget : (chart.add t j i)[k]? =
      if j = k then chart[k]?.map (·.add i (t.part? i.production i.dot)) else chart[k]? := by
    rw [Chart.add, Array.getElem?_modify]
  by_cases hjk : j = k
  · subst hjk
    have hs : chart[j]? = some chart[j] := Array.getElem?_eq_getElem hj
    rw [if_pos rfl, hs, Option.map_some] at hget
    rw [listAt_of_getElem? hget, listAt_of_getElem? hs]
    by_cases hi : i ∈ chart[j].items.toList
    · rw [ItemSet.add_of_mem (hc j _ hs) hi, if_neg (fun h => h.2 hi)]
    · rw [ItemSet.toList_items_add_of_not_mem (hc j _ hs) hi, if_pos ⟨rfl, hi⟩]
  · rw [if_neg hjk] at hget
    rw [if_neg (fun h => hjk h.1), listAt, itemsAt, hget]
    rfl

theorem mem_listAt_add (hc : Consistent t chart) {j : Nat} (hj : j < chart.size) (i : Item) :
    i ∈ (chart.add t j i).listAt j := by
  rw [listAt_add hc hj]
  by_cases hi : i ∈ chart.listAt j
  · rw [if_neg (fun h => h.2 hi)]
    exact hi
  · rw [if_pos ⟨rfl, hi⟩]
    exact List.mem_append_right _ (List.mem_singleton_self i)

/-- An addition adds nothing but its item. -/
theorem eq_or_mem_of_mem_listAt_add (hc : Consistent t chart) {j k : Nat} (hj : j < chart.size)
    {i a : Item} (h : a ∈ (chart.add t j i).listAt k) : (j = k ∧ a = i) ∨ a ∈ chart.listAt k := by
  rw [listAt_add hc hj] at h
  split at h
  · rename_i hjk
    rcases List.mem_append.mp h with ha | ha
    · exact .inr ha
    · exact .inl ⟨hjk.1, List.mem_singleton.mp ha⟩
  · exact .inr h

/-! ### Growth -/

/-- The chart `c'` comes from `c` by additions at position `j` and behind it. -/
structure Grows (j : Nat) (c c' : Chart) : Prop where
  /-- There are as many positions. -/
  size_eq : c'.size = c.size
  /-- Lists grow at their ends. -/
  isPrefix : ∀ k, c.listAt k <+: c'.listAt k
  /-- Lists before `j` do not grow. -/
  eq_of_lt : ∀ k, k < j → c'.listAt k = c.listAt k

theorem Grows.refl (j : Nat) (c : Chart) : Grows j c c := ⟨rfl, fun _ => List.prefix_rfl, fun _ _ => rfl⟩

theorem Grows.trans {j : Nat} {c c' c'' : Chart} (h : Grows j c c') (h' : Grows j c' c'') : Grows j c c'' where
  size_eq := h'.size_eq.trans h.size_eq
  isPrefix := fun k => (h.isPrefix k).trans (h'.isPrefix k)
  eq_of_lt := fun k hk => (h'.eq_of_lt k hk).trans (h.eq_of_lt k hk)

theorem Grows.mem {j k : Nat} {c c' : Chart} (h : Grows j c c') {i : Item} (hi : i ∈ c.listAt k) :
    i ∈ c'.listAt k :=
  (h.isPrefix k).subset hi

theorem Grows.of_le {j j' : Nat} {c c' : Chart} (h : Grows j c c') (hj : j' ≤ j) : Grows j' c c' :=
  ⟨h.size_eq, h.isPrefix, fun k hk => h.eq_of_lt k (Nat.lt_of_lt_of_le hk hj)⟩

theorem grows_add {c : Chart} (hc : Consistent t c) {j : Nat} (hj : j < c.size) (i : Item) :
    Grows j c (c.add t j i) where
  size_eq := size_add c j i
  isPrefix := by
    intro k
    rw [listAt_add hc hj]
    split
    · exact List.prefix_append _ _
    · exact List.prefix_rfl
  eq_of_lt := by
    intro k hk
    have hne : ¬ (j = k ∧ i ∉ c.listAt j) := fun h => Nat.ne_of_gt hk h.1
    rw [listAt_add hc hj, if_neg hne]

end Chart

end Earley

end GrammarInference
