/-
GrammarInference/Proofs/Earley/Items.lean

Every item of a chart stands for a derivation.

Design.  An item at a position is `Derived` if the parts before its dot derive the input from its origin up to
that position.  The three ways to get an item (starting an alternative, moving over a part that derives what
follows, and both at once for a nullable nonterminal) are lemmas about single items, and a chart is `Sound` if
it holds derived items only.  Derived items are drawn from a finite list of productions, dots and origins, which
gives the bound on the size of a set (`Sound.length_listAt_le`).
-/
import GrammarInference.Proofs.Earley.Chart
import GrammarInference.Proofs.Earley.Segment

namespace GrammarInference

namespace Earley

variable {g : Grammar} {input : Array Char}

/-! ### Derived items -/

/-- The parts before the dot derive the input from the origin of the item up to `j`. -/
def Item.Derived (g : Grammar) (input : Array Char) (j : Nat) (i : Item) : Prop :=
  ∃ p, (Table.ofGrammar g).productions[i.production]? = some p ∧ i.dot ≤ p.rule.length ∧ i.origin ≤ j ∧
    Grammar.Derives g (p.rule.take i.dot) (segment input i.origin j)

namespace Item.Derived

theorem origin_le {i : Item} {j : Nat} (h : i.Derived g input j) : i.origin ≤ j := by
  obtain ⟨p, -, -, ho, -⟩ := h
  exact ho

/-- An alternative that starts at `j`. -/
theorem start {n : String} {k : Nat} (hk : k ∈ (Table.ofGrammar g).alternatives n) (j : Nat) :
    Item.Derived g input j ⟨k, 0, j⟩ := by
  obtain ⟨p, hp, -⟩ := Table.mem_alternatives_iff.mp hk
  refine ⟨p, hp, Nat.zero_le _, Nat.le_refl j, ?_⟩
  rw [segment_self, List.take_zero]
  exact .nil

/-- The dot moves over a part that derives what follows. -/
theorem advance {i : Item} {j k : Nat} {x : Part} (h : i.Derived g input j)
    (hx : (Table.ofGrammar g).part? i.production i.dot = some x) (hjk : j ≤ k)
    (hd : Grammar.Derives g [x.symbol] (segment input j k)) : i.advance.Derived g input k := by
  obtain ⟨p, hp, -, ho, hpre⟩ := h
  rw [Table.part?_of_production hp] at hx
  have hget : p.rule[i.dot]? = some x.symbol := by rw [p.getElem?_rule, hx, Option.map_some]
  have hlt : i.dot < p.rule.length := (List.getElem?_eq_some_iff.mp hget).1
  -- one more symbol stands before the dot
  have htake : p.rule.take (i.dot + 1) = p.rule.take i.dot ++ [x.symbol] := by
    rw [List.take_add_one, hget, Option.toList_some]
  refine ⟨p, hp, hlt, Nat.le_trans ho hjk, ?_⟩
  show Grammar.Derives g (p.rule.take (i.dot + 1)) (segment input i.origin k)
  rw [htake, ← segment_append ho hjk]
  exact hpre.append hd

/-- A complete item is a derivation from its nonterminal. -/
theorem complete {i : Item} {j : Nat} (h : i.Derived g input j)
    (hx : (Table.ofGrammar g).part? i.production i.dot = none) :
    Grammar.InLanguage g ((Table.ofGrammar g).lhs i.production) (segment input i.origin j) := by
  obtain ⟨p, hp, hdot, -, hpre⟩ := h
  rw [Table.part?_of_production hp, Array.getElem?_eq_none_iff, ← p.length_rule] at hx
  rw [Table.lhs_of_production hp]
  rw [List.take_of_length_le hx] at hpre
  exact ⟨p.rule, Table.rule_mem_alternatives hp, hpre⟩

end Item.Derived

/-! ### Sound charts -/

namespace Chart

/-- All items of the chart are derived. -/
structure Sound (g : Grammar) (input : Array Char) (c : Chart) : Prop where
  /-- There is a set for every position. -/
  size_eq : c.size = input.size + 1
  /-- The sets are consistent. -/
  consistent : c.Consistent (.ofGrammar g)
  /-- The items are derived. -/
  derived : ∀ (j : Nat) (i : Item), i ∈ c.listAt j → i.Derived g input j

variable {c : Chart}

theorem Sound.lt_size (hc : Sound g input c) {j : Nat} (hj : j ≤ input.size) : j < c.size := by
  rw [hc.size_eq]
  exact Nat.lt_succ_of_le hj

theorem Sound.le_of_mem (hc : Sound g input c) {j : Nat} {i : Item} (hi : i ∈ c.listAt j) : j ≤ input.size := by
  have hj := lt_size_of_mem hi
  rw [hc.size_eq] at hj
  exact Nat.le_of_lt_succ hj

theorem sound_replicate (g : Grammar) (input : Array Char) :
    Sound g input (Array.replicate (input.size + 1) ItemSet.empty) where
  size_eq := Array.size_replicate
  consistent := by
    intro j s hs
    rw [Array.getElem?_replicate] at hs
    split at hs
    · cases hs
      exact ItemSet.consistent_empty
    · cases hs
  derived := by
    intro j i hi
    rw [listAt, itemsAt, Array.getElem?_replicate] at hi
    by_cases hj : j < input.size + 1
    · rw [if_pos hj] at hi
      exact absurd hi List.not_mem_nil
    · rw [if_neg hj] at hi
      exact absurd hi List.not_mem_nil

/-- A derived item may be added. -/
theorem Sound.add (hc : Sound g input c) {j : Nat} {i : Item} (hj : j ≤ input.size) (hi : i.Derived g input j) :
    Sound g input (c.add (.ofGrammar g) j i) where
  size_eq := (size_add c j i).trans hc.size_eq
  consistent := hc.consistent.add j i
  derived := by
    intro k a ha
    rcases eq_or_mem_of_mem_listAt_add hc.consistent (hc.lt_size hj) ha with ⟨rfl, rfl⟩ | ha
    · exact hi
    · exact hc.derived k a ha

/-! ### The size of a set -/

/-- All items at position `j` for productions that are numbered from `k` on. -/
def allItems (j : Nat) : Nat → List Production → List Item
  | _, [] => []
  | k, p :: ps =>
    ((List.range (p.parts.size + 1)).flatMap fun d => (List.range (j + 1)).map fun o => ⟨k, d, o⟩) ++
      allItems j (k + 1) ps

theorem length_allItems (j k : Nat) (ps : List Production) :
    (allItems j k ps).length = (ps.map fun p => p.parts.size + 1).foldr (· + ·) 0 * (j + 1) := by
  induction ps generalizing k with
  | nil => simp [allItems]
  | cons p ps ih =>
    rw [allItems, List.length_append, ih, List.map_cons, List.foldr_cons, Nat.add_mul]
    simp [List.length_flatMap]

theorem mem_allItems {j k m : Nat} {ps : List Production} {p : Production} {d o : Nat} (hp : ps[m]? = some p)
    (hd : d ≤ p.parts.size) (ho : o ≤ j) : ⟨k + m, d, o⟩ ∈ allItems j k ps := by
  induction ps generalizing k m with
  | nil => simp at hp
  | cons q ps ih =>
    rw [allItems, List.mem_append]
    cases m with
    | zero =>
      rw [List.getElem?_cons_zero, Option.some.injEq] at hp
      subst hp
      refine .inl (List.mem_flatMap.mpr ⟨d, List.mem_range.mpr (Nat.lt_succ_of_le hd), ?_⟩)
      exact List.mem_map.mpr ⟨o, List.mem_range.mpr (Nat.lt_succ_of_le ho), rfl⟩
    | succ m =>
      rw [List.getElem?_cons_succ] at hp
      have hm : k + (m + 1) = k + 1 + m := by omega
      rw [hm]
      exact .inr (ih hp)

/-- A set holds no more items than there are dots and origins. -/
theorem Sound.length_listAt_le (hc : Sound g input c) (j : Nat) :
    (c.listAt j).length ≤ capacity (.ofGrammar g) j := by
  have hsub : c.listAt j ⊆ allItems j 0 (Table.ofGrammar g).productions.toList := by
    intro i hi
    obtain ⟨p, hp, hd, ho, -⟩ := hc.derived j i hi
    rw [p.length_rule] at hd
    have hget : (Table.ofGrammar g).productions.toList[i.production]? = some p := by
      rw [Array.getElem?_toList, hp]
    have hmem := mem_allItems (k := 0) hget hd ho
    rwa [Nat.zero_add] at hmem
  have hle := ((hc.consistent.nodup j).subperm hsub).length_le
  rwa [length_allItems] at hle

end Chart

end Earley

end GrammarInference
