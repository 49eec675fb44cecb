/-
GrammarInference/Proofs/Grammar/Merging.lean

Merging repeated definitions and dropping unreachable ones keep a grammar valid.

Design.  When a definition is merged into another one, the references to its name become references to the name
that is kept.  A closed set that held the first name holds the second one instead (`merged`), and is closed
again, since both names were defined in the same way.  So at every point of a pass there is a closed set with
the start symbol, which is all that validity asks for, together with alternatives that are not repeated; these
are dropped at the end of each pass.
-/
import GrammarInference.Proofs.Grammar.Validity

namespace GrammarInference

namespace Grammar

variable {g g' : Grammar} {d k n m : String} {R : Set String}

/-! ### One pair -/

theorem contains_collapse_iff : (g.collapse d k).contains n = true ↔ d ≠ n ∧ g.contains n = true := by
  by_cases h : d = n <;> simp [collapse, replaceReferences, OrderedMap.contains, h]

/-- The names of a closed set when `d` is merged into `k`. -/
def merged (R : Set String) (d k : String) : Set String := {n | n ≠ d ∧ (n ∈ R ∨ n = k ∧ d ∈ R)}

theorem Closed.collapse (h : Closed g R) (heq : g.alternatives d = g.alternatives k) (hne : d ≠ k)
    (hk : g.contains k = true) : Closed (g.collapse d k) (merged R d k) where
  defined := by
    rintro n ⟨hn, hmem | ⟨rfl, -⟩⟩
    · exact contains_collapse_iff.mpr ⟨hn.symm, h.defined n hmem⟩
    · exact contains_collapse_iff.mpr ⟨hn.symm, hk⟩
  mentions := by
    rintro n ⟨-, hn⟩ m hm
    obtain ⟨body, hbody, hmem⟩ := mem_mentions_iff.mp hm
    obtain ⟨-, b, hb, rfl⟩ := mem_alternatives_collapse.mp hbody
    obtain ⟨x, hx, hxm⟩ := List.mem_map.mp hmem
    -- what was mentioned before belongs to the set
    have hin : ∀ j, Symbol.nonterminal j ∈ b → j ∈ R := by
      intro j hj
      rcases hn with hn | ⟨rfl, hd⟩
      · exact h.mem hn hb hj
      · exact h.mem hd (heq ▸ hb) hj
    cases x with
    | terminal t => cases hxm
    | nonterminal j =>
      rw [Symbol.replaceName] at hxm
      split at hxm
      · rename_i hj
        cases hxm
        exact ⟨hne.symm, .inr ⟨rfl, hj ▸ hin j hx⟩⟩
      · rename_i hj
        cases hxm
        exact ⟨hj, .inl (hin m hx)⟩

/-! ### A pass -/

theorem exists_closed_foldl_collapse {pairs : List (String × String)} (h : Repeats g pairs)
    (hkept : ∀ p ∈ pairs, g.contains p.2 = true) (hstart : startName ∉ pairs.map Prod.fst) (hR : Closed g R)
    (hs : startName ∈ R) :
    ∃ R', Closed (pairs.foldl (fun g p => g.collapse p.1 p.2) g) R' ∧ startName ∈ R' := by
  induction pairs generalizing g R with
  | nil => exact ⟨R, hR, hs⟩
  | cons p pairs ih =>
    rw [List.map_cons, List.mem_cons, not_or] at hstart
    obtain ⟨hp, hpairs⟩ := hstart
    have hne : p.1 ≠ p.2 := fun e => h.kept p List.mem_cons_self (e ▸ List.mem_cons_self)
    have hclosed := hR.collapse (h.alternatives_eq p List.mem_cons_self) hne (hkept p List.mem_cons_self)
    refine ih h.collapse ?_ hpairs hclosed ⟨hp, .inl hs⟩
    intro q hq
    refine contains_collapse_iff.mpr ⟨?_, hkept q (List.mem_cons_of_mem p hq)⟩
    rintro e
    exact h.kept q (List.mem_cons_of_mem p hq) (e ▸ List.mem_cons_self)

theorem Closed.distinctAlternatives (h : Closed g R) : Closed g.distinctAlternatives R where
  defined := by
    intro n hn
    have hdef := h.defined n hn
    rw [OrderedMap.contains] at hdef ⊢
    rwa [Grammar.distinctAlternatives, OrderedMap.get?_mapValues, Option.isSome_map]
  mentions := by
    intro n hn m hm
    obtain ⟨body, hbody, hmem⟩ := mem_mentions_iff.mp hm
    rw [alternatives_distinctAlternatives, mem_distinct] at hbody
    exact h.mem hn hbody hmem

theorem Valid.dedupOnce? (h : g.Valid) (hone : g.dedupOnce? = some g') : g'.Valid := by
  rw [Grammar.dedupOnce?] at hone
  split at hone
  · cases hone
  · cases hone
    have hkept : ∀ p ∈ g.duplicates, g.contains p.2 = true := by
      rintro ⟨d, k⟩ hp
      obtain ⟨rs, -, -, hfirst, -⟩ := mem_duplicates_iff.mp hp
      rw [OrderedMap.contains, OrderedMap.get?_eq_some_iff.mpr (firstWith_eq_some hfirst).1]
      rfl
    obtain ⟨R', hclosed, hs⟩ := exists_closed_foldl_collapse (repeats_duplicates g) hkept
      (startName_not_mem_duplicates g) h.closed (mem_reachableFrom_self h.start)
    refine hclosed.distinctAlternatives.valid hs fun n => ?_
    rw [alternatives_distinctAlternatives]
    exact nodup_distinct _

/-! ### All passes, and pruning -/

theorem Valid.dedupWithin (h : g.Valid) (passes : Nat) : (g.dedupWithin passes).Valid := by
  induction passes generalizing g with
  | zero => exact h
  | succ passes ih =>
    rw [Grammar.dedupWithin]
    rcases hone : g.dedupOnce? with - | g'
    · exact h
    · exact ih (h.dedupOnce? hone)

/-- Merging repeated definitions keeps a grammar valid. -/
theorem Valid.dedup (h : g.Valid) : g.dedup.Valid := h.dedupWithin g.size

theorem contains_pruneUnreachable_iff {start : String} : (g.pruneUnreachable start).contains n = true ↔
    n ∈ g.reachableFrom start ∧ g.contains n = true := by
  rw [OrderedMap.contains, pruneUnreachable, OrderedMap.get?_filterKeys, OrderedMap.contains]
  by_cases h : n ∈ g.reachableFrom start <;> simp [h]

/-- Dropping what cannot be reached keeps a grammar valid. -/
theorem Valid.pruneUnreachable (h : g.Valid) : (g.pruneUnreachable startName).Valid := by
  have hclosed : Closed (g.pruneUnreachable startName) {n | n ∈ g.reachableFrom startName} := by
    constructor
    · intro n hn
      exact contains_pruneUnreachable_iff.mpr ⟨hn, h.closed.defined n hn⟩
    · intro n hn m hm
      obtain ⟨body, hbody, hmem⟩ := mem_mentions_iff.mp hm
      exact h.closed.mem hn (mem_alternatives_pruneUnreachable.mp hbody).2 hmem
  refine hclosed.valid (mem_reachableFrom_self h.start) fun n => ?_
  rw [alternatives_pruneUnreachable]
  split
  · exact h.nodup n
  · exact List.nodup_nil

/-! ### No new names -/

theorem contains_of_contains_foldl_collapse {pairs : List (String × String)}
    (h : (pairs.foldl (fun g p => g.collapse p.1 p.2) g).contains n = true) : g.contains n = true := by
  induction pairs generalizing g with
  | nil => exact h
  | cons p pairs ih => exact (contains_collapse_iff.mp (ih h)).2

theorem contains_of_contains_dedupWithin {passes : Nat} (h : (g.dedupWithin passes).contains n = true) :
    g.contains n = true := by
  induction passes generalizing g with
  | zero => exact h
  | succ passes ih =>
    rw [Grammar.dedupWithin] at h
    rcases hone : g.dedupOnce? with - | g'
    · rwa [hone] at h
    · simp only [hone] at h
      have hg' := ih h
      rw [Grammar.dedupOnce?] at hone
      split at hone
      · cases hone
      · cases hone
        rw [OrderedMap.contains, Grammar.distinctAlternatives, OrderedMap.get?_mapValues,
          Option.isSome_map] at hg'
        exact contains_of_contains_foldl_collapse hg'

end Grammar

end GrammarInference
