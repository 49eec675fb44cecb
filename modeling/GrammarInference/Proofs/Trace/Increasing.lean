/-
GrammarInference/Proofs/Trace/Increasing.lean

The chains behind a longest increasing subsequence are increasing subsequences.

Design.  A chain lists its last element first.  `IsRun values c` says that the chain goes down that way and that,
read from its end, it is a subsequence of the values with their indices.  Every chain that is kept is one, and a
subsequence that leaves nothing out is the whole list.
-/
import Mathlib.Data.List.Basic
import GrammarInference.Collection.SortedSet
import GrammarInference.Trace.Increasing

namespace GrammarInference

variable {α : Type} [LT α] [DecidableLT α]

/-- The chain is an increasing subsequence of the values, last element first. -/
structure IsRun (values : List (α × Nat)) (c : Chain α) : Prop where
  /-- Each element is below those in front of it. -/
  decreasing : c.Pairwise fun a b => b.2 < a.2
  /-- The elements are some of the values, in their order. -/
  sublist : (c.map Prod.swap).reverse.Sublist values

omit [DecidableLT α] in
theorem isRun_nil (values : List (α × Nat)) : IsRun values [] := ⟨.nil, List.nil_sublist values⟩

omit [DecidableLT α] in
theorem IsRun.append {values : List (α × Nat)} {c : Chain α} (h : IsRun values c) (more : List (α × Nat)) :
    IsRun (values ++ more) c := ⟨h.decreasing, h.sublist.trans (List.sublist_append_left values more)⟩

/-- A chain that ends below a value goes on with it. -/
theorem IsRun.cons [StrictOrder α] {values : List (α × Nat)} {c : Chain α} {v : α} (h : IsRun values c)
    (hbelow : c.endsBelow v = true) (i : Nat) : IsRun (values ++ [(v, i)]) ((i, v) :: c) where
  decreasing := by
    refine List.pairwise_cons.mpr ⟨fun b hb => ?_, h.decreasing⟩
    cases c with
    | nil => exact absurd hb List.not_mem_nil
    | cons a c =>
      have ha : a.2 < v := of_decide_eq_true hbelow
      rcases List.mem_cons.mp hb with rfl | hb
      · exact ha
      · exact StrictOrder.trans ((List.pairwise_cons.mp h.decreasing).1 b hb) ha
  sublist := by
    rw [List.map_cons, List.reverse_cons]
    exact h.sublist.append (List.Sublist.refl _)

theorem isRun_of_mem_extendChains [StrictOrder α] {values : List (α × Nat)} {i : Nat} {v : α} {before : Chain α}
    {chains : List (Chain α)} (hbefore : IsRun values before) (hbelow : before.endsBelow v = true)
    (h : ∀ c ∈ chains, IsRun values c) : ∀ c ∈ extendChains i v before chains, IsRun (values ++ [(v, i)]) c := by
  induction chains generalizing before with
  | nil => exact List.forall_mem_singleton.mpr (hbefore.cons hbelow i)
  | cons d rest ih =>
    obtain ⟨hd, hrest⟩ := List.forall_mem_cons.mp h
    rw [extendChains]
    by_cases hdv : d.endsBelow v = true
    · rw [if_pos hdv]
      exact List.forall_mem_cons.mpr ⟨hd.append _, ih hd hdv hrest⟩
    · rw [if_neg hdv]
      exact List.forall_mem_cons.mpr ⟨hbefore.cons hbelow i, fun c hc => (hrest c hc).append _⟩

theorem isRun_of_mem_bestChains [StrictOrder α] (values : List (α × Nat)) :
    ∀ c ∈ bestChains values, IsRun values c := by
  have hfold : ∀ (rest done : List (α × Nat)) (chains : List (Chain α)), (∀ c ∈ chains, IsRun done c) →
      ∀ c ∈ rest.foldl (fun chains x => extendChains x.2 x.1 [] chains) chains, IsRun (done ++ rest) c := by
    intro rest
    induction rest with
    | nil =>
      intro done chains h
      rwa [List.append_nil]
    | cons x rest ih =>
      obtain ⟨v, i⟩ := x
      intro done chains h
      rw [List.foldl_cons, ← List.singleton_append, ← List.append_assoc]
      exact ih _ _ (isRun_of_mem_extendChains (isRun_nil done) rfl h)
  exact hfold values [] [] (List.forall_mem_nil _)

/-- A longest increasing subsequence that misses nothing shows that the values increase. -/
theorem pairwise_of_length_longestIncreasing [StrictOrder α] {values : List α}
    (h : (longestIncreasing values).length = values.length) : values.Pairwise (· < ·) := by
  obtain ⟨c, hc, hrun⟩ : ∃ c : Chain α, (longestIncreasing values).length = c.length ∧ IsRun values.zipIdx c := by
    refine ⟨(bestChains values.zipIdx).getLast?.getD [], ?_, ?_⟩
    · rw [longestIncreasing, List.length_reverse, List.length_map]
    · rcases hlast : (bestChains values.zipIdx).getLast? with - | c
      · exact isRun_nil _
      · exact isRun_of_mem_bestChains _ c (List.mem_of_getLast? hlast)
  have hlength : (c.map Prod.swap).reverse.length = values.zipIdx.length := by
    rw [List.length_reverse, List.length_map, List.length_zipIdx, ← hc, h]
  have hall : (c.map Prod.swap).reverse = values.zipIdx := hrun.sublist.eq_of_length hlength
  have hvalues : values = (c.map Prod.snd).reverse := by
    rw [← List.zipIdx_map_fst 0 values, ← hall, List.map_reverse, List.map_map]
    rfl
  rw [hvalues, List.pairwise_reverse, List.pairwise_map]
  exact hrun.decreasing

end GrammarInference
