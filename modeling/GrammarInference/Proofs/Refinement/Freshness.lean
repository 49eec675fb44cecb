/-
GrammarInference/Proofs/Refinement/Freshness.lean

No fresh name is given out twice.

Design.  There is one counter for each nonterminal, but the names of all nonterminals stand in one grammar, and a
refined nonterminal may be refined again.  Every name that a refiner will still give out is numbered at or above the
counter of the nonterminal that it is for (`freshNames_ahead`), and a name that was given out is numbered below it.
Since nonterminal and number can be read back from a name, no name is both.  A counter only grows, whatever other
nonterminals ask for.  The search for a free number goes through all numbers from the counter on and ends at the
first one whose name is undefined, for there are more numbers than definitions.
-/
import GrammarInference.Proofs.Refinement.Names
import Mathlib.Order.Bounds.Defs

namespace GrammarInference

namespace Refiner

variable {σ : Type} {g : Grammar} {n m : String} {k j : Nat}

/-! ### One name -/

/-- The number from which a name for `n` is looked for. -/
def counter (r : Refiner σ) (n : String) : Nat := (r.names.get? n).getD 0

theorem le_firstFree (g : Grammar) (n : String) (tries k : Nat) : k ≤ firstFree g n tries k := by
  induction tries generalizing k with
  | zero => exact Nat.le_refl k
  | succ tries ih =>
    rw [firstFree]
    split
    · exact Nat.le_trans (Nat.le_succ k) (ih (k + 1))
    · exact Nat.le_refl k

/-- Every number that is passed over has a name that is defined. -/
theorem contains_of_lt_firstFree {tries : Nat} (hkj : k ≤ j) (hj : j < firstFree g n tries k) :
    g.contains (refinedName n j) = true := by
  induction tries generalizing k with
  | zero => exact absurd hj (Nat.not_lt_of_le hkj)
  | succ tries ih =>
    rw [firstFree] at hj
    split at hj
    · rename_i hk
      rcases Nat.eq_or_lt_of_le hkj with rfl | hlt
      · exact hk
      · exact ih hlt hj
    · exact absurd hj (Nat.not_lt_of_le hkj)

/-- The search ends: the name is that of the first number from the counter on whose name is undefined, and the
counter goes behind it. -/
theorem exists_freshName (r : Refiner σ) (g : Grammar) (n : String) :
    ∃ k, r.freshName g n = (refinedName n k, { r with names := r.names.insert n (k + 1) }) ∧
      IsLeast {j | r.counter n ≤ j ∧ g.contains (refinedName n j) = false} k := by
  refine ⟨_, rfl, ⟨le_firstFree g n _ _, r.contains_freshName g n⟩, fun j hj => ?_⟩
  obtain ⟨hcounter, hfree⟩ := hj
  by_contra hlt
  rw [contains_of_lt_firstFree hcounter (Nat.lt_of_not_le hlt)] at hfree
  cases hfree

theorem counter_withNames (r : Refiner σ) (n : String) (k : Nat) (m : String) :
    counter { r with names := r.names.insert n k } m = if n = m then k else r.counter m := by
  rw [counter, OrderedMap.get?_insert, counter]
  split <;> rfl

/-! ### Many names -/

/-- The names that are given out one after another, and the refiner behind them. -/
def freshNames (r : Refiner σ) : List (Grammar × String) → List String × Refiner σ
  | [] => ([], r)
  | (g, n) :: calls =>
    let (name, r) := r.freshName g n
    let (names, r) := r.freshNames calls
    (name :: names, r)

/-- All names that are still given out are numbered at or above the counters. -/
theorem freshNames_ahead {calls : List (Grammar × String)} (h : ∀ call ∈ calls, isNonterminalName call.2 = true)
    (r : Refiner σ) : ∀ name ∈ (r.freshNames calls).1, ∃ m j, isNonterminalName m = true ∧
      name = refinedName m j ∧ r.counter m ≤ j := by
  induction calls generalizing r with
  | nil => exact fun name hname => absurd hname List.not_mem_nil
  | cons call calls ih =>
    obtain ⟨g, n⟩ := call
    obtain ⟨hn, hcalls⟩ := List.forall_mem_cons.mp h
    obtain ⟨k, hfresh, ⟨hcounter, -⟩, -⟩ := r.exists_freshName g n
    rw [freshNames, hfresh]
    refine List.forall_mem_cons.mpr ⟨⟨n, k, hn, rfl, hcounter⟩, fun name hname => ?_⟩
    obtain ⟨m, j, hm, rfl, hj⟩ := ih hcalls _ name hname
    refine ⟨m, j, hm, rfl, ?_⟩
    -- the counter has not become smaller
    rw [counter_withNames] at hj
    split at hj
    · rename_i heq
      subst heq
      exact Nat.le_trans hcounter (Nat.le_of_succ_le hj)
    · exact hj

theorem nodup_freshNames {calls : List (Grammar × String)} (h : ∀ call ∈ calls, isNonterminalName call.2 = true)
    (r : Refiner σ) : (r.freshNames calls).1.Nodup := by
  induction calls generalizing r with
  | nil => exact List.nodup_nil
  | cons call calls ih =>
    obtain ⟨g, n⟩ := call
    obtain ⟨hn, hcalls⟩ := List.forall_mem_cons.mp h
    obtain ⟨k, hfresh, -⟩ := r.exists_freshName g n
    rw [freshNames, hfresh]
    refine List.nodup_cons.mpr ⟨fun hmem => ?_, ih hcalls _⟩
    obtain ⟨m, j, hm, heq, hj⟩ := freshNames_ahead hcalls _ _ hmem
    obtain ⟨rfl, rfl⟩ := refinedName_inj hn hm heq
    rw [counter_withNames, if_pos rfl] at hj
    exact absurd hj (Nat.not_succ_le_self k)

theorem length_freshNames (r : Refiner σ) (calls : List (Grammar × String)) :
    (r.freshNames calls).1.length = calls.length := by
  induction calls generalizing r with
  | nil => rfl
  | cons call calls ih => exact congrArg (· + 1) (ih (r.freshName call.1 call.2).2)

/-- The name for a call is the one that the refiner behind the calls before it gives out. -/
theorem getElem?_freshNames (r : Refiner σ) (before : List (Grammar × String)) (g : Grammar) (n : String)
    (rest : List (Grammar × String)) : (r.freshNames (before ++ (g, n) :: rest)).1[before.length]? =
      some ((r.freshNames before).2.freshName g n).1 := by
  induction before generalizing r with
  | nil => rfl
  | cons call before ih => exact ih (r.freshName call.1 call.2).2

/-- **Refined names are fresh.**  From any refiner, let names be asked for any number of times, with any grammars and
for any nonterminals.  Each time the search ends: the name is that of the first number, from the counter on that the
names before have left, whose name is not defined in the grammar.  And no name is given out twice, not even for
nonterminals that are refined ones themselves. -/
theorem freshNames_never_repeat (r : Refiner σ) (calls : List (Grammar × String))
    (h : ∀ call ∈ calls, isNonterminalName call.2 = true) :
    (r.freshNames calls).1.Nodup ∧ (r.freshNames calls).1.length = calls.length ∧
      ∀ before g n rest, calls = before ++ (g, n) :: rest →
        ∃ k, (r.freshNames calls).1[before.length]? = some (refinedName n k) ∧
          g.contains (refinedName n k) = false ∧
          IsLeast {j | (r.freshNames before).2.counter n ≤ j ∧ g.contains (refinedName n j) = false} k := by
  refine ⟨nodup_freshNames h r, r.length_freshNames calls, ?_⟩
  rintro before g n rest rfl
  obtain ⟨k, hfresh, hleast⟩ := (r.freshNames before).2.exists_freshName g n
  exact ⟨k, by rw [getElem?_freshNames, hfresh], hleast.1.2, hleast⟩

/-- A grammar in which one refined name is taken. -/
def takenName : Grammar :=
  .ofList [(startName, [[.nonterminal "<x>"]]), ("<x>", [[.terminal "a"]]), ("<x_refined_1>", [[.terminal "a"]])]

/-- Calls for a nonterminal, for a refined one of it, and for a refined one of that. -/
def nestedCalls : List (Grammar × String) :=
  [(takenName, "<x>"), (takenName, "<x>"), (∅, "<x_refined_0>"), (takenName, "<x_refined_0>"), (∅, "<x>"),
    (∅, "<x_refined_0_refined_1>")]

/-- The names for nested calls are six different ones; the taken name is passed over. -/
theorem freshNames_nested :
    let r : Refiner Unit := .new ⟨fun _ s => (.reject, s)⟩ () {} false []
    (∀ call ∈ nestedCalls, isNonterminalName call.2 = true) ∧
      (r.freshNames nestedCalls).1 = ["<x_refined_0>", "<x_refined_2>", "<x_refined_0_refined_0>",
        "<x_refined_0_refined_1>", "<x_refined_3>", "<x_refined_0_refined_1_refined_0>"] ∧
      (r.freshNames nestedCalls).1.Nodup ∧ takenName.contains "<x_refined_2>" = false := by
  intro r
  have hcalls : ∀ call ∈ nestedCalls, isNonterminalName call.2 = true := by decide
  have hnames : (r.freshNames nestedCalls).1 = ["<x_refined_0>", "<x_refined_2>", "<x_refined_0_refined_0>",
      "<x_refined_0_refined_1>", "<x_refined_3>", "<x_refined_0_refined_1_refined_0>"] := by decide +kernel
  obtain ⟨hnodup, -, hcall⟩ := freshNames_never_repeat r nestedCalls hcalls
  obtain ⟨k, hname, hfree, -⟩ := hcall [(takenName, "<x>")] takenName "<x>" (nestedCalls.drop 2) rfl
  rw [hnames] at hname
  exact ⟨hcalls, hnames, hnodup, Option.some.inj hname ▸ hfree⟩

end Refiner

end GrammarInference
