/-
GrammarInference/Trace/Increasing.lean

Longest strictly increasing subsequences.

Design.  For every length there is one best chain, the one that ends in the smallest value; the values at the
ends of these chains increase with the length.  A new value extends the longest chain that ends below it, and
the result takes the place of the best chain of its length.  Among several longest subsequences this finds the
one whose values are smallest.
-/

namespace GrammarInference

variable {α : Type} [LT α] [DecidableLT α]

/-- An increasing subsequence, last element first: values with their indices. -/
abbrev Chain (α : Type) := List (Nat × α)

/-- Does the chain end below `v`?  The empty chain does. -/
def Chain.endsBelow (c : Chain α) (v : α) : Bool :=
  match c with
  | [] => true
  | (_, u) :: _ => decide (u < v)

/-- Puts `v` behind the longest chain that ends below it; `before` is the chain before those in the list. -/
def extendChains (i : Nat) (v : α) (before : Chain α) : List (Chain α) → List (Chain α)
  | [] => [(i, v) :: before]
  | c :: rest => if c.endsBelow v then c :: extendChains i v c rest else ((i, v) :: before) :: rest

/-- The best chains of all lengths, shortest first, in a list of values with their indices. -/
def bestChains (values : List (α × Nat)) : List (Chain α) :=
  values.foldl (fun chains (v, i) => extendChains i v [] chains) []

/-- The indices of a longest strictly increasing subsequence. -/
def longestIncreasing (values : List α) : List Nat :=
  (((bestChains values.zipIdx).getLast?.getD []).map Prod.fst).reverse

end GrammarInference
