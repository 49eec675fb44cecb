/-
GrammarInference/Grammar/Basic.lean

Context-free grammars.

Design.  A grammar maps the name of each defined nonterminal to its alternatives, in the order in which the
definitions were first made; both that order and the order of alternatives can be seen in every answer.  A
reference to a name without a definition is allowed and derives nothing.
-/
import GrammarInference.Collection.Distinct
import GrammarInference.Collection.OrderedMap
import GrammarInference.Collection.SortedSet
import GrammarInference.Symbol

namespace GrammarInference

/-- The designated start symbol. -/
def startName : String := "<start>"

/-- The alternatives of every defined nonterminal. -/
abbrev Grammar := OrderedMap String (List Rule)

namespace Grammar

/-- The alternatives of `n`; none if `n` is undefined. -/
def alternatives (g : Grammar) (n : String) : List Rule := (g.get? n).getD []

/-- Defines `n` without alternatives, unless it is defined. -/
def ensure (g : Grammar) (n : String) : Grammar := if g.contains n then g else g.insert n []

/-- Appends `r` to the alternatives of `n`, defining `n` if needed. -/
def push (g : Grammar) (n : String) (r : Rule) : Grammar :=
  g.insert n (g.alternatives n ++ [r])

/-- Appends `r` to the alternatives of `n` unless it is there. -/
def addAlternative (g : Grammar) (n : String) (r : Rule) : Grammar :=
  if r ∈ g.alternatives n then g else g.push n r

/-- Replaces every reference to `old` by a reference to `new`. -/
def replaceReferences (g : Grammar) (old new : String) : Grammar :=
  g.mapValues fun _ rs => rs.map fun r => r.map (Symbol.replaceName old new)

/-- Renames `old` to `new`, in its definition and in all references. -/
def rename (g : Grammar) (old new : String) : Grammar :=
  replaceReferences (g.renameKey old new) old new

/-- Renames `old` to `new`; none if `new` is defined and would have to take the last place. -/
def rename? (g : Grammar) (old new : String) : Option Grammar :=
  if g.canRename old new then some (g.rename old new) else none

/-- Do two lists hold the same alternatives, each equally often? -/
def sameAlternatives (a b : List Rule) : Bool := a.isPerm b

/-- The nonterminals that the alternatives of `n` mention, in order. -/
def mentions (g : Grammar) (n : String) : List String :=
  (g.alternatives n).flatMap Rule.names

/-- The number of alternatives in the whole grammar. -/
def ruleCount (g : Grammar) : Nat := (g.values.map List.length).foldr (· + ·) 0

theorem get?_eq_none_iff {g : Grammar} {n : String} : g.get? n = none ↔ g.contains n = false := by
  simp [OrderedMap.contains]

theorem contains_of_mem_alternatives {g : Grammar} {n : String} {body : Rule} (h : body ∈ g.alternatives n) : g.contains n = true := by
  rcases hget : g.get? n with - | rs
  · rw [alternatives, hget] at h
    exact absurd h List.not_mem_nil
  · rw [OrderedMap.contains, hget]
    rfl

theorem alternatives_insert (g : Grammar) (k : String) (rs : List Rule) (n : String) :
    alternatives (g.insert k rs) n = if k = n then rs else alternatives g n := by
  unfold alternatives
  rw [OrderedMap.get?_insert]
  split <;> simp

theorem alternatives_replaceReferences (g : Grammar) (old new n : String) :
    alternatives (g.replaceReferences old new) n =
      (alternatives g n).map fun r => r.map (Symbol.replaceName old new) := by
  unfold alternatives replaceReferences
  rw [OrderedMap.get?_mapValues]
  cases g.get? n <;> simp

end Grammar

end GrammarInference
