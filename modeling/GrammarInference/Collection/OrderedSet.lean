/-
GrammarInference/Collection/OrderedSet.lean

Finite sets that remember the order in which their elements were inserted.

Design.  A set is the list of its elements together with the proof that none occurs twice.  A new element goes
to the end, so the place of an element never changes (`indexOf_insert_of_mem`) and can serve as its number
(`indexOf_inj`).
-/

namespace GrammarInference

/-- A finite set, listed in the order of insertion. -/
structure OrderedSet (α : Type) where
  /-- The elements, oldest first. -/
  toList : List α
  /-- No element occurs twice. -/
  nodup : toList.Nodup

namespace OrderedSet

variable {α : Type}

@[ext] theorem ext {s t : OrderedSet α} (h : s.toList = t.toList) : s = t := by
  cases s; cases t; cases h; rfl

instance [DecidableEq α] : DecidableEq (OrderedSet α) := fun s t =>
  decidable_of_iff (s.toList = t.toList) ⟨ext, fun h => h ▸ rfl⟩

/-- The set without elements. -/
def empty : OrderedSet α := ⟨[], List.nodup_nil⟩

instance : EmptyCollection (OrderedSet α) := ⟨empty⟩
instance : Inhabited (OrderedSet α) := ⟨empty⟩
instance : Membership α (OrderedSet α) := ⟨fun s a => a ∈ s.toList⟩

instance [DecidableEq α] (s : OrderedSet α) (a : α) : Decidable (a ∈ s) :=
  inferInstanceAs (Decidable (a ∈ s.toList))

/-- The number of elements. -/
def size (s : OrderedSet α) : Nat := s.toList.length

variable [DecidableEq α]

/-- Appends an element, unless it is there. -/
def insert (s : OrderedSet α) (a : α) : OrderedSet α :=
  if h : a ∈ s.toList then s
  else ⟨s.toList ++ [a], by
    rw [List.nodup_append]
    exact ⟨s.nodup, by simp, fun b hb c hc e => h (by simp at hc; rw [← hc, ← e]; exact hb)⟩⟩

/-- The place of an element; the number of elements if it is not there. -/
def indexOf (s : OrderedSet α) (a : α) : Nat := s.toList.idxOf a

theorem insert_of_mem {s : OrderedSet α} {a : α} (h : a ∈ s) : s.insert a = s := dif_pos h

theorem toList_insert_of_not_mem {s : OrderedSet α} {a : α} (h : a ∉ s) :
    (s.insert a).toList = s.toList ++ [a] :=
  congrArg toList (dif_neg h)

@[simp] theorem mem_insert {s : OrderedSet α} {a b : α} : b ∈ s.insert a ↔ b ∈ s ∨ b = a := by
  by_cases h : a ∈ s
  · rw [insert_of_mem h]
    exact ⟨Or.inl, fun hb => hb.elim id fun e => e ▸ h⟩
  · show b ∈ (s.insert a).toList ↔ _
    rw [toList_insert_of_not_mem h, List.mem_append, List.mem_singleton]
    rfl

theorem indexOf_insert_of_mem {s : OrderedSet α} {a b : α} (h : b ∈ s) :
    (s.insert a).indexOf b = s.indexOf b := by
  by_cases ha : a ∈ s
  · rw [insert_of_mem ha]
  · rw [indexOf, toList_insert_of_not_mem ha, List.idxOf_append]
    exact if_pos h

theorem getElem?_indexOf {s : OrderedSet α} {a : α} (h : a ∈ s) : s.toList[s.indexOf a]? = some a := by
  have hlt : s.indexOf a < s.toList.length := List.idxOf_lt_length_of_mem h
  rw [List.getElem?_eq_getElem hlt]
  exact congrArg some (List.getElem_idxOf hlt)

theorem indexOf_inj {s : OrderedSet α} {a b : α} (ha : a ∈ s) (hb : b ∈ s)
    (h : s.indexOf a = s.indexOf b) : a = b :=
  Option.some.inj ((getElem?_indexOf ha).symm.trans (h ▸ getElem?_indexOf hb))

end OrderedSet

end GrammarInference
