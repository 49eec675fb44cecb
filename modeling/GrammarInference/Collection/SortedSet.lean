/-
GrammarInference/Collection/SortedSet.lean

Finite sets over an ordered type, kept as strictly increasing lists.

Design.  Alphabets and sets of names are listed in the order of their elements wherever they are shown, so
a set is the increasing list of its elements, together with the proof that it is increasing.  Insertion walks
to the place of the new element.  Every operation is described by its effect on membership, and two sets with
the same elements are equal (`ext_mem`).
-/

namespace GrammarInference

/-- A strict order in which any two elements can be compared. -/
class StrictOrder (α : Type) [LT α] : Prop where
  /-- Nothing is below what is below it. -/
  asymm : ∀ {a b : α}, a < b → ¬ b < a
  /-- The order is transitive. -/
  trans : ∀ {a b c : α}, a < b → b < c → a < c
  /-- Of two elements one is below the other, or they are equal. -/
  connex : ∀ {a b : α}, ¬ a < b → ¬ b < a → a = b

instance : StrictOrder Nat :=
  ⟨Nat.lt_asymm, Nat.lt_trans, fun h h' => Nat.le_antisymm (Nat.not_lt.1 h') (Nat.not_lt.1 h)⟩

instance : StrictOrder Char :=
  ⟨Char.lt_asymm, Char.lt_trans, fun h h' => Char.le_antisymm (Char.not_lt.1 h') (Char.not_lt.1 h)⟩

instance : StrictOrder String :=
  ⟨String.lt_asymm, String.lt_trans, fun h h' => String.le_antisymm (String.not_lt.1 h') (String.not_lt.1 h)⟩

/-- A finite set, listed in increasing order. -/
structure SortedSet (α : Type) [LT α] where
  /-- The elements, smallest first. -/
  toList : List α
  /-- Each element is below those behind it. -/
  increasing : toList.Pairwise (· < ·)

namespace SortedSet

variable {α : Type} [LT α]

@[ext] theorem ext {s t : SortedSet α} (h : s.toList = t.toList) : s = t := by
  cases s; cases t; cases h; rfl

instance [DecidableEq α] : DecidableEq (SortedSet α) := fun s t =>
  decidable_of_iff (s.toList = t.toList) ⟨ext, fun h => h ▸ rfl⟩

/-- The set without elements. -/
def empty : SortedSet α := ⟨[], List.Pairwise.nil⟩

instance : EmptyCollection (SortedSet α) := ⟨empty⟩
instance : Inhabited (SortedSet α) := ⟨empty⟩
instance : Membership α (SortedSet α) := ⟨fun s a => a ∈ s.toList⟩

/-- The number of elements. -/
def size (s : SortedSet α) : Nat := s.toList.length

/-- Does the set have no element? -/
def isEmpty (s : SortedSet α) : Bool := s.toList.isEmpty

/-- The elements that satisfy `p`. -/
def filter (p : α → Bool) (s : SortedSet α) : SortedSet α := ⟨s.toList.filter p, s.increasing.filter p⟩

@[simp] theorem not_mem_empty (a : α) : a ∉ (∅ : SortedSet α) := List.not_mem_nil

@[simp] theorem mem_filter {p : α → Bool} {s : SortedSet α} {a : α} : a ∈ s.filter p ↔ a ∈ s ∧ p a :=
  List.mem_filter

/-! ### Equality -/

theorem nodup_toList [StrictOrder α] (s : SortedSet α) : s.toList.Nodup := by
  refine s.increasing.imp fun {a b} hab => ?_
  rintro rfl
  exact StrictOrder.asymm hab hab

/-- Two sets with the same elements are equal. -/
theorem ext_mem [StrictOrder α] {s t : SortedSet α} (h : ∀ a, a ∈ s ↔ a ∈ t) : s = t :=
  ext <| List.Perm.eq_of_pairwise (fun _ _ _ _ hab hba => absurd hba (StrictOrder.asymm hab))
    s.increasing t.increasing ((List.perm_ext_iff_of_nodup s.nodup_toList t.nodup_toList).2 h)

/-! ### Inserting -/

variable [DecidableLT α] [DecidableEq α]

/-- Is `a` an element? -/
def contains (s : SortedSet α) (a : α) : Bool := decide (a ∈ s.toList)

/-- Does every element of `s` belong to `t`? -/
def isSubset (s t : SortedSet α) : Bool := s.toList.all t.contains

/-- Puts `a` at its place in an increasing list, unless it is there. -/
def place (a : α) : List α → List α
  | [] => [a]
  | b :: rest => if a < b then a :: b :: rest else if a = b then b :: rest else b :: place a rest

/-- Puts the elements of a list at their places, one by one. -/
def placeAll (s l : List α) : List α := l.foldl (fun s a => place a s) s

theorem mem_place {a b : α} {l : List α} : b ∈ place a l ↔ b = a ∨ b ∈ l := by
  induction l with
  | nil => simp [place]
  | cons c rest ih =>
    by_cases hlt : a < c
    · simp [place, hlt]
    · by_cases heq : a = c
      · subst heq; simp [place, hlt]
      · simp only [place, hlt, heq, if_false, List.mem_cons, ih]
        constructor
        · rintro (h | h | h) <;> simp [h]
        · rintro (h | h | h) <;> simp [h]

theorem mem_placeAll {s l : List α} {b : α} : b ∈ placeAll s l ↔ b ∈ s ∨ b ∈ l := by
  induction l generalizing s with
  | nil => simp [placeAll]
  | cons a rest ih =>
    show b ∈ placeAll (place a s) rest ↔ _
    rw [ih, mem_place, List.mem_cons]
    constructor
    · rintro ((h | h) | h) <;> simp [h]
    · rintro (h | h | h) <;> simp [h]

variable [StrictOrder α]

theorem pairwise_place {a : α} {l : List α} (h : l.Pairwise (· < ·)) : (place a l).Pairwise (· < ·) := by
  induction l with
  | nil => simp [place]
  | cons b rest ih =>
    have hb := List.pairwise_cons.1 h
    by_cases hlt : a < b
    · rw [place, if_pos hlt, List.pairwise_cons]
      refine ⟨fun c hc => ?_, h⟩
      rcases List.mem_cons.1 hc with rfl | hc
      · exact hlt
      · exact StrictOrder.trans hlt (hb.1 c hc)
    · by_cases heq : a = b
      · rw [place, if_neg hlt, if_pos heq]; exact h
      · rw [place, if_neg hlt, if_neg heq, List.pairwise_cons]
        refine ⟨fun c hc => ?_, ih hb.2⟩
        rcases mem_place.1 hc with rfl | hc
        · exact Decidable.byContradiction fun hba => heq (StrictOrder.connex hlt hba)
        · exact hb.1 c hc

theorem pairwise_placeAll {s l : List α} (h : s.Pairwise (· < ·)) : (placeAll s l).Pairwise (· < ·) := by
  induction l generalizing s with
  | nil => exact h
  | cons a rest ih => exact ih (pairwise_place h)

/-- Adds one element. -/
def insert (s : SortedSet α) (a : α) : SortedSet α := ⟨place a s.toList, pairwise_place s.increasing⟩

/-- The set of the elements of a list. -/
def ofList (l : List α) : SortedSet α := ⟨placeAll [] l, pairwise_placeAll List.Pairwise.nil⟩

/-- The elements of either set. -/
def union (s t : SortedSet α) : SortedSet α :=
  ⟨placeAll s.toList t.toList, pairwise_placeAll s.increasing⟩

@[simp] theorem mem_insert {s : SortedSet α} {a b : α} : b ∈ s.insert a ↔ b = a ∨ b ∈ s :=
  mem_place

@[simp] theorem mem_ofList {l : List α} {b : α} : b ∈ ofList l ↔ b ∈ l :=
  mem_placeAll.trans (by simp)

@[simp] theorem mem_union {s t : SortedSet α} {b : α} : b ∈ s.union t ↔ b ∈ s ∨ b ∈ t :=
  mem_placeAll

end SortedSet

/-- A list that is sorted by a number increases in it. -/
theorem pairwise_mergeSort_key {α : Type} (key : α → Nat) (l : List α) :
    (l.mergeSort fun a b => decide (key a ≤ key b)).Pairwise fun a b => key a ≤ key b := by
  refine (List.pairwise_mergeSort (fun a b c hab hbc => ?_) (fun a b => ?_) l).imp fun hab => of_decide_eq_true hab
  · exact decide_eq_true (Nat.le_trans (of_decide_eq_true hab) (of_decide_eq_true hbc))
  · rw [Bool.or_eq_true, decide_eq_true_eq, decide_eq_true_eq]
    exact Nat.le_total _ _

end GrammarInference
