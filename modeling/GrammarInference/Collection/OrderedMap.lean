/-
GrammarInference/Collection/OrderedMap.lean

Finite maps that remember the order in which their keys were first inserted.

Design.  A map is its list of entries together with the proof that no key occurs twice.  Overwriting a key
keeps its place, and a new key goes to the end.  Every operation is described by what it does to `get?`
(the view as a function) and to `keys` (the view as a list), so later proofs use these lemmas and not the
entry list.
-/

namespace GrammarInference

/-- A finite map whose keys are listed in the order of their first insertion. -/
structure OrderedMap (κ α : Type) where
  /-- The entries, oldest key first. -/
  entries : List (κ × α)
  /-- No key occurs twice. -/
  nodup_keys : (entries.map Prod.fst).Nodup

namespace OrderedMap

variable {κ α β : Type} [DecidableEq κ]

omit [DecidableEq κ] in
@[ext] theorem ext {m n : OrderedMap κ α} (h : m.entries = n.entries) : m = n := by
  cases m; cases n; cases h; rfl

instance [DecidableEq α] : DecidableEq (OrderedMap κ α) := fun m n =>
  decidable_of_iff (m.entries = n.entries) ⟨ext, fun h => h ▸ rfl⟩

/-- The map without entries. -/
def empty : OrderedMap κ α := ⟨[], by simp⟩

instance : EmptyCollection (OrderedMap κ α) := ⟨empty⟩
instance : Inhabited (OrderedMap κ α) := ⟨empty⟩

/-! ### Looking things up -/

/-- The keys, oldest first. -/
def keys (m : OrderedMap κ α) : List κ := m.entries.map Prod.fst

/-- The values, in the order of their keys. -/
def values (m : OrderedMap κ α) : List α := m.entries.map Prod.snd

/-- The number of entries. -/
def size (m : OrderedMap κ α) : Nat := m.entries.length

/-- Does the map have no entry? -/
def isEmpty (m : OrderedMap κ α) : Bool := m.entries.isEmpty

/-- The value of the first entry with key `k` in a list of entries. -/
def find (k : κ) : List (κ × α) → Option α
  | [] => none
  | (k', a) :: rest => if k' = k then some a else find k rest

/-- The value stored under `k`. -/
def get? (m : OrderedMap κ α) (k : κ) : Option α := find k m.entries

/-- Is there an entry for `k`? -/
def contains (m : OrderedMap κ α) (k : κ) : Bool := (m.get? k).isSome

theorem find_isSome_iff {k : κ} {l : List (κ × α)} : (find k l).isSome ↔ k ∈ l.map Prod.fst := by
  induction l with
  | nil => simp [find]
  | cons e rest ih =>
    obtain ⟨k', a⟩ := e
    by_cases h : k' = k
    · simp [find, h]
    · have h' : ¬ k = k' := fun e => h e.symm
      simp only [find, h, if_false, ih, List.map_cons, List.mem_cons, h', false_or]

theorem contains_iff_mem_keys {m : OrderedMap κ α} {k : κ} : m.contains k ↔ k ∈ m.keys :=
  find_isSome_iff

theorem mem_of_find_eq_some {k : κ} {a : α} {l : List (κ × α)} (h : find k l = some a) : (k, a) ∈ l := by
  induction l with
  | nil => cases h
  | cons e rest ih =>
    obtain ⟨k', b⟩ := e
    rw [find] at h
    split at h
    · rename_i hk
      cases h
      rw [hk]
      exact List.mem_cons_self
    · exact List.mem_cons_of_mem _ (ih h)

theorem find_eq_some_iff {k : κ} {a : α} {l : List (κ × α)} (h : (l.map Prod.fst).Nodup) :
    find k l = some a ↔ (k, a) ∈ l := by
  induction l with
  | nil => simp [find]
  | cons e rest ih =>
    obtain ⟨k', b⟩ := e
    have hrest : k' ∉ rest.map Prod.fst ∧ (rest.map Prod.fst).Nodup := List.nodup_cons.mp h
    by_cases hk : k' = k
    · subst hk
      have hno : (k', a) ∉ rest := fun hm => hrest.1 (List.mem_map_of_mem hm)
      simp [find, hno, eq_comm]
    · have hk' : ¬ k = k' := fun e => hk e.symm
      simp only [find, hk, if_false, ih hrest.2, List.mem_cons, Prod.mk.injEq, hk', false_and, false_or]

theorem get?_eq_some_iff {m : OrderedMap κ α} {k : κ} {a : α} : m.get? k = some a ↔ (k, a) ∈ m.entries :=
  find_eq_some_iff m.nodup_keys

/-! ### Inserting -/

/-- Overwrites the value of `k` in place, or appends a new entry. -/
def put (k : κ) (a : α) : List (κ × α) → List (κ × α)
  | [] => [(k, a)]
  | (k', a') :: rest => if k' = k then (k, a) :: rest else (k', a') :: put k a rest

theorem map_fst_put (k : κ) (a : α) (l : List (κ × α)) :
    (put k a l).map Prod.fst =
      if k ∈ l.map Prod.fst then l.map Prod.fst else l.map Prod.fst ++ [k] := by
  induction l with
  | nil => simp [put]
  | cons e rest ih =>
    obtain ⟨k', a'⟩ := e
    by_cases h : k' = k
    · simp [put, h]
    · have h' : ¬ k = k' := fun e => h e.symm
      simp only [put, h, if_false, List.map_cons, ih, List.mem_cons, h', false_or]
      split <;> simp

theorem nodup_map_fst_put {k : κ} {a : α} {l : List (κ × α)} (h : (l.map Prod.fst).Nodup) :
    ((put k a l).map Prod.fst).Nodup := by
  rw [map_fst_put]
  split
  · exact h
  · rename_i hk
    rw [List.nodup_append]
    exact ⟨h, by simp, fun x hx y hy e => hk (by simp at hy; rw [← hy, ← e]; exact hx)⟩

/-- Stores `a` under `k`: an existing key keeps its place, a new one goes to the end. -/
def insert (m : OrderedMap κ α) (k : κ) (a : α) : OrderedMap κ α :=
  ⟨put k a m.entries, nodup_map_fst_put m.nodup_keys⟩

theorem find_put (k : κ) (a : α) (l : List (κ × α)) (j : κ) :
    find j (put k a l) = if k = j then some a else find j l := by
  induction l with
  | nil => simp [put, find]
  | cons e rest ih =>
    obtain ⟨k', a'⟩ := e
    by_cases h : k' = k
    · subst h
      by_cases hj : k' = j <;> simp [put, find, hj]
    · by_cases hj : k' = j
      · subst hj
        have hk : ¬ k = k' := fun e => h e.symm
        simp only [put, h, if_false, find, if_true, hk]
      · simp only [put, find, h, hj, if_false, ih]

@[simp] theorem get?_insert (m : OrderedMap κ α) (k : κ) (a : α) (j : κ) :
    (m.insert k a).get? j = if k = j then some a else m.get? j :=
  find_put k a m.entries j

theorem keys_insert (m : OrderedMap κ α) (k : κ) (a : α) :
    (m.insert k a).keys = if k ∈ m.keys then m.keys else m.keys ++ [k] :=
  map_fst_put k a m.entries

theorem put_of_not_mem {k : κ} {l : List (κ × α)} (h : k ∉ l.map Prod.fst) (a : α) :
    put k a l = l ++ [(k, a)] := by
  induction l with
  | nil => rfl
  | cons e rest ih =>
    obtain ⟨k', a'⟩ := e
    have hne : ¬ k' = k := fun e => h (e ▸ List.mem_cons_self)
    have hrest : k ∉ rest.map Prod.fst := fun hk => h (List.mem_cons_of_mem k' hk)
    rw [put, if_neg hne, ih hrest, List.cons_append]

theorem entries_insert_of_not_mem {m : OrderedMap κ α} {k : κ} (h : k ∉ m.keys) (a : α) :
    (m.insert k a).entries = m.entries ++ [(k, a)] :=
  put_of_not_mem h a

/-- Inserts the pairs one by one: a repeated key keeps its first place and its last value. -/
def ofList (l : List (κ × α)) : OrderedMap κ α :=
  l.foldl (fun m e => m.insert e.1 e.2) empty

/-- Overlays `n` onto `m`: keys of `n` replace the values of `m`, new ones are appended. -/
def overlay (m n : OrderedMap κ α) : OrderedMap κ α :=
  n.entries.foldl (fun m e => m.insert e.1 e.2) m

theorem get?_foldl_insert (m : OrderedMap κ α) {l : List (κ × α)} (h : (l.map Prod.fst).Nodup) (k : κ) :
    (l.foldl (fun m e => m.insert e.1 e.2) m).get? k = (find k l).or (m.get? k) := by
  induction l generalizing m with
  | nil => rfl
  | cons e rest ih =>
    obtain ⟨k', a⟩ := e
    obtain ⟨hno, hrest⟩ := List.nodup_cons.mp h
    rw [List.foldl_cons, ih _ hrest, get?_insert, find]
    by_cases hk : k' = k
    · subst hk
      have hnone : find k' rest = none := by
        rw [← Option.not_isSome_iff_eq_none, find_isSome_iff]
        exact hno
      rw [hnone, if_pos rfl, if_pos rfl]
      rfl
    · rw [if_neg hk, if_neg hk]

@[simp] theorem get?_overlay (m n : OrderedMap κ α) (k : κ) :
    (m.overlay n).get? k = (n.get? k).or (m.get? k) :=
  get?_foldl_insert m n.nodup_keys k

/-! ### Removing and changing -/

/-- Keeps the entries whose key satisfies `p`, in order. -/
def filterKeys (p : κ → Bool) (m : OrderedMap κ α) : OrderedMap κ α :=
  ⟨m.entries.filter fun e => p e.1,
   m.nodup_keys.sublist ((List.filter_sublist (p := fun e => p e.1)).map Prod.fst)⟩

/-- Removes `k`, keeping the order of the others. -/
def erase (m : OrderedMap κ α) (k : κ) : OrderedMap κ α := m.filterKeys fun j => decide (j ≠ k)

theorem find_filter (p : κ → Bool) (l : List (κ × α)) (j : κ) :
    find j (l.filter fun e => p e.1) = if p j then find j l else none := by
  induction l with
  | nil => simp [find]
  | cons e rest ih =>
    obtain ⟨k', a'⟩ := e
    by_cases hp : p k'
    · by_cases hj : k' = j
      · subst hj; simp [hp, find]
      · simp only [hp, List.filter_cons_of_pos, find, hj, if_false, ih]
    · by_cases hj : k' = j
      · subst hj; simp [hp, ih]
      · simp only [hp, Bool.false_eq_true, not_false_eq_true, List.filter_cons_of_neg, find, hj,
          if_false, ih]

@[simp] theorem get?_filterKeys (p : κ → Bool) (m : OrderedMap κ α) (j : κ) :
    (m.filterKeys p).get? j = if p j then m.get? j else none :=
  find_filter p m.entries j

@[simp] theorem get?_erase (m : OrderedMap κ α) (k j : κ) :
    (m.erase k).get? j = if k = j then none else m.get? j := by
  by_cases h : k = j
  · simp [erase, h]
  · have h' : ¬ j = k := fun e => h e.symm
    simp [erase, h, h']

/-- Applies `f` to every value. -/
def mapValues (f : κ → α → β) (m : OrderedMap κ α) : OrderedMap κ β :=
  ⟨m.entries.map fun e => (e.1, f e.1 e.2), by
    have : (m.entries.map fun e => (e.1, f e.1 e.2)).map Prod.fst = m.entries.map Prod.fst := by
      simp [List.map_map, Function.comp_def]
    rw [this]; exact m.nodup_keys⟩

theorem find_map (f : κ → α → β) (l : List (κ × α)) (j : κ) :
    find j (l.map fun e => (e.1, f e.1 e.2)) = (find j l).map (f j) := by
  induction l with
  | nil => rfl
  | cons e rest ih =>
    obtain ⟨k', a'⟩ := e
    by_cases hj : k' = j
    · subst hj; simp [find]
    · simp only [List.map_cons, find, hj, if_false, ih]

@[simp] theorem get?_mapValues (f : κ → α → β) (m : OrderedMap κ α) (j : κ) :
    (m.mapValues f).get? j = (m.get? j).map (f j) :=
  find_map f m.entries j

omit [DecidableEq κ] in
@[simp] theorem keys_mapValues (f : κ → α → β) (m : OrderedMap κ α) :
    (m.mapValues f).keys = m.keys := by
  simp [keys, mapValues, List.map_map, Function.comp_def]

/-- Applies `f` to the value of `k`, if there is one. -/
def modify (m : OrderedMap κ α) (k : κ) (f : α → α) : OrderedMap κ α :=
  m.mapValues fun j a => if j = k then f a else a

/-! ### Renaming a key -/

/-- Puts an entry for `k` at index `i`; an entry that `k` had elsewhere is dropped. -/
def insertAt (m : OrderedMap κ α) (i : Nat) (k : κ) (a : α) : OrderedMap κ α :=
  let others := m.erase k
  ⟨others.entries.take i ++ (k, a) :: others.entries.drop i, by
    have hk : k ∉ others.entries.map Prod.fst := by
      simp only [others, erase, filterKeys, List.mem_map, List.mem_filter, decide_eq_true_eq]
      rintro ⟨e, ⟨_, he⟩, rfl⟩
      exact he rfl
    have hn : (others.entries.take i ++ others.entries.drop i).map Prod.fst |>.Nodup := by
      rw [List.take_append_drop]; exact others.nodup_keys
    have hp : ((others.entries.take i ++ (k, a) :: others.entries.drop i).map Prod.fst).Perm
        (k :: (others.entries.take i ++ others.entries.drop i).map Prod.fst) := by
      rw [List.map_append, List.map_append, List.map_cons]
      exact List.perm_middle
    rw [hp.nodup_iff, List.nodup_cons]
    refine ⟨?_, hn⟩
    rw [List.take_append_drop]
    exact hk⟩

/-- Moves the value of `k` to the key `k'`, which takes the place that `k` had. -/
def renameKey (m : OrderedMap κ α) (k k' : κ) : OrderedMap κ α :=
  match m.get? k with
  | none => m
  | some a => (m.erase k).insertAt (m.keys.idxOf k) k' a

/-- Can `k'` take the place of `k`?  A key that is already there moves in front of an entry that stays, so it
cannot take the last place. -/
def canRename (m : OrderedMap κ α) (k k' : κ) : Bool :=
  decide (k = k') || !m.contains k' || decide (m.keys.getLast? ≠ some k)

/-! ### Comparing -/

/-- Do both maps hold the same entries, whatever their order? -/
def sameEntries [DecidableEq α] (m n : OrderedMap κ α) : Bool :=
  decide (m.size = n.size) && m.entries.all fun e => decide (n.get? e.1 = some e.2)

end OrderedMap

end GrammarInference
