/-
GrammarInference/Proofs/Grammar/Renaming.lean

Renaming the nonterminals of a grammar, and reading a grammar inside a larger one.

Design.  A renaming step moves one definition to a new name and rewrites all references.  If the new names are
fresh and different from each other, then steps for all names leave every definition under its new name, with
all the names that it mentions replaced (`Relabels`); the steps are put together by `Relabels.trans`.

A grammar that is extended by further definitions keeps its meaning: if two grammars agree on a set of names that
mention only each other, then these names derive the same words in both (`inLanguage_iff_of_agree`).
-/
import GrammarInference.Proofs.Grammar.Derivation
import GrammarInference.Proofs.Grammar.Validity
import Mathlib.Data.Set.Image

namespace GrammarInference

namespace OrderedMap

variable {κ α : Type} [DecidableEq κ]

theorem get?_insertAt (m : OrderedMap κ α) (i : Nat) (k : κ) (a : α) (j : κ) :
    (m.insertAt i k a).get? j = if k = j then some a else m.get? j := by
  have hmem : ∀ b, (m.insertAt i k a).get? j = some b ↔ (j, b) = (k, a) ∨ (m.erase k).get? j = some b := by
    intro b
    rw [get?_eq_some_iff, get?_eq_some_iff, insertAt, List.mem_append, List.mem_cons, or_left_comm,
      ← List.mem_append, List.take_append_drop]
  ext b
  rw [hmem, get?_erase, Prod.mk.injEq]
  by_cases hj : k = j
  · simp [hj, eq_comm]
  · simp [hj, Ne.symm hj]

theorem get?_renameKey {m : OrderedMap κ α} {k k' : κ} (hk' : m.contains k' = false) (j : κ) :
    (m.renameKey k k').get? j = if j = k' then m.get? k else if j = k then none else m.get? j := by
  have hnone : m.get? k' = none := Option.not_isSome_iff_eq_none.mp (Bool.eq_false_iff.mp hk')
  rcases hget : m.get? k with - | a
  · simp only [renameKey, hget]
    by_cases hj : j = k'
    · rw [if_pos hj, hj, hnone]
    · by_cases hjk : j = k
      · rw [if_neg hj, if_pos hjk, hjk, hget]
      · rw [if_neg hj, if_neg hjk]
  · simp only [renameKey, hget, get?_insertAt, get?_erase, eq_comm]

end OrderedMap

/-- Applies a function to the name, if this is a nonterminal. -/
def Symbol.mapName (f : String → String) : Symbol → Symbol
  | .terminal t => .terminal t
  | .nonterminal n => .nonterminal (f n)

/-- The function that replaces one name. -/
def replacedName (old new n : String) : String := if n = old then new else n

namespace Grammar

variable {g g' g'' : Grammar} {K : Set String} {f f' : String → String} {n m old new : String} {ks : List String}
  {w : List Char}

/-! ### Renaming -/

/-- All names of `g`, defined or mentioned, belong to `K`. -/
structure Within (g : Grammar) (K : Set String) : Prop where
  /-- The names with a definition belong to it. -/
  defined : ∀ n, g.contains n = true → n ∈ K
  /-- The names that are mentioned belong to it. -/
  mentioned : ∀ n, ∀ m ∈ g.mentions n, m ∈ K

/-- The definitions of `g` stand in `g'` under the names that `f` gives to those in `K`, and are rewritten to
mention these names; nothing else is defined in `g'`. -/
structure Relabels (f : String → String) (K : Set String) (g g' : Grammar) : Prop where
  /-- A definition is that of the old name, with all names replaced. -/
  alternatives : ∀ n ∈ K, g'.alternatives (f n) = (g.alternatives n).map fun r => r.map (Symbol.mapName f)
  /-- Only new names are defined. -/
  defined : ∀ n, g'.contains n = true → ∃ m ∈ K, f m = n

theorem Within.mono {K' : Set String} (h : Within g K) (hK : ∀ n ∈ K, n ∈ K') : Within g K' :=
  ⟨fun n hn => hK n (h.defined n hn), fun n m hm => hK m (h.mentioned n m hm)⟩

theorem mapName_congr {r : Rule} (h : ∀ n, Symbol.nonterminal n ∈ r → f n = f' n) :
    r.map (Symbol.mapName f) = r.map (Symbol.mapName f') := by
  refine List.map_congr_left fun x hx => ?_
  cases x with
  | terminal t => rfl
  | nonterminal n => rw [Symbol.mapName, Symbol.mapName, h n hx]

/-- Rules with names of a set can be told apart by the new names, too. -/
theorem map_mapName_inj (hf : Set.InjOn f K) {r r' : Rule} (hr : ∀ n, Symbol.nonterminal n ∈ r → n ∈ K)
    (hr' : ∀ n, Symbol.nonterminal n ∈ r' → n ∈ K) (h : r.map (Symbol.mapName f) = r'.map (Symbol.mapName f)) :
    r = r' := by
  induction r generalizing r' with
  | nil => exact (List.map_eq_nil_iff.mp h.symm).symm
  | cons x r ih =>
    cases r' with
    | nil => cases h
    | cons x' r' =>
      obtain ⟨hx, hrest⟩ := List.cons.inj h
      have hsame : x = x' := by
        cases x <;> cases x' <;> simp only [Symbol.mapName, Symbol.terminal.injEq, Symbol.nonterminal.injEq] at hx
        · rw [hx]
        · cases hx
        · cases hx
        · rw [hf (hr _ List.mem_cons_self) (hr' _ List.mem_cons_self) hx]
      rw [hsame, ih (fun n hn => hr n (List.mem_cons_of_mem x hn)) (fun n hn => hr' n (List.mem_cons_of_mem x' hn))
        hrest]

theorem Relabels.congr (h : Relabels f K g g') (hg : Within g K) (hf : ∀ n ∈ K, f n = f' n) :
    Relabels f' K g g' where
  alternatives := fun n hn => by
    rw [← hf n hn, h.alternatives n hn]
    refine List.map_congr_left fun r hr => mapName_congr fun m hm => hf m ?_
    exact hg.mentioned n m (mem_mentions_iff.mpr ⟨r, hr, hm⟩)
  defined := fun n hn => by
    obtain ⟨m, hm, rfl⟩ := h.defined n hn
    exact ⟨m, hm, (hf m hm).symm⟩

theorem Relabels.trans (h : Relabels f K g g') (h' : Relabels f' (f '' K) g' g'') :
    Relabels (f' ∘ f) K g g'' where
  alternatives := fun n hn => by
    rw [Function.comp_apply, h'.alternatives _ (Set.mem_image_of_mem f hn), h.alternatives n hn, List.map_map]
    refine List.map_congr_left fun r _ => ?_
    rw [Function.comp_apply, List.map_map]
    refine List.map_congr_left fun x _ => ?_
    cases x <;> rfl
  defined := fun n hn => by
    obtain ⟨-, ⟨m, hm, rfl⟩, rfl⟩ := h'.defined n hn
    exact ⟨m, hm, rfl⟩

/-- The new grammar mentions new names only. -/
theorem Relabels.within (h : Relabels f K g g') (hg : Within g K) : Within g' (f '' K) where
  defined := h.defined
  mentioned := fun n m hm => by
    obtain ⟨body, hbody, hmem⟩ := mem_mentions_iff.mp hm
    obtain ⟨k, hk, rfl⟩ := h.defined n (contains_of_mem_alternatives hbody)
    rw [h.alternatives k hk] at hbody
    obtain ⟨r, hr, rfl⟩ := List.mem_map.mp hbody
    obtain ⟨x, hx, heq⟩ := List.mem_map.mp hmem
    cases x with
    | terminal t => cases heq
    | nonterminal j =>
      cases heq
      exact ⟨j, hg.mentioned k j (mem_mentions_iff.mpr ⟨r, hr, hx⟩), rfl⟩

theorem alternatives_rename (hnew : g.contains new = false) (n : String) : (g.rename old new).alternatives n =
    (if n = new then g.alternatives old else if n = old then [] else g.alternatives n).map
      fun r => r.map (Symbol.replaceName old new) := by
  rw [rename, alternatives_replaceReferences, alternatives, OrderedMap.get?_renameKey hnew, alternatives,
    alternatives]
  split
  · rfl
  · split <;> rfl

theorem mapName_replacedName : Symbol.mapName (replacedName old new) = Symbol.replaceName old new := by
  funext x
  cases x with
  | terminal t => rfl
  | nonterminal n =>
    rw [Symbol.mapName, Symbol.replaceName, replacedName]
    split <;> rfl

/-- A renaming step with a fresh name. -/
theorem Within.relabels_rename (hg : Within g K) (hold : old ∈ K) (hnew : new ∉ K) :
    Relabels (replacedName old new) K g (g.rename old new) := by
  have hundefined : g.contains new = false := Bool.eq_false_iff.mpr fun h => hnew (hg.defined new h)
  constructor
  · intro n hn
    rw [alternatives_rename hundefined, mapName_replacedName, replacedName]
    by_cases hno : n = old
    · rw [if_pos hno, if_pos rfl, hno]
    · have hnn : n ≠ new := fun h => hnew (h ▸ hn)
      rw [if_neg hno, if_neg hnn, if_neg hno]
  · intro n hn
    rw [rename, replaceReferences, OrderedMap.contains, OrderedMap.get?_mapValues, Option.isSome_map,
      OrderedMap.get?_renameKey hundefined] at hn
    by_cases hnn : n = new
    · exact ⟨old, hold, by rw [replacedName, if_pos rfl, hnn]⟩
    · rw [if_neg hnn] at hn
      by_cases hno : n = old
      · rw [if_pos hno] at hn
        cases hn
      · rw [if_neg hno] at hn
        exact ⟨n, hg.defined n hn, by rw [replacedName, if_neg hno]⟩

/-- Steps for some names, each with a fresh name that is given out only once. -/
theorem Within.relabels_foldl (hg : Within g K) (hks : ks.Nodup) (hK : ∀ k ∈ ks, k ∈ K)
    (hfresh : ∀ k ∈ ks, f k ∉ K) (hinj : ∀ k ∈ ks, ∀ j ∈ ks, f k = f j → k = j) :
    Relabels (fun n => if n ∈ ks then f n else n) K g (ks.foldl (fun g k => g.rename k (f k)) g) := by
  induction ks generalizing g K with
  | nil =>
    simp only [List.not_mem_nil, if_false, List.foldl_nil]
    refine ⟨fun n _ => ?_, fun n hn => ⟨n, hg.defined n hn, rfl⟩⟩
    have hid : Symbol.mapName (fun n => n) = id := by
      funext x
      cases x <;> rfl
    simp [hid]
  | cons k ks ih =>
    obtain ⟨hk, hks⟩ := List.nodup_cons.mp hks
    obtain ⟨hkK, hK⟩ := List.forall_mem_cons.mp hK
    obtain ⟨hkfresh, hfresh⟩ := List.forall_mem_cons.mp hfresh
    have hstep := hg.relabels_rename hkK hkfresh
    have hother : ∀ j ∈ ks, replacedName k (f k) j = j := by
      intro j hj
      rw [replacedName, if_neg]
      rintro rfl
      exact hk hj
    -- the other new names are fresh among the names after the step, too
    have hfresh' : ∀ j ∈ ks, f j ∉ replacedName k (f k) '' K := by
      rintro j hj ⟨i, hi, heq⟩
      rw [replacedName] at heq
      split at heq
      · exact hk (hinj k List.mem_cons_self j (List.mem_cons_of_mem k hj) heq ▸ hj)
      · exact hfresh j hj (heq ▸ hi)
    have hrest := ih (hstep.within hg) hks (fun j hj => ⟨j, hK j hj, hother j hj⟩) hfresh'
      fun i hi j hj => hinj i (List.mem_cons_of_mem k hi) j (List.mem_cons_of_mem k hj)
    rw [List.foldl_cons]
    refine (hstep.trans hrest).congr hg fun n hn => ?_
    rw [Function.comp_apply, replacedName]
    by_cases hnk : n = k
    · rw [if_pos hnk, if_neg (fun h => hkfresh (hK _ h)), if_pos (hnk ▸ List.mem_cons_self), hnk]
    · simp [hnk]

/-! ### Other names in another order -/

/-- The grammar `g'` is `g` with the names that `f` gives, its definitions and their alternatives in some order. -/
structure SameUpTo (f : String → String) (g g' : Grammar) : Prop where
  /-- No two names of the grammar, defined or mentioned, get the same name. -/
  injective : Set.InjOn f {n | g.contains n = true ∨ ∃ m, n ∈ g.mentions m}
  /-- The start symbol keeps its name. -/
  start : f startName = startName
  /-- The new names are defined, and no others. -/
  keys : (g.keys.map f).Perm g'.keys
  /-- The definitions are those of the old names, with all names replaced. -/
  alternatives : ∀ n, g.contains n = true →
    ((g.alternatives n).map fun r => r.map (Symbol.mapName f)).Perm (g'.alternatives (f n))

/-- What is derived with the old names is derived with the new ones. -/
theorem SameUpTo.derives {r : Rule} (h : SameUpTo f g g') (hd : Derives g r w) :
    Derives g' (r.map (Symbol.mapName f)) w := by
  induction hd with
  | nil => exact .nil
  | terminal _ ih => exact .terminal ih
  | nonterminal hb _ _ ihBody ih =>
    have hmem := (h.alternatives _ (contains_of_mem_alternatives hb)).mem_iff.mp (List.mem_map_of_mem hb)
    exact .nonterminal hmem ihBody ih

theorem SameUpTo.inLanguage (h : SameUpTo f g g') (hw : InLanguage g n w) : InLanguage g' (f n) w :=
  derives_singleton_iff.mp (h.derives (derives_singleton_iff.mpr hw))

/-! ### Extensions -/

theorem mem_mentions_insert {rs : List Rule} (h : m ∈ Grammar.mentions (g.insert old rs) n) :
    (∃ r ∈ rs, Symbol.nonterminal m ∈ r) ∨ m ∈ g.mentions n := by
  rw [mem_mentions_iff, alternatives_insert] at h
  by_cases hn : old = n
  · rw [if_pos hn] at h
    exact .inl h
  · rw [if_neg hn] at h
    exact .inr (mem_mentions_iff.mpr h)

theorem Derives.of_agree {r : Rule} (h : ∀ n ∈ K, g'.alternatives n = g.alternatives n)
    (hclosed : ∀ n ∈ K, ∀ m ∈ g.mentions n, m ∈ K) (hr : ∀ m, Symbol.nonterminal m ∈ r → m ∈ K)
    (hd : Derives g r w) : Derives g' r w := by
  induction hd with
  | nil => exact .nil
  | terminal _ ih => exact .terminal (ih fun m hm => hr m (List.mem_cons_of_mem _ hm))
  | nonterminal hb _ _ ihBody ih =>
    have hn := hr _ List.mem_cons_self
    have hbody := ihBody fun m hm => hclosed _ hn m (mem_mentions_iff.mpr ⟨_, hb, hm⟩)
    exact .nonterminal (h _ hn ▸ hb) hbody (ih fun m hm => hr m (List.mem_cons_of_mem _ hm))

/-- Names that mention only each other derive the same words wherever they have the same definitions. -/
theorem inLanguage_iff_of_agree (h : ∀ n ∈ K, g'.alternatives n = g.alternatives n)
    (hclosed : ∀ n ∈ K, ∀ m ∈ g.mentions n, m ∈ K) (hn : n ∈ K) : InLanguage g' n w ↔ InLanguage g n w := by
  have hr : ∀ m, Symbol.nonterminal m ∈ [Symbol.nonterminal n] → m ∈ K := by
    intro m hm
    cases List.mem_singleton.mp hm
    exact hn
  rw [← derives_singleton_iff, ← derives_singleton_iff]
  constructor
  · refine Derives.of_agree (fun m hm => (h m hm).symm) (fun m hm j hj => hclosed m hm j ?_) hr
    rwa [Grammar.mentions, h m hm] at hj
  · exact Derives.of_agree h hclosed hr

end Grammar

end GrammarInference
