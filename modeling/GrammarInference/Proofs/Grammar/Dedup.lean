/-
GrammarInference/Proofs/Grammar/Dedup.lean

Merging repeated definitions keeps what every surviving nonterminal derives.

Design.  To collapse `d` onto `k` is to rename one symbol.  If both have the same alternatives, then a rule
derives before what the renamed rule derives after (`derives_collapse_iff`).  A pass collapses several pairs one
after the other; the pairs are found in one grammar and collapsed in another.  So what has to hold of the pairs
still to come is kept as `Repeats`: both have the same alternatives, and no nonterminal that is kept is removed.

    InLanguage (dedup g) startName w  ↔  InLanguage g startName w
-/
import GrammarInference.Grammar.Dedup
import GrammarInference.Proofs.Grammar.Derivation

namespace GrammarInference

namespace Grammar

variable {g g' : Grammar} {d k n : String} {r : Rule} {w : List Char}

/-! ### One pair -/

theorem alternatives_erase (g : Grammar) (d n : String) :
    alternatives (g.erase d) n = if d = n then [] else alternatives g n := by
  rw [alternatives, alternatives, OrderedMap.get?_erase]
  split <;> rfl

theorem alternatives_collapse (g : Grammar) (d k n : String) : alternatives (collapse g d k) n =
    if d = n then [] else (alternatives g n).map fun r => r.map (Symbol.replaceName d k) := by
  rw [collapse, alternatives_replaceReferences, alternatives_erase]
  split <;> rfl

theorem mem_alternatives_collapse {body : Rule} : body ∈ alternatives (collapse g d k) n ↔
    d ≠ n ∧ ∃ b ∈ alternatives g n, b.map (Symbol.replaceName d k) = body := by
  rw [alternatives_collapse]
  by_cases h : d = n <;> simp [h]

/-- What is derived before is derived after, by the renamed rule. -/
theorem Derives.collapse (h : g.alternatives d = g.alternatives k) (hne : d ≠ k) (hd : Derives g r w) :
    Derives (g.collapse d k) (r.map (Symbol.replaceName d k)) w := by
  have hpieces : Pieces (fun x u => Derives (g.collapse d k) [Symbol.replaceName d k x] u) r w := by
    refine hd.pieces (fun t => derives_terminal_iff.mpr rfl) fun n body u hb hu => ?_
    have hbody := hu.derives_map fun _ _ hx => hx
    rw [Symbol.replaceName]
    split
    · -- the alternative of `d` is one of `k`
      rename_i hn
      rw [hn, h] at hb
      exact derives_singleton_iff.mpr ⟨_, mem_alternatives_collapse.mpr ⟨hne, body, hb, rfl⟩, hbody⟩
    · rename_i hn
      have hn' : d ≠ n := fun e => hn e.symm
      exact derives_singleton_iff.mpr ⟨_, mem_alternatives_collapse.mpr ⟨hn', body, hb, rfl⟩, hbody⟩
  exact hpieces.derives_map fun _ _ hx => hx

/-- What the renamed rule derives after is derived before. -/
theorem Derives.of_collapse (h : g.alternatives d = g.alternatives k)
    (hd : Derives (g.collapse d k) (r.map (Symbol.replaceName d k)) w) : Derives g r w := by
  -- a symbol after stands for every symbol that was renamed to it
  have hpieces : Pieces (fun x u => ∀ y, Symbol.replaceName d k y = x → Derives g [y] u)
      (r.map (Symbol.replaceName d k)) w := by
    refine hd.pieces ?_ ?_
    · intro t y hy
      cases y with
      | terminal s =>
        cases hy
        exact derives_terminal_iff.mpr rfl
      | nonterminal m =>
        rw [Symbol.replaceName] at hy
        split at hy <;> cases hy
    · intro n body u hb hu y hy
      obtain ⟨hne, b, hb', rfl⟩ := mem_alternatives_collapse.mp hb
      have hbody : Derives g b u :=
        (hu.of_map (Q := fun y v => Derives g [y] v) fun x v hx => hx x rfl).derives fun _ _ hx => hx
      cases y with
      | terminal s => cases hy
      | nonterminal m =>
        rw [Symbol.replaceName] at hy
        split at hy
        · rename_i hm
          cases hy
          exact derives_singleton_iff.mpr ⟨b, by rw [hm, h]; exact hb', hbody⟩
        · cases hy
          exact derives_singleton_iff.mpr ⟨b, hb', hbody⟩
  exact (hpieces.of_map (Q := fun y v => Derives g [y] v) fun x v hx => hx x rfl).derives fun _ _ hx => hx

/-- A nonterminal that is not removed derives the same strings. -/
theorem inLanguage_collapse_iff (h : g.alternatives d = g.alternatives k) (hne : d ≠ k) (hn : n ≠ d) :
    InLanguage (g.collapse d k) n w ↔ InLanguage g n w := by
  have hname : [Symbol.nonterminal n].map (Symbol.replaceName d k) = [.nonterminal n] := by
    simp [Symbol.replaceName, hn]
  rw [← derives_singleton_iff, ← derives_singleton_iff]
  constructor
  · intro hd
    rw [← hname] at hd
    exact hd.of_collapse h
  · intro hd
    have hd' := hd.collapse h hne
    rwa [hname] at hd'

/-! ### A pass -/

/-- The first nonterminal of each pair repeats the second one, and no second one is removed. -/
structure Repeats (g : Grammar) (pairs : List (String × String)) : Prop where
  /-- Both have the same alternatives. -/
  alternatives_eq : ∀ p ∈ pairs, g.alternatives p.1 = g.alternatives p.2
  /-- Nothing is removed twice. -/
  nodup : (pairs.map Prod.fst).Nodup
  /-- What is kept is not removed. -/
  kept : ∀ p ∈ pairs, p.2 ∉ pairs.map Prod.fst

theorem Repeats.collapse {p : String × String} {pairs : List (String × String)} (h : Repeats g (p :: pairs)) :
    Repeats (g.collapse p.1 p.2) pairs where
  alternatives_eq := by
    intro q hq
    have hfst : p.1 ≠ q.1 := by
      rintro e
      exact (List.nodup_cons.mp h.nodup).1 (e ▸ List.mem_map_of_mem hq)
    have hsnd : p.1 ≠ q.2 := by
      rintro e
      exact h.kept q (List.mem_cons_of_mem p hq) (e ▸ List.mem_cons_self)
    rw [alternatives_collapse, alternatives_collapse, if_neg hfst, if_neg hsnd,
      h.alternatives_eq q (List.mem_cons_of_mem p hq)]
  nodup := (List.nodup_cons.mp h.nodup).2
  kept := fun q hq hmem => h.kept q (List.mem_cons_of_mem p hq) (List.mem_cons_of_mem _ hmem)

/-- Collapsing all pairs keeps what the others derive. -/
theorem inLanguage_foldl_collapse_iff {pairs : List (String × String)} (h : Repeats g pairs)
    (hn : n ∉ pairs.map Prod.fst) :
    InLanguage (pairs.foldl (fun g p => g.collapse p.1 p.2) g) n w ↔ InLanguage g n w := by
  induction pairs generalizing g with
  | nil => exact Iff.rfl
  | cons p pairs ih =>
    rw [List.map_cons, List.mem_cons, not_or] at hn
    obtain ⟨hp, hpairs⟩ := hn
    have hne : p.1 ≠ p.2 := fun e => h.kept p List.mem_cons_self (e ▸ List.mem_cons_self)
    have heq := h.alternatives_eq p List.mem_cons_self
    exact (ih h.collapse hpairs).trans (inLanguage_collapse_iff heq hne hp)

theorem firstWith_eq_some {rs : List Rule} (h : g.firstWith rs = some k) :
    (k, rs) ∈ g.entries ∧ k ≠ startName := by
  rw [firstWith, Option.map_eq_some_iff] at h
  obtain ⟨⟨n, rs'⟩, he, rfl⟩ := h
  have hcond := List.find?_some he
  rw [Bool.and_eq_true, decide_eq_true_eq, decide_eq_true_eq] at hcond
  obtain ⟨hstart, hrs⟩ := hcond
  cases hrs
  exact ⟨List.mem_of_find?_eq_some he, hstart⟩

theorem alternatives_of_mem_entries {rs : List Rule} (h : (n, rs) ∈ g.entries) : g.alternatives n = rs := by
  rw [alternatives, OrderedMap.get?_eq_some_iff.mpr h]
  rfl

theorem mem_duplicates_iff : (d, k) ∈ g.duplicates ↔
    ∃ rs, (d, rs) ∈ g.entries ∧ d ≠ startName ∧ g.firstWith rs = some k ∧ k ≠ d := by
  rw [duplicates, List.mem_filterMap]
  constructor
  · rintro ⟨⟨n, rs⟩, he, hsome⟩
    by_cases hn : n = startName
    · rw [if_pos hn] at hsome
      cases hsome
    · rw [if_neg hn] at hsome
      rcases hfirst : g.firstWith rs with - | kept
      · rw [hfirst] at hsome
        cases hsome
      · simp only [hfirst] at hsome
        by_cases hkept : kept = n
        · rw [if_pos hkept] at hsome
          cases hsome
        · rw [if_neg hkept] at hsome
          cases hsome
          exact ⟨rs, he, hn, hfirst, hkept⟩
  · rintro ⟨rs, he, hn, hfirst, hkept⟩
    refine ⟨(d, rs), he, ?_⟩
    rw [if_neg hn, hfirst]
    exact if_neg hkept

theorem map_fst_filterMap_sublist {β : Type} {f : String × List Rule → Option (String × β)}
    (hf : ∀ e p, f e = some p → p.1 = e.1) {l : List (String × List Rule)} :
    ((l.filterMap f).map Prod.fst).Sublist (l.map Prod.fst) := by
  induction l with
  | nil => exact .slnil
  | cons e l ih =>
    rcases he : f e with - | p
    · rw [List.filterMap_cons_none he]
      exact ih.cons e.1
    · rw [List.filterMap_cons_some he, List.map_cons, List.map_cons, hf e p he]
      exact ih.cons_cons e.1

/-- The pairs of a pass are repetitions. -/
theorem repeats_duplicates (g : Grammar) : Repeats g g.duplicates where
  alternatives_eq := by
    rintro ⟨d, k⟩ hp
    obtain ⟨rs, hd, -, hfirst, -⟩ := mem_duplicates_iff.mp hp
    rw [alternatives_of_mem_entries hd, alternatives_of_mem_entries (firstWith_eq_some hfirst).1]
  nodup := by
    -- a pair stands for the entry of its first name, and names are keys
    refine g.nodup_keys.sublist (map_fst_filterMap_sublist fun e p he => ?_)
    by_cases hn : e.1 = startName
    · rw [if_pos hn] at he
      cases he
    · rw [if_neg hn] at he
      split at he
      · split at he
        · cases he
        · cases he
          rfl
      · cases he
  kept := by
    rintro ⟨d, k⟩ hp hmem
    obtain ⟨⟨k', k''⟩, hp', rfl⟩ := List.mem_map.mp hmem
    obtain ⟨rs, hd, -, hfirst, -⟩ := mem_duplicates_iff.mp hp
    obtain ⟨rs', hk, -, hfirst', hne⟩ := mem_duplicates_iff.mp hp'
    -- the kept one has the alternatives for which it is the first
    have hrs : rs' = rs := by
      rw [← alternatives_of_mem_entries hk, ← alternatives_of_mem_entries (firstWith_eq_some hfirst).1]
    rw [hrs, hfirst] at hfirst'
    exact hne (Option.some.inj hfirst').symm

theorem alternatives_distinctAlternatives (g : Grammar) (n : String) :
    alternatives g.distinctAlternatives n = distinct (alternatives g n) := by
  rw [alternatives, distinctAlternatives, OrderedMap.get?_mapValues, alternatives]
  cases g.get? n <;> rfl

theorem inLanguage_distinctAlternatives_iff : InLanguage g.distinctAlternatives n w ↔ InLanguage g n w := by
  have hmem : ∀ m body, body ∈ alternatives g.distinctAlternatives m ↔ body ∈ alternatives g m := by
    intro m body
    rw [alternatives_distinctAlternatives, mem_distinct]
  constructor
  · rintro ⟨body, hb, hd⟩
    exact ⟨body, (hmem n body).mp hb, hd.mono fun m b => (hmem m b).mp⟩
  · rintro ⟨body, hb, hd⟩
    exact ⟨body, (hmem n body).mpr hb, hd.mono fun m b => (hmem m b).mpr⟩

/-- A pass keeps what every surviving nonterminal derives. -/
theorem inLanguage_of_dedupOnce? (h : g.dedupOnce? = some g') (hn : n ∉ g.duplicates.map Prod.fst) :
    InLanguage g' n w ↔ InLanguage g n w := by
  rw [dedupOnce?] at h
  split at h
  · cases h
  · cases h
    exact inLanguage_distinctAlternatives_iff.trans (inLanguage_foldl_collapse_iff (repeats_duplicates g) hn)

theorem startName_not_mem_duplicates (g : Grammar) : startName ∉ g.duplicates.map Prod.fst := by
  intro h
  obtain ⟨⟨d, k⟩, hp, hd⟩ := List.mem_map.mp h
  obtain ⟨-, -, hne, -⟩ := mem_duplicates_iff.mp hp
  exact hne hd

/-! ### All passes -/

theorem inLanguage_dedupWithin_iff {passes : Nat} :
    InLanguage (dedupWithin passes g) startName w ↔ InLanguage g startName w := by
  induction passes generalizing g with
  | zero => exact Iff.rfl
  | succ passes ih =>
    rw [dedupWithin]
    rcases h : g.dedupOnce? with - | g'
    · exact Iff.rfl
    · exact ih.trans (inLanguage_of_dedupOnce? h (startName_not_mem_duplicates g))

/-- Merging repeated definitions keeps the language of the start symbol. -/
theorem inLanguage_dedup_iff : InLanguage g.dedup startName w ↔ InLanguage g startName w :=
  inLanguage_dedupWithin_iff

end Grammar

end GrammarInference
