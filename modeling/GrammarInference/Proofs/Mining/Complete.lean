/-
GrammarInference/Proofs/Mining/Complete.lean

Mined grammars leave nothing undefined.

Design.  The rules of a tree mention labels of nodes of the same tree, each of which adds a definition, and the
parts of a loop, which are defined with it; so the raw grammar is complete.  Mending a loop removes the definition
of its continue part, and this leaves nothing undefined because the continue part is mentioned by the loop alone
(`Owned`): no other name looks like one.  All this depends on the marks of names and not on what the functions of
the traces are called.
-/
import GrammarInference.Proofs.Grammar.Complete
import GrammarInference.Proofs.Mining.Loops
import GrammarInference.Proofs.Mining.Run

namespace GrammarInference

open Grammar ExecutionTree

variable {g : Grammar} {n m : String} {r : Rule} {t u root : ExecutionTree}

/-! ### Raw grammars -/

/-- A node that is no iteration adds to its label. -/
theorem label_mem_additions (ht : t.kind ≠ .iteration) : t.label ∈ (additions t).map Prod.fst := by
  obtain ⟨n, kind, ts⟩ := t
  cases kind with
  | iteration => exact absurd rfl ht
  | call | bucket values => exact List.mem_cons_self
  | loop =>
    have hrule : (n, some [.nonterminal (exitName n)]) ∈ additions (.node n .loop ts) := by
      simp [additions, loopRules]
    exact List.mem_map_of_mem hrule

theorem parts_mem_additions (ht : t.kind = .loop) :
    continueName t.label ∈ (additions t).map Prod.fst ∧ exitName t.label ∈ (additions t).map Prod.fst := by
  obtain ⟨n, kind, ts⟩ := t
  cases ht
  have hcontinue : (continueName n, none) ∈ additions (.node n .loop ts) := by simp [additions]
  have hexit : (exitName n, none) ∈ additions (.node n .loop ts) := by simp [additions]
  exact ⟨List.mem_map_of_mem hcontinue, List.mem_map_of_mem hexit⟩

/-- The nodes that are mentioned were built, and are no iterations. -/
theorem ExecutionTree.Grown.of_mem_mentioned {P : String → Prop} (ht : t.Grown P) (hu : u ∈ mentioned t) :
    u.Grown P ∧ u.kind ≠ .iteration := by
  cases ht with
  | bucket k values => exact absurd hu List.not_mem_nil
  | @step e ts _ hts hkinds _ _ =>
    have hcall : e.kind ≠ .loop → ∀ v ∈ ts, v.kind ≠ .iteration := fun he v hv hkind => he ((hkinds v hv).mp hkind)
    cases e with
    | call f c => exact ⟨hts u hu, hcall nofun u hu⟩
    | iteration f c i k => exact absurd hu List.not_mem_nil
    | loop f c i =>
      -- below a loop stand iterations, and below these no further ones
      obtain ⟨v, hv, hu⟩ := List.mem_flatMap.mp hu
      have hiteration : v.kind = .iteration := (hkinds v hv).mpr rfl
      have hgrown := hts v hv
      cases hgrown with
      | bucket k values => cases hiteration
      | @step e' us _ hus hkinds' _ _ =>
        have hkind : e'.kind = .iteration := hiteration
        refine ⟨hus u hu, fun h => ?_⟩
        rw [hkinds' u hu, hkind] at h
        cases h

/-- The nodes that are mentioned belong to the tree. -/
theorem mem_levels_of_mem_mentioned (ht : t ∈ root.levels) (hu : u ∈ mentioned t) : u ∈ root.levels := by
  have hchildren := root.levels_spec.2
  obtain ⟨n, kind, ts⟩ := t
  cases kind with
  | call => exact hchildren _ ht hu
  | loop =>
    obtain ⟨v, hv, hu⟩ := List.mem_flatMap.mp hu
    exact hchildren _ (hchildren _ ht hv) hu
  | iteration | bucket values => exact absurd hu List.not_mem_nil

/-- A mention in the rules of a tree: the label of a node that adds a definition, or in the definition of a loop
the loop or one of its parts. -/
theorem mentioned_of_mem_treeAdditions {P : String → Prop} (hroot : root.Grown P) (hkind : root.kind ≠ .iteration)
    (ha : (m, some r) ∈ treeAdditions root) (hn : Symbol.nonterminal n ∈ r) :
    (∃ u ∈ root.levels, u.Grown P ∧ u.kind ≠ .iteration ∧ u.label = n) ∨
      ∃ u ∈ root.levels, u.Grown P ∧ u.kind = .loop ∧ u.label = m ∧
        (n = continueName m ∨ n = m ∨ n = exitName m) := by
  rcases List.mem_cons.mp ha with heq | ha
  · cases heq
    obtain rfl : n = root.label := by simpa using hn
    exact .inl ⟨root, root.mem_levels_self, hroot, hkind, rfl⟩
  · obtain ⟨t, ht, ha⟩ := List.mem_flatMap.mp ha
    have hgrown := hroot.of_mem_levels ht
    rcases mentioned_of_mem_additions ha hn with ⟨u, hu, rfl⟩ | ⟨hloop, rfl, hparts⟩
    · obtain ⟨hu', hiteration⟩ := hgrown.of_mem_mentioned hu
      exact .inl ⟨u, mem_levels_of_mem_mentioned ht hu, hu', hiteration, rfl⟩
    · exact .inr ⟨t, ht, hgrown, hloop, rfl, hparts⟩

/-- What a tree mentions, it defines. -/
theorem mem_treeAdditions_of_mentioned {P : String → Prop} (hroot : root.Grown P) (hkind : root.kind ≠ .iteration)
    (ha : (m, some r) ∈ treeAdditions root) (hn : Symbol.nonterminal n ∈ r) :
    n ∈ (treeAdditions root).map Prod.fst := by
  have hnode : ∀ u ∈ root.levels, n ∈ (additions u).map Prod.fst → n ∈ (treeAdditions root).map Prod.fst := by
    intro u hu hmem
    obtain ⟨a, ha, rfl⟩ := List.mem_map.mp hmem
    exact List.mem_map_of_mem (List.mem_cons_of_mem _ (List.mem_flatMap.mpr ⟨u, hu, ha⟩))
  rcases mentioned_of_mem_treeAdditions hroot hkind ha hn with ⟨u, hu, -, hiteration, rfl⟩ |
    ⟨u, hu, -, hloop, rfl, rfl | rfl | rfl⟩
  · exact hnode u hu (label_mem_additions hiteration)
  · exact hnode u hu (parts_mem_additions hloop).1
  · exact hnode u hu (label_mem_additions (by rw [hloop]; nofun))
  · exact hnode u hu (parts_mem_additions hloop).2

/-- The continue part of a loop is mentioned by the loop alone. -/
def Owned (g : Grammar) : Prop :=
  ∀ n k, isLoopLabel n = true → continueName n ∈ g.mentions k → k = n

/-- The rules of a tree mention the continue part of a loop in its definition only. -/
theorem eq_of_continueName_mentioned {P : String → Prop} (hroot : root.Grown P) (hkind : root.kind ≠ .iteration)
    (hn : isLoopLabel n = true) (ha : (m, some r) ∈ treeAdditions root)
    (hr : Symbol.nonterminal (continueName n) ∈ r) : m = n := by
  -- labels have the mark of their kind, which that of a continue part is not
  have hlabel : ∀ u : ExecutionTree, u.Grown P → u.label ≠ continueName n := by
    intro u hu h
    have hmark : some u.kind.mark = some 't' := by rw [← hu.marked, h, mark_continueName]
    revert hmark
    cases u.kind <;> simp [NodeKind.mark]
  rcases mentioned_of_mem_treeAdditions hroot hkind ha hr with ⟨u, -, hu, -, heq⟩ |
    ⟨u, -, hu, hloop, rfl, heq | heq | heq⟩
  · exact absurd heq (hlabel u hu)
  · cases hu with
    | bucket k values => cases hloop
    | @step e ts _ _ _ _ _ =>
      exact (continueName_inj (exists_toList_of_isLoopLabel hn) e.exists_toList_label heq).symm
  · exact absurd heq.symm (hlabel u hu)
  · exact absurd heq (continueName_ne_exitName n _)

/-- The grammar of some trees is complete. -/
theorem Mines.complete {P : String → Prop} {roots : List ExecutionTree} (h : Mines ∅ (roots.flatMap treeAdditions) g)
    (hgrown : ∀ root ∈ roots, root.Grown P ∧ root.kind ≠ .iteration) : g.Complete ∧ Owned g := by
  -- an alternative with a mention comes from one of the trees
  have hmention : ∀ n k, n ∈ g.mentions k → ∃ root ∈ roots, ∃ r,
      (k, some r) ∈ treeAdditions root ∧ Symbol.nonterminal n ∈ r := by
    intro n k hn
    obtain ⟨r, hr, hmem⟩ := mem_mentions_iff.mp hn
    obtain ⟨root, hroot, ha⟩ := List.mem_flatMap.mp ((h.mem_alternatives_iff k r).mp hr)
    exact ⟨root, hroot, r, ha, hmem⟩
  refine ⟨⟨fun k n hn => .inr ?_, h.nodup_alternatives⟩, fun n k hloop hn => ?_⟩
  · obtain ⟨root, hroot, r, ha, hmem⟩ := hmention n k hn
    obtain ⟨htree, hkind⟩ := hgrown root hroot
    obtain ⟨b, hb, rfl⟩ := List.mem_map.mp (mem_treeAdditions_of_mentioned htree hkind ha hmem)
    exact (h.contains_iff b.1).mpr (List.mem_map_of_mem (List.mem_flatMap.mpr ⟨root, hroot, hb⟩))
  · obtain ⟨root, hroot, r, ha, hmem⟩ := hmention _ k hn
    obtain ⟨htree, hkind⟩ := hgrown root hroot
    exact eq_of_continueName_mentioned htree hkind hloop ha hmem

namespace Miner

variable {mined : Miner} {config : MinerConfig} {events : List (Trace × Option ExecutionTree)}

theorem mem_runAdditions_iff {a : Addition} :
    a ∈ runAdditions events ↔ ∃ e ∈ events, ∃ root ∈ e.2, a ∈ treeAdditions root := by
  simp [runAdditions, List.mem_flatMap]

/-- The grammar of a run is complete. -/
theorem Run.complete (hrun : Run (new config none) events mined) : mined.grammar.Complete ∧ Owned mined.grammar := by
  have hmines : Mines ∅ (runAdditions events) mined.grammar := hrun.mines rfl looped_empty
  rw [runAdditions, ← List.flatMap_assoc] at hmines
  refine hmines.complete (P := fun _ => True) fun root hroot => ?_
  obtain ⟨e, he, hroot⟩ := List.mem_flatMap.mp hroot
  exact hrun.grown rfl e he root (Option.mem_toList.mp hroot)

/-- The start symbol is defined from the first tree on. -/
theorem Run.contains_startName {t : Trace} (hrun : Run (new config none) events mined)
    (hroot : (t, some root) ∈ events) : mined.grammar.contains startName = true := by
  have hmines : Mines ∅ (runAdditions events) mined.grammar := hrun.mines rfl looped_empty
  have hstart : (startName, some [.nonterminal root.label]) ∈ runAdditions events :=
    mem_runAdditions_iff.mpr ⟨_, hroot, root, rfl, List.mem_cons_self⟩
  exact (hmines.contains_iff startName).mpr (List.mem_map_of_mem hstart)

end Miner

/-! ### Mended loops -/

/-- Nothing is undefined, continue parts belong to their loops, and the start symbol is defined. -/
structure Mendable (g : Grammar) : Prop where
  /-- Every mention is defined. -/
  complete : g.Complete
  /-- Continue parts are mentioned by their loops. -/
  owned : Owned g
  /-- The start symbol is defined. -/
  start : g.contains startName = true

/-- The grammar in which a loop is its exit part. -/
def bypass (g : Grammar) (n : String) : Grammar := (g.erase (continueName n)).insert n [[.nonterminal (exitName n)]]

theorem alternatives_bypass (g : Grammar) (n k : String) : (bypass g n).alternatives k =
    if n = k then [[.nonterminal (exitName n)]] else if continueName n = k then [] else g.alternatives k := by
  rw [bypass, alternatives_insert, alternatives, OrderedMap.get?_erase]
  by_cases hk : continueName n = k <;> simp [hk, alternatives]

theorem contains_bypass (hm : m ≠ continueName n) (hdef : g.contains m = true) : (bypass g n).contains m = true := by
  refine contains_insert.mpr (.inr ?_)
  rw [OrderedMap.contains, OrderedMap.get?_erase, if_neg hm.symm]
  exact hdef

/-- There are no new mentions, and none of the continue part is left. -/
theorem mem_mentions_of_mem_mentions_bypass (howned : Owned g) (hlabel : isLoopLabel n = true)
    (hn : g.get? n = some (loopRules n)) {k : String} (hm : m ∈ (bypass g n).mentions k) :
    m ∈ g.mentions k ∧ m ≠ continueName n := by
  rw [mentions, alternatives_bypass] at hm
  by_cases hk : n = k
  · subst hk
    have hloop : [.nonterminal (exitName n)] ∈ g.alternatives n := by
      rw [alternatives, hn]
      exact List.mem_cons_of_mem _ List.mem_cons_self
    rw [if_pos rfl] at hm
    obtain rfl : m = exitName n := by simpa [Rule.names, Symbol.name?, eq_comm] using hm
    exact ⟨mem_mentions_iff.mpr ⟨_, hloop, List.mem_cons_self⟩, (continueName_ne_exitName n n).symm⟩
  · rw [if_neg hk] at hm
    split at hm
    · exact absurd hm List.not_mem_nil
    · refine ⟨hm, ?_⟩
      -- only the loop mentioned its continue part
      rintro rfl
      exact hk (howned n k hlabel hm).symm

theorem Mendable.bypass (hg : Mendable g) (hlabel : isLoopLabel n = true) (hn : g.get? n = some (loopRules n)) :
    Mendable (bypass g n) where
  complete := by
    refine ⟨fun k m hm => .inr ?_, fun k => ?_⟩
    · obtain ⟨hm, hne⟩ := mem_mentions_of_mem_mentions_bypass hg.owned hlabel hn hm
      exact contains_bypass hne ((hg.complete.defined k m hm).resolve_left id)
    · rw [alternatives_bypass]
      split
      · exact List.nodup_singleton _
      · split
        · exact List.nodup_nil
        · exact hg.complete.nodup k
  owned := fun j k hj hm => hg.owned j k hj (mem_mentions_of_mem_mentions_bypass hg.owned hlabel hn hm).1
  start := contains_bypass (continueName_ne_startName n).symm hg.start

/-- Mending a loop leaves nothing undefined. -/
theorem Mendable.fixLoop (hg : Mendable g) (hlabel : isLoopLabel n = true) (hn : g.get? n = some (loopRules n)) :
    Mendable (fixLoop g n).1 := by
  rw [GrammarInference.fixLoop]
  split
  · exact hg.bypass hlabel hn
  · exact hg

theorem Mendable.foldl_fixNext {ns : List String} {state : Grammar × List String} (hg : Mendable state.1)
    (hnodup : ns.Nodup) (hns : ∀ n ∈ ns, isLoopLabel n = true ∧ state.1.get? n = some (loopRules n)) :
    Mendable (ns.foldl fixNext state).1 := by
  induction ns generalizing state with
  | nil => exact hg
  | cons n ns ih =>
    obtain ⟨hnew, hnodup⟩ := List.nodup_cons.mp hnodup
    obtain ⟨⟨hlabel, hn⟩, hns⟩ := List.forall_mem_cons.mp hns
    rw [List.foldl_cons]
    refine ih ?_ hnodup fun m hm => ?_
    · rw [fst_fixNext]
      exact hg.fixLoop hlabel hn
    · -- mending one loop leaves the definitions of the others as they are
      obtain ⟨hmlabel, hget⟩ := hns m hm
      have hne : n ≠ m := fun h => hnew (h ▸ hm)
      refine ⟨hmlabel, ?_⟩
      rw [fst_fixNext, get?_fixLoop_of_ne hne (continueName_ne_of_mark (mark_of_isLoopLabel hmlabel))]
      exact hget

/-- Mending all loops of a mined grammar leaves nothing undefined. -/
theorem Mendable.fixLoops (hg : Mendable g) (hlooped : Looped g) : Mendable (fixLoops g).1 := by
  rw [fixLoops_eq]
  refine @Mendable.foldl_fixNext _ (g, []) hg (g.nodup_keys.filter _) fun n hn => ?_
  obtain ⟨hkey, hlabel⟩ := List.mem_filter.mp hn
  exact ⟨hlabel, hlooped n (OrderedMap.contains_iff_mem_keys.mpr hkey) (mark_of_isLoopLabel hlabel)⟩

namespace Miner

/-- The grammar of a run of which one call gave a tree can be mended. -/
theorem Run.mendable {mined : Miner} {config : MinerConfig} {events : List (Trace × Option ExecutionTree)} {t : Trace}
    (hrun : Run (new config none) events mined) (hroot : (t, some root) ∈ events) : Mendable mined.grammar := by
  obtain ⟨hcomplete, howned⟩ := hrun.complete
  exact ⟨hcomplete, howned, hrun.contains_startName hroot⟩

end Miner

end GrammarInference
