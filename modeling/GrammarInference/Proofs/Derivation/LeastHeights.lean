/-
GrammarInference/Proofs/Derivation/LeastHeights.lean

The cost of an alternative is the least height of the derivation trees that start with it.

Design.  The height of a tree is the number of nonterminals on a branch that has the most of them (`Tree.levels`).
A nonterminal ends within `k` levels exactly if it has a derivation tree of height `k` or less, by induction on the
levels in one direction and on what the tree is made of in the other.  A cost that keeps exactly the bounds that some
tree keeps is the least height of these trees.
-/
import GrammarInference.Proofs.Derivation.Depth
import GrammarInference.Proofs.Derivation.Improvement

namespace GrammarInference

/-! ### Heights of trees -/

namespace Tree

mutual

/-- The number of nonterminals on a branch that has the most of them. -/
def levels : Tree → Nat
  | .node (.terminal _) ts => levelsAll ts
  | .node (.nonterminal _) ts => levelsAll ts + 1

/-- The same for the highest tree of a list. -/
def levelsAll : List Tree → Nat
  | [] => 0
  | t :: ts => max t.levels (levelsAll ts)

end

theorem levels_le_levelsAll {t : Tree} {ts : List Tree} (h : t ∈ ts) : t.levels ≤ levelsAll ts := by
  induction ts with
  | nil => exact absurd h List.not_mem_nil
  | cons u ts ih =>
    rw [levelsAll]
    rcases List.mem_cons.mp h with rfl | h
    · exact Nat.le_max_left _ _
    · exact (ih h).trans (Nat.le_max_right _ _)

theorem IsBranch.countP_le {t : Tree} {path : List Symbol} (h : t.IsBranch path) :
    path.countP (fun s => !s.isTerminal) ≤ t.levels := by
  induction h with
  | @leaf s => cases s <;> exact Nat.le_refl _
  | @step s ts t path ht _ ih =>
    have hle := ih.trans (levels_le_levelsAll ht)
    cases s with
    | terminal text => rwa [List.countP_cons_of_neg Bool.false_ne_true, levels]
    | nonterminal n =>
      rw [List.countP_cons_of_pos rfl, levels]
      exact Nat.succ_le_succ hle

mutual

theorem exists_branch (t : Tree) : ∃ path, t.IsBranch path ∧ path.countP (fun s => !s.isTerminal) = t.levels := by
  match t with
  | .node s ts =>
    by_cases hts : ts = []
    · subst hts
      refine ⟨[s], .leaf, ?_⟩
      cases s <;> rfl
    · obtain ⟨t, ht, path, hpath, hcount⟩ := exists_branchAll ts hts
      refine ⟨s :: path, .step ht hpath, ?_⟩
      cases s with
      | terminal text => rwa [List.countP_cons_of_neg Bool.false_ne_true, levels]
      | nonterminal n => rw [List.countP_cons_of_pos rfl, levels, hcount]

theorem exists_branchAll (ts : List Tree) (h : ts ≠ []) :
    ∃ t ∈ ts, ∃ path, t.IsBranch path ∧ path.countP (fun s => !s.isTerminal) = levelsAll ts := by
  match ts with
  | [] => exact absurd rfl h
  | t :: ts =>
    obtain ⟨path, hpath, hcount⟩ := exists_branch t
    rw [levelsAll]
    rcases Nat.le_total (levelsAll ts) t.levels with hle | hle
    · exact ⟨t, List.mem_cons_self, path, hpath, by rw [hcount, Nat.max_eq_left hle]⟩
    · by_cases hts : ts = []
      · subst hts
        exact ⟨t, List.mem_cons_self, path, hpath, by rw [hcount]; exact (Nat.max_zero _).symm⟩
      · obtain ⟨u, hu, path, hpath, hcount⟩ := exists_branchAll ts hts
        exact ⟨u, List.mem_cons_of_mem t hu, path, hpath, by rw [hcount, Nat.max_eq_right hle]⟩

end

/-- The height is the number of nonterminals on a branch, and no branch has more. -/
theorem isGreatest_levels (t : Tree) :
    IsGreatest {k | ∃ path, t.IsBranch path ∧ path.countP (fun s => !s.isTerminal) = k} t.levels := by
  refine ⟨t.exists_branch, ?_⟩
  rintro k ⟨path, hpath, rfl⟩
  exact hpath.countP_le

end Tree

namespace Grammar

variable {g : Grammar} {n : String} {r : Rule} {k : Nat}

/-! ### Derivation trees within levels -/

/-- The heights of the derivation trees of `n` that start with the alternative `r`. -/
def ruleTreeHeights (g : Grammar) (n : String) (r : Rule) : Set Nat :=
  {k | ∃ t : Tree, t.isDerivation g = true ∧ t.symbol = .nonterminal n ∧ t.rule = r ∧ t.levels = k}

/-- The heights of the derivation trees of `n`. -/
def treeHeights (g : Grammar) (n : String) : Set Nat :=
  {k | ∃ t : Tree, t.isDerivation g = true ∧ t.symbol = .nonterminal n ∧ t.levels = k}

/-- There are derivation trees for the symbols of a rule if there is one for each. -/
theorem exists_trees_iff : (∃ ts, Tree.areDerivations g ts = true ∧ ts.map Tree.symbol = r ∧ Tree.levelsAll ts ≤ k) ↔
    ∀ x ∈ r, ∃ t : Tree, t.isDerivation g = true ∧ t.symbol = x ∧ t.levels ≤ k := by
  induction r with
  | nil => exact ⟨fun _ x hx => absurd hx List.not_mem_nil, fun _ => ⟨[], rfl, rfl, Nat.zero_le k⟩⟩
  | cons x r ih =>
    rw [List.forall_mem_cons, ← ih]
    constructor
    · rintro ⟨- | ⟨t, ts⟩, hder, hsyms, hlevels⟩
      · cases hsyms
      · obtain ⟨rfl, rfl⟩ := List.cons.inj hsyms
        obtain ⟨ht, hts⟩ := Tree.areDerivations_cons_iff.mp hder
        obtain ⟨hle, hleAll⟩ := Nat.max_le.mp hlevels
        exact ⟨⟨t, ht, rfl, hle⟩, ts, hts, rfl, hleAll⟩
    · rintro ⟨⟨t, ht, rfl, hle⟩, ts, hts, rfl, hleAll⟩
      exact ⟨t :: ts, Tree.areDerivations_cons_iff.mpr ⟨ht, hts⟩, rfl, Nat.max_le.mpr ⟨hle, hleAll⟩⟩

/-- A terminal is a tree of its own, so only the nonterminals of a rule matter. -/
theorem exists_tree_iff : (∀ x ∈ r, ∃ t : Tree, t.isDerivation g = true ∧ t.symbol = x ∧ t.levels ≤ k) ↔
    ∀ m, Symbol.nonterminal m ∈ r → ∃ a ∈ g.treeHeights m, a ≤ k := by
  constructor
  · intro h m hm
    obtain ⟨t, hder, hsym, hle⟩ := h _ hm
    exact ⟨t.levels, ⟨t, hder, hsym, rfl⟩, hle⟩
  · intro h x hx
    cases x with
    | terminal text => exact ⟨.node (.terminal text) [], Tree.isDerivation_terminal_iff.mpr rfl, rfl, Nat.zero_le k⟩
    | nonterminal m =>
      obtain ⟨a, ⟨t, hder, hsym, rfl⟩, hle⟩ := h m hx
      exact ⟨t, hder, hsym, hle⟩

/-- A tree that starts with an alternative has one level more than the trees of its nonterminals. -/
theorem exists_ruleTreeHeights_iff (hr : r ∈ g.alternatives n) : (∃ a ∈ g.ruleTreeHeights n r, a ≤ k + 1) ↔
    ∀ m, Symbol.nonterminal m ∈ r → ∃ a ∈ g.treeHeights m, a ≤ k := by
  rw [← exists_tree_iff, ← exists_trees_iff]
  constructor
  · rintro ⟨a, ⟨⟨s, ts⟩, hder, rfl, hrule, rfl⟩, hle⟩
    obtain ⟨-, hts⟩ := Tree.isDerivation_nonterminal_iff.mp hder
    exact ⟨ts, hts, hrule, Nat.le_of_succ_le_succ hle⟩
  · rintro ⟨ts, hts, rfl, hle⟩
    have hder := Tree.isDerivation_nonterminal_iff.mpr ⟨hr, hts⟩
    exact ⟨_, ⟨.node (.nonterminal n) ts, hder, rfl, rfl, rfl⟩, Nat.succ_le_succ hle⟩

theorem exists_treeHeights_iff : (∃ a ∈ g.treeHeights n, a ≤ k) ↔
    ∃ r ∈ g.alternatives n, ∃ a ∈ g.ruleTreeHeights n r, a ≤ k := by
  constructor
  · rintro ⟨a, ⟨⟨s, ts⟩, hder, rfl, hlevels⟩, hle⟩
    exact ⟨_, (Tree.isDerivation_nonterminal_iff.mp hder).1, a, ⟨_, hder, rfl, rfl, hlevels⟩, hle⟩
  · rintro ⟨r, -, a, ⟨t, hder, hsym, -, hlevels⟩, hle⟩
    exact ⟨a, ⟨t, hder, hsym, hlevels⟩, hle⟩

theorem pos_of_mem_treeHeights {a : Nat} (h : a ∈ g.treeHeights n) : 0 < a := by
  obtain ⟨⟨s, ts⟩, -, rfl, rfl⟩ := h
  exact Nat.succ_pos _

/-- A nonterminal ends within some levels exactly if it has a tree of that height. -/
theorem endsWithin_iff_treeHeights : EndsWithin g k n ↔ ∃ a ∈ g.treeHeights n, a ≤ k := by
  induction k generalizing n with
  | zero => exact ⟨False.elim, fun ⟨a, ha, hle⟩ => absurd (pos_of_mem_treeHeights ha) (Nat.not_lt_of_le hle)⟩
  | succ k ih =>
    rw [exists_treeHeights_iff, EndsWithin]
    refine exists_congr fun r => and_congr_right fun hr => ?_
    rw [exists_ruleTreeHeights_iff hr]
    exact forall₂_congr fun m _ => ih

/-- The height of an alternative keeps the bounds that its trees keep. -/
theorem atMost_heightOf_iff_treeHeights (hr : r ∈ g.alternatives n) :
    (Generator.heightOf g r).AtMost k ↔ ∃ a ∈ g.ruleTreeHeights n r, a ≤ k := by
  cases k with
  | zero =>
    refine ⟨fun h => absurd h not_atMost_ruleHeight_zero, fun ⟨a, ⟨t, hder, hsym, _, hlevels⟩, hle⟩ => ?_⟩
    exact absurd (pos_of_mem_treeHeights ⟨t, hder, hsym, hlevels⟩) (Nat.not_lt_of_le hle)
  | succ k =>
    rw [Generator.atMost_heightOf, exists_ruleTreeHeights_iff hr]
    exact forall₂_congr fun m _ => endsWithin_iff_treeHeights

/-! ### Rounds of simultaneous improvement -/

/-- The rounds end: one more changes nothing. -/
theorem improveHeights_heights (g : Grammar) : g.improveHeights g.heights = g.heights := by
  have hround : ∀ j, g.improveHeights (g.round j) = g.round (j + 1) :=
    fun j => (Function.iterate_succ_apply' _ _ _).symm
  obtain ⟨i, heq, hor⟩ := improveWithin_eq_round g (g.size + 1) 0
  have hheights : g.heights = g.round i := heq
  rw [hheights, hround]
  rcases hor with rfl | hsame
  · -- all levels were reached a round before
    obtain ⟨j, hj, hlevels⟩ := g.exists_levelsEnd
    have hknown : heightIn (g.round (g.size + 1)) = heightIn (g.round g.size) := by
      funext n
      refine Height.eq_of_atMost_iff fun k => ?_
      rw [heightIn_round_iff, heightIn_round_iff]
      refine ⟨fun h => ?_, fun h => h.mono (by omega)⟩
      rcases Nat.le_total k g.size with hk | hk
      · exact h.mono (by omega)
      · exact (hlevels.endsWithin h).mono (by omega)
    have hsame : g.improveHeights (g.round (g.size + 1)) = g.improveHeights (g.round g.size) := by
      rw [improveHeights, improveHeights, hknown]
    rw [Nat.zero_add, ← hround (g.size + 1), hsame, hround]
  · exact hsame

end Grammar

theorem Height.eq_none_iff {h : Height} : h = none ↔ ¬∃ k, h.AtMost k := by
  cases h with
  | none => simp
  | some a => exact ⟨nofun, fun hno => absurd ⟨a, a, rfl, Nat.le_refl a⟩ hno⟩

/-- A height that keeps the bounds that some element of a set keeps is the least element. -/
theorem Height.eq_some_iff_isLeast {h : Height} {s : Set Nat} (hs : ∀ k, h.AtMost k ↔ ∃ a ∈ s, a ≤ k) {c : Nat} :
    h = some c ↔ IsLeast s c := by
  constructor
  · rintro rfl
    obtain ⟨a, ha, hac⟩ := (hs c).mp ⟨c, rfl, Nat.le_refl c⟩
    have hlower : c ∈ lowerBounds s := fun b hb => Height.atMost_some.mp ((hs b).mpr ⟨b, hb, Nat.le_refl b⟩)
    obtain rfl := Nat.le_antisymm hac (hlower ha)
    exact ⟨ha, hlower⟩
  · rintro ⟨hc, hlower⟩
    obtain ⟨a, rfl, hac⟩ := (hs c).mpr ⟨c, hc, Nat.le_refl c⟩
    obtain ⟨b, hb, hba⟩ := (hs a).mp ⟨a, rfl, Nat.le_refl a⟩
    rw [Nat.le_antisymm hac ((hlower hb).trans hba)]

namespace Generator

open Grammar (ruleTreeHeights treeHeights)

/-- **Costs are least heights.**  Improving heights ends, in rounds and in sweeps through the grammar.  The cost of an
alternative is what the sweeps end with: the least height of the derivation trees that start with the alternative,
or nothing, exactly if it derives no string.  So the cost of a nonterminal is the least height of its derivation trees,
and there is none exactly if it is undefined or derives no string. -/
theorem costs_are_least_heights (g : Grammar) (maxDepth seed : Nat) :
    g.improveHeights g.heights = g.heights ∧
    (∃ costs, (∃ j, costs = g.sweep^[j] fun _ _ => none) ∧ g.sweep costs = costs ∧
      ∀ n i r, (g.alternatives n)[i]? = some r →
        ((new g maxDepth seed).options.get? n).bind (·[i]?) = some (r, costs n i) ∧
          (∀ c, costs n i = some c ↔ IsLeast (g.ruleTreeHeights n r) c) ∧
          (costs n i = none ↔ ¬∃ w, Grammar.Derives g r w)) ∧
    ∀ n, (∀ c, (new g maxDepth seed).cost n = some c ↔ IsLeast (g.treeHeights n) c) ∧
      ((new g maxDepth seed).cost n = none ↔ g.contains n = false ∨ ¬∃ w, Grammar.InLanguage g n w) := by
  have hgen := isFor_new g maxDepth seed
  refine ⟨g.improveHeights_heights, ?_, fun n => ⟨fun c => ?_, ?_⟩⟩
  · obtain ⟨j, hj⟩ := g.exists_sweep_eq fun _ _ => none
    refine ⟨_, ⟨j, rfl⟩, hj, fun n i r hr => ?_⟩
    have hcost : (g.sweep^[j] fun _ _ => none) n i = heightOf g r :=
      Grammar.eq_heightOf_of_not_improves (g.iterate_sweep_improves j _)
        (fun _ => Grammar.not_improves_of_sweep_eq hj) hr
    have hmem := List.mem_of_getElem? hr
    refine ⟨?_, fun c => ?_, ?_⟩
    · rw [hgen.options_of_contains (Grammar.contains_of_mem_alternatives hmem), Option.bind_some, List.getElem?_map, hr,
        hcost]
      rfl
    · rw [hcost]
      exact Height.eq_some_iff_isLeast fun k => Grammar.atMost_heightOf_iff_treeHeights hmem
    · rw [hcost, Option.eq_none_iff_forall_ne_some, ← exists_heightOf_iff]
      exact not_exists.symm
  · exact Height.eq_some_iff_isLeast fun k => hgen.atMost_cost_iff.trans Grammar.endsWithin_iff_treeHeights
  · rw [Height.eq_none_iff, exists_congr fun k => hgen.atMost_cost_iff, Grammar.exists_endsWithin_iff]
    refine ⟨.inr, fun h => h.elim (fun hn => ?_) id⟩
    rintro ⟨w, r, hr, -⟩
    rw [Grammar.contains_of_mem_alternatives hr] at hn
    cases hn

/-- A grammar with a loop, in which a longer alternative stands first and one never ends. -/
def detour : Grammar :=
  .ofList
    [(startName, [[.nonterminal "<a>", .nonterminal startName], [.nonterminal "<a>"]]),
     ("<a>", [[.terminal "x"], [.nonterminal "<b>"]]), ("<b>", [[.nonterminal "<b>"]])]

/-- In the grammar with a detour, trees that start with the first alternative have three levels at least and others
two, and nothing is derived by the alternative that never ends. -/
theorem costs_of_detour :
    (detour.alternatives startName)[0]? = some [.nonterminal "<a>", .nonterminal startName] ∧
      IsLeast (detour.ruleTreeHeights startName [.nonterminal "<a>", .nonterminal startName]) 3 ∧
      IsLeast (detour.treeHeights startName) 2 ∧ ¬∃ w, Grammar.Derives detour [.nonterminal "<b>"] w := by
  obtain ⟨-, ⟨costs, -, -, hcosts⟩, hcost⟩ := costs_are_least_heights detour 3 0
  have hfirst : (detour.alternatives startName)[0]? = some [.nonterminal "<a>", .nonterminal startName] := by decide
  have hendless : (detour.alternatives "<a>")[1]? = some [.nonterminal "<b>"] := by decide
  obtain ⟨hoption, hleast, -⟩ := hcosts startName 0 _ hfirst
  obtain ⟨hoption', -, hnone⟩ := hcosts "<a>" 1 _ hendless
  have hthree : ((new detour 3 0).options.get? startName).bind (·[0]?) =
      some ([.nonterminal "<a>", .nonterminal startName], some 3) := by decide +kernel
  have hnever : ((new detour 3 0).options.get? "<a>").bind (·[1]?) = some ([.nonterminal "<b>"], none) := by
    decide +kernel
  have htwo : (new detour 3 0).cost startName = some 2 := by decide +kernel
  rw [hthree, Option.some.injEq, Prod.mk.injEq] at hoption
  rw [hnever, Option.some.injEq, Prod.mk.injEq] at hoption'
  exact ⟨hfirst, (hleast 3).mp hoption.2.symm, ((hcost startName).1 2).mp htwo, hnone.mp hoption'.2.symm⟩

end Generator

end GrammarInference
