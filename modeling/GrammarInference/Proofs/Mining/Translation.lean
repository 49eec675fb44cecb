/-
GrammarInference/Proofs/Mining/Translation.lean

What trees add to a grammar under other names.

Design.  The labels of a tree are translated to the names that another label state gives, and what the tree adds
is translated with them: the parts of a loop are named after it, and the name of a loop is always that of a step.
Grammars to which the same was added up to such a translation, in whatever order, are the same up to the names
and the order (`Mines.sameUpTo`).
-/
import GrammarInference.Proofs.Execution.Relabel
import GrammarInference.Proofs.Grammar.Renaming
import GrammarInference.Proofs.Mining.Extraction

namespace GrammarInference

open Grammar LabelState ExecutionTree

/-! ### Additions under other names -/

/-- Applies a function to all names of an addition. -/
def relabelAddition (f : String → String) (a : Addition) : Addition :=
  (f a.1, a.2.map fun r => r.map (Symbol.mapName f))

/-- All names of an addition belong to the set. -/
structure AdditionIn (K : Set String) (a : Addition) : Prop where
  /-- The name that is defined belongs to it. -/
  name : a.1 ∈ K
  /-- The names that are mentioned belong to it. -/
  mentioned : ∀ r ∈ a.2, ∀ n, Symbol.nonterminal n ∈ r → n ∈ K

section Translation

variable {s s' : LabelState} {f : String → String} {K : Set String} {t root : ExecutionTree} {ts : List ExecutionTree}
  {n : String}

theorem map_labelRule (f : String → String) (ts : List ExecutionTree) :
    (labelRule ts).map (Symbol.mapName f) = labelRule (ts.map (relabel f)) := by
  rw [labelRule, labelRule, List.map_map, List.map_map]
  refine List.map_congr_left fun t _ => ?_
  rw [Function.comp_apply, Function.comp_apply, label_relabel]
  rfl

theorem map_bucketRules (f : String → String) (values : List Nat) :
    (bucketRules values).map (fun r => r.map (Symbol.mapName f)) = bucketRules values := by
  rw [bucketRules]
  split
  · rfl
  · rw [List.map_map]
    rfl

/-- The name of a loop is that of a step, and its parts are translated like it. -/
theorem translation_parts (hn : n ∈ commonNames s s') (hmark : mark n = some 'L') :
    (translation s s' (continueName n) = continueName (translation s s' n) ∧
      translation s s' (exitName n) = exitName (translation s s' n)) ∧
    continueName n ∈ commonNames s s' ∧ exitName n ∈ commonNames s s' := by
  obtain ⟨q, hq, hq', rfl⟩ := hn
  have hmarks : q.mark = 'L' := Option.some.inj ((q.mark_name s).symm.trans hmark)
  cases q with
  | start | bucket _ | continued _ | exited _ => cases hmarks
  | step o =>
    rw [Origin.translation_name hq hq']
    exact ⟨⟨Origin.translation_name (q := .continued o) hq hq', Origin.translation_name (q := .exited o) hq hq'⟩,
      Origin.name_mem_commonNames (q := .continued o) hq hq', Origin.name_mem_commonNames (q := .exited o) hq hq'⟩

/-- What a node adds under the other names. -/
theorem additions_translation (ht : Marked t) (hlabels : LabelsIn (commonNames s s') t) :
    additions (t.relabel (translation s s')) = (additions t).map (relabelAddition (translation s s')) := by
  obtain ⟨n, kind, ts⟩ := t
  rw [relabel_node]
  cases kind with
  | call =>
    rw [additions, additions, List.map_singleton, relabelAddition, Option.map_some, map_labelRule]
  | iteration => rfl
  | bucket values =>
    rw [additions, additions, List.map_cons, List.map_map, ← map_bucketRules (translation s s') values, List.map_map,
      map_bucketRules]
    rfl
  | loop =>
    have hn : n ∈ commonNames s s' := hlabels.label
    obtain ⟨⟨hcontinue, hexit⟩, -⟩ := translation_parts hn ht
    have hbody : ∀ t : ExecutionTree, labelRule (t.relabel (translation s s')).children =
        (labelRule t.children).map (Symbol.mapName (translation s s')) := by
      intro t
      rw [children_relabel, map_labelRule]
    simp only [additions, List.map_append, List.map_map, List.map_cons, List.map_nil, List.map_dropLast,
      List.getLast?_map, Option.toList_map, Function.comp_def, relabelAddition, Option.map_some, Option.map_none,
      hbody, loopRules, Symbol.mapName, hcontinue, hexit]

/-- The names in what a node adds are common names if the labels are. -/
theorem additionIn_of_mem_additions (ht : Marked t) (hlabels : LabelsIn (commonNames s s') t) :
    ∀ a ∈ additions t, AdditionIn (commonNames s s') a := by
  have hparts : t.kind = .loop → continueName t.label ∈ commonNames s s' ∧ exitName t.label ∈ commonNames s s' := by
    intro hkind
    exact (translation_parts hlabels.label (by rw [ht, hkind]; rfl)).2
  have hmentioned : ∀ c ∈ mentioned t, c.label ∈ commonNames s s' := by
    obtain ⟨l, kind, ts⟩ := t
    cases kind with
    | call => exact fun c hc => (hlabels.children c hc).label
    | loop =>
      intro c hc
      obtain ⟨u, hu, hc⟩ := List.mem_flatMap.mp hc
      exact ((hlabels.children u hu).children c hc).label
    | iteration | bucket values => exact fun c hc => absurd hc List.not_mem_nil
  rintro ⟨m, r?⟩ ha
  constructor
  · rcases fst_of_mem_additions ha with hlabel | ⟨hkind, hpart⟩
    · exact hlabel ▸ hlabels.label
    · rcases hpart with hpart | hpart
      · exact hpart ▸ (hparts hkind).1
      · exact hpart ▸ (hparts hkind).2
  · rintro r ⟨⟩ n hn
    rcases mentioned_of_mem_additions ha hn with ⟨c, hc, rfl⟩ | ⟨hkind, rfl, rfl | rfl | rfl⟩
    · exact hmentioned c hc
    · exact (hparts hkind).1
    · exact hlabels.label
    · exact (hparts hkind).2

theorem labelsIn_of_mem_levels {u : ExecutionTree} (h : LabelsIn K t) (hu : u ∈ t.levels) : LabelsIn K u :=
  forall_mem_breadthFirst (fun _ hv _ hc => hv.children _ hc) (List.forall_mem_singleton.mpr h) u hu

/-- What a tree adds under the other names. -/
theorem treeAdditions_translation (hroot : ∀ u ∈ root.levels, Marked u) (hlabels : LabelsIn (commonNames s s') root) :
    treeAdditions (root.relabel (translation s s')) =
      (treeAdditions root).map (relabelAddition (translation s s')) ∧
    ∀ a ∈ treeAdditions root, AdditionIn (commonNames s s') a := by
  have hstart : translation s s' startName = startName :=
    Origin.translation_name (q := .start) trivial trivial
  constructor
  · rw [treeAdditions, treeAdditions, List.map_cons, levels_relabel, List.flatMap_map, List.map_flatMap,
      label_relabel, relabelAddition, hstart]
    refine congrArg _ (List.flatMap_congr fun u hu => ?_)
    exact additions_translation (hroot u hu) (labelsIn_of_mem_levels hlabels hu)
  · refine List.forall_mem_cons.mpr ⟨⟨?_, fun r hr x hx => ?_⟩, fun a ha => ?_⟩
    · exact Origin.name_mem_commonNames (q := .start) trivial trivial
    · cases hr
      cases List.mem_singleton.mp hx
      exact hlabels.label
    · obtain ⟨u, hu, ha⟩ := List.mem_flatMap.mp ha
      exact additionIn_of_mem_additions (hroot u hu) (labelsIn_of_mem_levels hlabels hu) a ha

end Translation

/-! ### Grammars under other names -/

section Grammars

variable {g g' : Grammar} {c c' : List Addition} {f : String → String} {K : Set String}

theorem Mines.mem_of_contains (h : Mines ∅ c g) (hK : ∀ a ∈ c, AdditionIn K a) {n : String}
    (hn : g.contains n = true) : n ∈ K := by
  obtain ⟨a, ha, rfl⟩ := List.mem_map.mp ((h.contains_iff n).mp hn)
  exact (hK a ha).name

theorem Mines.mem_of_mentioned (h : Mines ∅ c g) (hK : ∀ a ∈ c, AdditionIn K a) {n x : String} {r : Rule}
    (hr : r ∈ g.alternatives n) (hx : Symbol.nonterminal x ∈ r) : x ∈ K :=
  (hK _ ((h.mem_alternatives_iff n r).mp hr)).mentioned r rfl x hx

/-- The nonterminals are the same up to the names. -/
theorem Mines.keys_perm (h : Mines ∅ c g) (h' : Mines ∅ c' g') (hK : ∀ a ∈ c, AdditionIn K a) (hf : Set.InjOn f K)
    (hc : ∀ a', a' ∈ c' ↔ ∃ a ∈ c, relabelAddition f a = a') : (g.keys.map f).Perm g'.keys := by
  have hdefined : ∀ {n}, n ∈ g.keys ↔ n ∈ c.map Prod.fst := fun {n} =>
    OrderedMap.contains_iff_mem_keys.symm.trans (h.contains_iff n)
  have hdefined' : ∀ {n}, n ∈ g'.keys ↔ n ∈ c'.map Prod.fst := fun {n} =>
    OrderedMap.contains_iff_mem_keys.symm.trans (h'.contains_iff n)
  have hnodup : (g.keys.map f).Nodup := g.nodup_keys.map_on fun n hn m hm hnm =>
    hf (h.mem_of_contains hK (OrderedMap.contains_iff_mem_keys.mpr hn))
      (h.mem_of_contains hK (OrderedMap.contains_iff_mem_keys.mpr hm)) hnm
  -- neither list has a name twice, so it is enough that they have the same names
  refine (List.perm_ext_iff_of_nodup hnodup g'.nodup_keys).mpr fun n' => ?_
  refine Iff.trans ?_ hdefined'.symm
  rw [List.mem_map, List.mem_map]
  constructor
  · rintro ⟨n, hn, rfl⟩
    obtain ⟨a, ha, rfl⟩ := List.mem_map.mp (hdefined.mp hn)
    exact ⟨relabelAddition f a, (hc _).mpr ⟨a, ha, rfl⟩, rfl⟩
  · rintro ⟨a', ha', rfl⟩
    obtain ⟨a, ha, rfl⟩ := (hc a').mp ha'
    exact ⟨a.1, hdefined.mpr (List.mem_map_of_mem ha), rfl⟩

/-- The alternatives of a nonterminal are the same up to the names. -/
theorem Mines.alternatives_perm (h : Mines ∅ c g) (h' : Mines ∅ c' g') (hK : ∀ a ∈ c, AdditionIn K a)
    (hf : Set.InjOn f K) (hc : ∀ a', a' ∈ c' ↔ ∃ a ∈ c, relabelAddition f a = a') {n : String}
    (hn : g.contains n = true) :
    ((g.alternatives n).map fun r => r.map (Symbol.mapName f)).Perm (g'.alternatives (f n)) := by
  have hnodup : ((g.alternatives n).map fun r => r.map (Symbol.mapName f)).Nodup :=
    (h.nodup_alternatives n).map_on fun r hr r' hr' hrr' =>
      map_mapName_inj hf (fun _ => h.mem_of_mentioned hK hr) (fun _ => h.mem_of_mentioned hK hr') hrr'
  refine (List.perm_ext_iff_of_nodup hnodup (h'.nodup_alternatives _)).mpr fun r' => ?_
  rw [h'.mem_alternatives_iff, hc, List.mem_map]
  constructor
  · rintro ⟨r, hr, rfl⟩
    exact ⟨(n, some r), (h.mem_alternatives_iff n r).mp hr, rfl⟩
  · rintro ⟨⟨n₀, - | r⟩, ha, heq⟩
    · cases (Prod.mk.inj heq).2
    · obtain ⟨hname, hrule⟩ := Prod.mk.inj heq
      obtain rfl : n₀ = n := hf (hK _ ha).name (h.mem_of_contains hK hn) hname
      exact ⟨r, (h.mem_alternatives_iff n₀ r).mpr ha, Option.some.inj hrule⟩

/-- Grammars to which the same was added, under other names and in any order, are the same up to the names and the
order. -/
theorem Mines.sameUpTo (h : Mines ∅ c g) (h' : Mines ∅ c' g') (hK : ∀ a ∈ c, AdditionIn K a) (hf : Set.InjOn f K)
    (hstart : f startName = startName) (hc : ∀ a', a' ∈ c' ↔ ∃ a ∈ c, relabelAddition f a = a') :
    SameUpTo f g g' := by
  refine ⟨hf.mono ?_, hstart, h.keys_perm h' hK hf hc, fun n hn => h.alternatives_perm h' hK hf hc hn⟩
  rintro n (hn | ⟨m, hm⟩)
  · exact h.mem_of_contains hK hn
  · obtain ⟨r, hr, hn⟩ := mem_mentions_iff.mp hm
    exact h.mem_of_mentioned hK hr hn

end Grammars

end GrammarInference
