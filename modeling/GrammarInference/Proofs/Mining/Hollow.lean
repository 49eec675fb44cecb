/-
GrammarInference/Proofs/Mining/Hollow.lean

Which nonterminals have no alternatives after loops were mended.

Design.  A node adds an alternative to every name that it defines, except that a loop with a single iteration defines
its continue part and adds nothing to it.  So the hollow nonterminals of a mined grammar are the continue parts of
loops that were never continued in any of the trees (`MinedFrom.alternatives_eq_nil_iff`).  Mending finds the loops
again by their labels.  It visits each label once, and what it does to one loop is not seen by another one, so it
bypasses at once all recognized loops whose continue part is hollow in the mined grammar (`fixLoops_eq_bypass`).  A
label is recognized unless the name of its function is empty or has a line break in it (`isLoopLabel_label_iff`), and
the hollow continue parts of the other loops are the only ones that are left.
-/
import GrammarInference.Proofs.Mining.Complete

namespace GrammarInference

open Grammar ExecutionTree

/-! ### Labels that are recognized -/

/-- The digits of a number are split off where they end. -/
theorem splitDigits?_number (k : Nat) {d : Char} (hd : isDecimalDigit d = false) (rest : List Char) :
    splitDigits? ((toString k).toList.reverse ++ d :: rest) = some (d :: rest) := by
  have hdigits : ∀ a ∈ (toString k).toList.reverse, isDecimalDigit a = true := fun a ha =>
    isDecimalDigit_of_mem_toString (List.mem_reverse.mp ha)
  have hspan : ((toString k).toList.reverse ++ d :: rest).span isDecimalDigit =
      ((toString k).toList.reverse, d :: rest) := by
    have hneg : ¬isDecimalDigit d = true := by rw [hd]; decide
    rw [List.span_eq_takeWhile_dropWhile, List.takeWhile_append_of_pos hdigits, List.takeWhile_cons_of_neg hneg,
      List.dropWhile_append_of_pos hdigits, List.dropWhile_cons_of_neg hneg, List.append_nil]
  rw [splitDigits?, hspan]
  rcases hk : (toString k).toList.reverse with - | ⟨a, l⟩
  · exact absurd (List.reverse_eq_nil_iff.mp hk) (toList_toString_ne_nil k)
  · rfl

/-- The label of a loop is recognized unless the name of its function is empty or has a line break in it. -/
theorem isLoopLabel_label_iff (f : String) (c i : Nat) :
    isLoopLabel (PathElement.loop f c i).label = true ↔ f ≠ "" ∧ '\n' ∉ f.toList := by
  have hreverse : (PathElement.loop f c i).label.toList.reverse = '>' :: ((toString i).toList.reverse ++
      'L' :: '_' :: ((toString c).toList.reverse ++ '@' :: (f.toList.reverse ++ ['<']))) := by
    simp [PathElement.label, PathElement.loopText, PathElement.callText]
  rw [isLoopLabel, hreverse]
  simp only [splitDigits?_number i (d := 'L') (by rfl), splitDigits?_number c (d := '@') (by rfl),
    List.reverse_append, List.reverse_reverse, List.reverse_singleton, List.singleton_append]
  rcases hf : f.toList with - | ⟨a, name⟩
  · rw [String.toList_eq_nil_iff] at hf
    exact iff_of_false (by simp) fun h => h.1 hf
  · have hne : f ≠ "" := by
      rintro rfl
      cases hf
    simp [hne]

/-! ### Mending all loops at once -/

section Bypass

variable {g g' : Grammar} {n m : String} {ns : List String}

/-- The continue part of the loop has no alternatives. -/
def isHollow (g : Grammar) (n : String) : Bool := decide (g.get? (continueName n) = some [])

/-- The recognized loops whose continue part has no alternatives. -/
def hollowLoops (g : Grammar) : List String := (g.keys.filter isLoopLabel).filter (isHollow g)

theorem fixNext_eq (g : Grammar) (collapsed : List String) (n : String) : fixNext (g, collapsed) n =
    if isHollow g n then (bypass g n, collapsed ++ [n]) else (g, collapsed) := by
  rw [fixNext, fixLoop, isHollow]
  by_cases h : g.get? (continueName n) = some [] <;> simp [h, bypass]

/-- Bypassing one loop leaves the continue part of another one as it is. -/
theorem isHollow_bypass (hn : isLoopLabel n = true) (hm : isLoopLabel m = true) (hne : n ≠ m) :
    isHollow (bypass g n) m = isHollow g m := by
  have hparts : continueName n ≠ continueName m := fun h =>
    hne (continueName_inj (exists_toList_of_isLoopLabel hn) (exists_toList_of_isLoopLabel hm) h)
  have hname : n ≠ continueName m := fun h => continueName_ne_of_mark (mark_of_isLoopLabel hn) h.symm
  rw [isHollow, bypass, OrderedMap.get?_insert, if_neg hname, OrderedMap.get?_erase, if_neg hparts]
  rfl

theorem foldl_fixNext_eq (hnodup : ns.Nodup) (hns : ∀ n ∈ ns, isLoopLabel n = true) (g : Grammar)
    (collapsed : List String) : ns.foldl fixNext (g, collapsed) =
      ((ns.filter (isHollow g)).foldl bypass g, collapsed ++ ns.filter (isHollow g)) := by
  induction ns generalizing g collapsed with
  | nil => rw [List.filter_nil, List.append_nil]; rfl
  | cons n ns ih =>
    obtain ⟨hnew, hnodup⟩ := List.nodup_cons.mp hnodup
    obtain ⟨hn, hns⟩ := List.forall_mem_cons.mp hns
    rw [List.foldl_cons, fixNext_eq]
    by_cases h : isHollow g n = true
    · have hfilter : ns.filter (isHollow (bypass g n)) = ns.filter (isHollow g) :=
        List.filter_congr fun m hm => isHollow_bypass hn (hns m hm) fun heq => hnew (heq ▸ hm)
      rw [if_pos h, ih hnodup hns, hfilter, List.filter_cons_of_pos h, List.foldl_cons, List.append_assoc]
      rfl
    · rw [if_neg h, ih hnodup hns, List.filter_cons_of_neg h]

/-- Mending bypasses the recognized loops whose continue part is hollow, and lists them. -/
theorem fixLoops_eq_bypass (g : Grammar) : fixLoops g = ((hollowLoops g).foldl bypass g, hollowLoops g) := by
  have hnodup : (g.keys.filter isLoopLabel).Nodup := g.nodup_keys.filter _
  rw [fixLoops_eq, foldl_fixNext_eq hnodup fun n hn => (List.mem_filter.mp hn).2]
  rfl

/-- In `g'` some loops of `g` are bypassed: they are their exit parts, and their continue parts are not defined. -/
structure Bypassed (ns : List String) (g g' : Grammar) : Prop where
  /-- A bypassed loop is its exit part. -/
  loops : ∀ n ∈ ns, g'.get? n = some [[.nonterminal (exitName n)]]
  /-- It has no continue part. -/
  parts : ∀ n ∈ ns, g'.get? (continueName n) = none
  /-- Everything else stays as it is. -/
  others : ∀ m, m ∉ ns → (∀ n ∈ ns, continueName n ≠ m) → g'.get? m = g.get? m

theorem bypassed_foldl (hns : ∀ n ∈ ns, mark n = some 'L') (g : Grammar) : Bypassed ns g (ns.foldl bypass g) := by
  induction ns generalizing g with
  | nil => exact ⟨nofun, nofun, fun m _ _ => rfl⟩
  | cons n ns ih =>
    obtain ⟨hn, hns⟩ := List.forall_mem_cons.mp hns
    have hrest := ih hns (bypass g n)
    rw [List.foldl_cons]
    refine ⟨List.forall_mem_cons.mpr ⟨?_, hrest.loops⟩, List.forall_mem_cons.mpr ⟨?_, hrest.parts⟩,
      fun m hm hparts => ?_⟩
    · by_cases hmem : n ∈ ns
      · exact hrest.loops n hmem
      · rw [hrest.others n hmem fun k _ => continueName_ne_of_mark hn, bypass, OrderedMap.get?_insert, if_pos rfl]
    · by_cases hmem : ∃ k ∈ ns, continueName k = continueName n
      · obtain ⟨k, hk, heq⟩ := hmem
        rw [← heq]
        exact hrest.parts k hk
      · have hname : continueName n ∉ ns := fun h => continueName_ne_of_mark (hns _ h) rfl
        rw [hrest.others _ hname fun k hk heq => hmem ⟨k, hk, heq⟩, bypass, OrderedMap.get?_insert,
          if_neg (continueName_ne_of_mark hn).symm, OrderedMap.get?_erase, if_pos rfl]
    · obtain ⟨hne, hm⟩ := not_or.mp (List.mem_cons.not.mp hm)
      obtain ⟨hpart, hparts⟩ := List.forall_mem_cons.mp hparts
      rw [hrest.others m hm hparts, bypass, OrderedMap.get?_insert, if_neg (Ne.symm hne), OrderedMap.get?_erase,
        if_neg hpart]

theorem bypassed_fixLoops (g : Grammar) : Bypassed (fixLoops g).2 g (fixLoops g).1 := by
  rw [fixLoops_eq_bypass]
  refine bypassed_foldl (fun n hn => ?_) g
  exact mark_of_isLoopLabel (List.mem_filter.mp (List.mem_filter.mp hn).1).2

theorem mem_collapsed_iff : n ∈ (fixLoops g).2 ↔
    g.contains n = true ∧ isLoopLabel n = true ∧ g.get? (continueName n) = some [] := by
  rw [fixLoops_eq_bypass, hollowLoops, List.mem_filter, List.mem_filter, ← OrderedMap.contains_iff_mem_keys, isHollow,
    decide_eq_true_eq, and_assoc]

theorem nodup_fixLoops (g : Grammar) : (fixLoops g).2.Nodup := by
  rw [fixLoops_eq_bypass]
  exact (g.nodup_keys.filter _).filter _

/-- What is defined after loops were bypassed: a bypassed loop, or what is no part of one. -/
theorem Bypassed.cases_of_contains (h : Bypassed ns g g') (hm : g'.contains m = true) :
    m ∈ ns ∧ g'.alternatives m = [[.nonterminal (exitName m)]] ∨
      m ∉ ns ∧ (∀ n ∈ ns, continueName n ≠ m) ∧ g'.get? m = g.get? m := by
  by_cases hmem : m ∈ ns
  · exact .inl ⟨hmem, by rw [alternatives, h.loops m hmem]; rfl⟩
  · have hparts : ∀ n ∈ ns, continueName n ≠ m := by
      rintro n hn rfl
      rw [OrderedMap.contains, h.parts n hn] at hm
      cases hm
    exact .inr ⟨hmem, hparts, h.others m hmem hparts⟩

/-- What is no continue part of a bypassed loop stays defined. -/
theorem Bypassed.contains_of_contains (h : Bypassed ns g g') (hm : g.contains m = true)
    (hparts : ∀ n ∈ ns, continueName n ≠ m) : g'.contains m = true := by
  rw [OrderedMap.contains]
  by_cases hmem : m ∈ ns
  · rw [h.loops m hmem]
    rfl
  · rw [h.others m hmem hparts]
    exact hm

/-- Bypassing adds no alternatives. -/
theorem Bypassed.grows (h : Bypassed ns g g') (hns : ∀ n ∈ ns, g.get? n = some (loopRules n)) : Grows g' g := by
  intro m r hr
  rcases h.cases_of_contains (contains_of_mem_alternatives hr) with ⟨hmem, heq⟩ | ⟨-, -, heq⟩
  · rw [heq] at hr
    rw [alternatives, hns m hmem]
    exact List.mem_cons_of_mem _ hr
  · rwa [alternatives, heq] at hr

end Bypass

/-! ### Hollow nonterminals of mined grammars -/

/-- The tree was built from an ordered trace of functions with `P`. -/
def IsBuilt (P : String → Prop) (root : ExecutionTree) : Prop :=
  ∃ (o : OrderedTrace) (s : LabelState) (mode : ContextMode) (keepNull : Bool),
    (∀ p ∈ o.positions, ∀ f ∈ p.context, P f.callee) ∧ (build o s mode keepNull).1 = some root

/-- The trees are extracted one after the other, and none of them fails. -/
inductive Extracts : Grammar → List ExecutionTree → Grammar → Prop
  | nil {g : Grammar} : Extracts g [] g
  | cons {g g₁ g' : Grammar} {root : ExecutionTree} {roots : List ExecutionTree} :
      extractInto .bytes g root = (g₁, .ok ()) → Extracts g₁ roots g' → Extracts g (root :: roots) g'

/-- The node is a loop of one of the trees. -/
def LoopIn (roots : List ExecutionTree) (t : ExecutionTree) : Prop := t.kind = .loop ∧ ∃ root ∈ roots, t ∈ root.levels

/-- The trees have a loop of that name, and it has a single iteration wherever it occurs. -/
structure NeverContinued (roots : List ExecutionTree) (n : String) : Prop where
  /-- There is such a loop. -/
  occurs : ∃ t, LoopIn roots t ∧ t.label = n
  /-- All of them have a single iteration. -/
  single : ∀ t, LoopIn roots t → t.label = n → t.children.length = 1

/-- The grammar has what some trees add, and nothing else; the trees were built from functions with `P`. -/
structure MinedFrom (P : String → Prop) (roots : List ExecutionTree) (g : Grammar) : Prop where
  /-- It has what they add. -/
  mines : Mines ∅ (roots.flatMap treeAdditions) g
  /-- They were built. -/
  grown : ∀ root ∈ roots, root.Grown P ∧ root.kind ≠ .iteration

section Hollow

variable {P : String → Prop} {roots : List ExecutionTree} {g : Grammar} {t : ExecutionTree} {n m : String} {r : Rule}

/-- A node adds an alternative to every name that it defines, except to the continue part of a loop. -/
theorem some_or_continueName_of_mem_additions (ht : t.kind = .loop → t.children ≠ []) (ha : (m, none) ∈ additions t) :
    (∃ r, (m, some r) ∈ additions t) ∨ t.kind = .loop ∧ m = continueName t.label := by
  obtain ⟨n, kind, ts⟩ := t
  cases kind with
  | call => cases List.mem_singleton.mp ha
  | iteration => exact absurd ha List.not_mem_nil
  | bucket values =>
    -- a bucket has an alternative, if only the empty one
    obtain ⟨b, hb⟩ : ∃ b, b ∈ bucketRules values := by
      rw [bucketRules]
      cases values with
      | nil => exact ⟨[], List.mem_singleton_self _⟩
      | cons v values => exact ⟨byteRule v, List.mem_cons_self⟩
    rcases List.mem_cons.mp ha with heq | ha
    · cases heq
      exact .inl ⟨b, List.mem_cons_of_mem _ (List.mem_map_of_mem hb)⟩
    · obtain ⟨c, -, heq⟩ := List.mem_map.mp ha
      cases heq
  | loop =>
    rw [additions] at ha
    simp only [List.mem_append, List.mem_cons, List.mem_map, Prod.mk.injEq, reduceCtorEq, and_false, exists_false,
      List.not_mem_nil, or_false, false_or, and_true] at ha
    rcases ha with rfl | rfl
    · exact .inr ⟨rfl, rfl⟩
    · -- the body of the last iteration is an alternative of the exit part
      have hne : ts ≠ [] := ht rfl
      refine .inl ⟨labelRule (ts.getLast hne).children, ?_⟩
      rw [additions, List.getLast?_eq_some_getLast hne]
      exact List.mem_append_right _ (List.mem_singleton_self _)

theorem Extracts.mines {g' : Grammar} (h : Extracts g roots g') (hg : Looped g)
    (hmarked : ∀ root ∈ roots, ∀ t ∈ root.levels, Marked t) : Mines g (roots.flatMap treeAdditions) g' := by
  induction h with
  | nil => exact .refl _
  | cons hextract _ ih =>
    obtain ⟨hroot, hroots⟩ := List.forall_mem_cons.mp hmarked
    have hfirst := extractInto_spec hg hroot hextract
    rw [List.flatMap_cons]
    exact hfirst.trans (ih (hfirst.looped hg) hroots)

theorem Extracts.minedFrom (h : Extracts ∅ roots g) (hbuilt : ∀ root ∈ roots, IsBuilt P root) :
    MinedFrom P roots g := by
  have hgrown : ∀ root ∈ roots, root.Grown P ∧ root.kind ≠ .iteration := by
    intro root hroot
    obtain ⟨o, s, mode, keepNull, hP, hbuild⟩ := hbuilt root hroot
    exact build_grown hP hbuild
  refine ⟨h.mines looped_empty fun root hroot t ht => ?_, hgrown⟩
  exact ((hgrown root hroot).1.of_mem_levels ht).marked

namespace MinedFrom

theorem looped (h : MinedFrom P roots g) : Looped g := h.mines.looped looped_empty

/-- A loop of the trees has the label of one, and an iteration. -/
theorem loop_of_loopIn (h : MinedFrom P roots g) (ht : LoopIn roots t) :
    ∃ f c i, P f ∧ t.label = (PathElement.loop f c i).label ∧ t.children ≠ [] := by
  obtain ⟨hkind, root, hroot, hmem⟩ := ht
  have hgrown := (h.grown root hroot).1.of_mem_levels hmem
  cases hgrown with
  | bucket k values => cases hkind
  | @step e ts hf _ _ hne _ =>
    cases e with
    | call f c => cases hkind
    | iteration f c i k => cases hkind
    | loop f c i => exact ⟨f, c, i, hf, rfl, hne⟩

theorem exists_toList_of_loopIn (h : MinedFrom P roots g) (ht : LoopIn roots t) : ∃ u, t.label.toList = u ++ ['>'] := by
  obtain ⟨f, c, i, -, heq, -⟩ := h.loop_of_loopIn ht
  rw [heq]
  exact (PathElement.loop f c i).exists_toList_label

/-- A loop of the trees and its parts are defined. -/
theorem contains_of_loopIn (h : MinedFrom P roots g) (ht : LoopIn roots t) :
    g.contains t.label = true ∧ g.contains (continueName t.label) = true := by
  obtain ⟨hkind, root, hroot, hmem⟩ := ht
  have hadded : ∀ m ∈ (additions t).map Prod.fst, g.contains m = true := by
    intro m hm
    obtain ⟨a, ha, rfl⟩ := List.mem_map.mp hm
    refine (h.mines.contains_iff a.1).mpr (List.mem_map_of_mem (List.mem_flatMap.mpr ⟨root, hroot, ?_⟩))
    exact List.mem_cons_of_mem _ (List.mem_flatMap.mpr ⟨t, hmem, ha⟩)
  exact ⟨hadded _ (label_mem_additions (by rw [hkind]; nofun)), hadded _ (parts_mem_additions hkind).1⟩

/-- The alternatives of a continue part are the bodies of all iterations but the last ones. -/
theorem mem_alternatives_continueName_iff (h : MinedFrom P roots g) (hn : ∃ u, n.toList = u ++ ['>']) :
    r ∈ g.alternatives (continueName n) ↔
      ∃ t, LoopIn roots t ∧ t.label = n ∧ ∃ u ∈ t.children.dropLast, r = labelRule u.children := by
  rw [h.mines.mem_alternatives_iff, List.mem_flatMap]
  constructor
  · rintro ⟨root, hroot, ha⟩
    rcases List.mem_cons.mp ha with heq | ha
    · exact absurd (Prod.mk.inj heq).1 (continueName_ne_startName n)
    · obtain ⟨t, ht, ha⟩ := List.mem_flatMap.mp ha
      have hgrown := (h.grown root hroot).1.of_mem_levels ht
      -- neither a label nor an exit part is the continue part of a loop
      have hlabel : t.label ≠ continueName n := by
        intro heq
        have hmark : some t.kind.mark = some 't' := by rw [← hgrown.marked, heq, mark_continueName]
        revert hmark
        cases t.kind <;> simp [NodeKind.mark]
      have hloop : t.kind = .loop := by
        rcases fst_of_mem_additions ha with heq | ⟨hloop, -⟩
        · exact absurd heq.symm hlabel
        · exact hloop
      have hin : LoopIn roots t := ⟨hloop, root, hroot, ht⟩
      have htail := h.exists_toList_of_loopIn hin
      obtain ⟨k, kind, ts⟩ := t
      cases hloop
      rw [additions] at ha
      simp only [List.mem_append, List.mem_cons, List.mem_map, Prod.mk.injEq, Option.some.injEq, reduceCtorEq,
        and_false, List.not_mem_nil, or_false] at ha
      rcases ha with (⟨b, -, heq, -⟩ | ⟨u, hu, heq, hr⟩) | ⟨u, -, heq, -⟩
      · exact absurd heq hlabel
      · exact ⟨_, hin, (continueName_inj hn htail heq.symm).symm, u, hu, hr.symm⟩
      · exact absurd heq.symm (continueName_ne_exitName n k)
  · rintro ⟨⟨k, kind, ts⟩, ⟨hkind, root, hroot, hmem⟩, rfl, u, hu, rfl⟩
    cases hkind
    refine ⟨root, hroot, List.mem_cons_of_mem _ (List.mem_flatMap.mpr ⟨_, hmem, ?_⟩)⟩
    have hbody : (continueName k, some (labelRule u.children)) ∈
        ts.dropLast.map fun t => (continueName k, some (labelRule t.children)) := List.mem_map_of_mem hu
    rw [additions]
    exact List.mem_append_left _ (List.mem_append_right _ hbody)

/-- Everything that is defined has an alternative, except perhaps the continue part of a loop. -/
theorem alternatives_ne_nil_or (h : MinedFrom P roots g) (hm : g.contains m = true) :
    g.alternatives m ≠ [] ∨ ∃ t, LoopIn roots t ∧ m = continueName t.label := by
  obtain ⟨⟨k, r?⟩, ha, rfl⟩ := List.mem_map.mp ((h.mines.contains_iff m).mp hm)
  have hsome : ∀ r, (k, some r) ∈ roots.flatMap treeAdditions → g.alternatives k ≠ [] := fun r hr =>
    List.ne_nil_of_mem ((h.mines.mem_alternatives_iff k r).mpr hr)
  cases r? with
  | some r => exact .inl (hsome r ha)
  | none =>
    obtain ⟨root, hroot, ha⟩ := List.mem_flatMap.mp ha
    obtain ⟨t, ht, ha⟩ := List.mem_flatMap.mp ((List.mem_cons.mp ha).resolve_left nofun)
    have hchildren : t.kind = .loop → t.children ≠ [] := fun hkind => by
      obtain ⟨-, -, -, -, -, hne⟩ := h.loop_of_loopIn ⟨hkind, root, hroot, ht⟩
      exact hne
    rcases some_or_continueName_of_mem_additions hchildren ha with ⟨r, hr⟩ | ⟨hkind, heq⟩
    · exact .inl (hsome r (List.mem_flatMap.mpr
        ⟨root, hroot, List.mem_cons_of_mem _ (List.mem_flatMap.mpr ⟨t, ht, hr⟩)⟩))
    · exact .inr ⟨t, ⟨hkind, root, hroot, ht⟩, heq⟩

/-- Hollow are the continue parts of the loops that were never continued. -/
theorem alternatives_eq_nil_iff (h : MinedFrom P roots g) (hm : g.contains m = true) :
    g.alternatives m = [] ↔ ∃ n, NeverContinued roots n ∧ m = continueName n := by
  constructor
  · intro hnil
    obtain ⟨t, ht, rfl⟩ := (h.alternatives_ne_nil_or hm).resolve_left fun hne => hne hnil
    refine ⟨t.label, ⟨⟨t, ht, rfl⟩, fun u hu heq => ?_⟩, rfl⟩
    obtain ⟨-, -, -, -, -, hne⟩ := h.loop_of_loopIn hu
    have hbodies : u.children.dropLast = [] := by
      refine List.eq_nil_iff_forall_not_mem.mpr fun v hv => ?_
      have hmem := (h.mem_alternatives_continueName_iff (h.exists_toList_of_loopIn ht)).mpr ⟨u, hu, heq, v, hv, rfl⟩
      rw [hnil] at hmem
      exact List.not_mem_nil hmem
    have hlength := congrArg List.length hbodies
    rw [List.length_dropLast] at hlength
    exact Nat.le_antisymm (Nat.sub_eq_zero_iff_le.mp hlength) (List.length_pos_of_ne_nil hne)
  · rintro ⟨n, ⟨⟨t, ht, rfl⟩, hsingle⟩, rfl⟩
    refine List.eq_nil_iff_forall_not_mem.mpr fun r hr => ?_
    obtain ⟨u, hu, heq, v, hv, -⟩ :=
      (h.mem_alternatives_continueName_iff (h.exists_toList_of_loopIn ht)).mp hr
    have hlength := congrArg (· - 1) (hsingle u hu heq)
    simp only [← List.length_dropLast] at hlength
    rw [List.eq_nil_of_length_eq_zero hlength] at hv
    exact List.not_mem_nil hv

/-! ### Mended grammars -/

/-- The list of mended loops. -/
theorem mem_fixLoops_iff (h : MinedFrom P roots g) :
    n ∈ (fixLoops g).2 ↔ NeverContinued roots n ∧ isLoopLabel n = true := by
  rw [mem_collapsed_iff]
  constructor
  · rintro ⟨-, hlabel, hget⟩
    have hcontains : g.contains (continueName n) = true := by rw [OrderedMap.contains, hget]; rfl
    have hnil : g.alternatives (continueName n) = [] := by rw [alternatives, hget]; rfl
    obtain ⟨n', hnever, heq⟩ := (h.alternatives_eq_nil_iff hcontains).mp hnil
    obtain ⟨t, ht, rfl⟩ := hnever.occurs
    obtain rfl := continueName_inj (exists_toList_of_isLoopLabel hlabel) (h.exists_toList_of_loopIn ht) heq
    exact ⟨hnever, hlabel⟩
  · rintro ⟨hnever, hlabel⟩
    obtain ⟨t, ht, rfl⟩ := hnever.occurs
    obtain ⟨hloop, hpart⟩ := h.contains_of_loopIn ht
    have hnil := (h.alternatives_eq_nil_iff hpart).mpr ⟨_, hnever, rfl⟩
    refine ⟨hloop, hlabel, ?_⟩
    rw [OrderedMap.contains, Option.isSome_iff_exists] at hpart
    obtain ⟨rs, hrs⟩ := hpart
    rw [alternatives, hrs] at hnil
    rw [hrs, ← hnil]
    rfl

/-- A mended loop had the definition of one. -/
theorem get?_of_mem_fixLoops (h : MinedFrom P roots g) : ∀ n ∈ (fixLoops g).2, g.get? n = some (loopRules n) := by
  intro n hn
  obtain ⟨hcontains, hlabel, -⟩ := mem_collapsed_iff.mp hn
  exact h.looped n hcontains (mark_of_isLoopLabel hlabel)

/-- Still hollow are the continue parts of the loops that were never continued and are not recognized. -/
theorem alternatives_fixLoops_eq_nil_iff (h : MinedFrom P roots g) (hm : (fixLoops g).1.contains m = true) :
    (fixLoops g).1.alternatives m = [] ↔
      ∃ n, NeverContinued roots n ∧ isLoopLabel n = false ∧ m = continueName n := by
  rcases (bypassed_fixLoops g).cases_of_contains hm with ⟨hmem, heq⟩ | ⟨-, hparts, heq⟩
  · -- a mended loop is no continue part
    have hmark := mark_of_isLoopLabel (h.mem_fixLoops_iff.mp hmem).2
    refine iff_of_false (by rw [heq]; exact List.cons_ne_nil _ _) ?_
    rintro ⟨n, -, -, rfl⟩
    exact continueName_ne_of_mark hmark rfl
  · rw [OrderedMap.contains, heq] at hm
    rw [alternatives, heq]
    refine (h.alternatives_eq_nil_iff hm).trans ⟨?_, ?_⟩
    · rintro ⟨n, hnever, rfl⟩
      refine ⟨n, hnever, Bool.eq_false_iff.mpr fun hlabel => ?_, rfl⟩
      exact hparts n (h.mem_fixLoops_iff.mpr ⟨hnever, hlabel⟩) rfl
    · rintro ⟨n, hnever, -, heq⟩
      exact ⟨n, hnever, heq⟩

/-- Mending leaves nothing undefined. -/
theorem contains_of_mentioned_fixLoops (h : MinedFrom P roots g) {k : String} (hm : m ∈ (fixLoops g).1.mentions k) :
    (fixLoops g).1.contains m = true := by
  have hbypassed := bypassed_fixLoops g
  obtain ⟨hcomplete, howned⟩ := h.mines.complete h.grown
  have hdefined : ∀ j n, n ∈ g.mentions j → g.contains n = true := fun j n hn =>
    (hcomplete.defined j n hn).resolve_left id
  obtain ⟨r, hr, hmem⟩ := mem_mentions_iff.mp hm
  rcases hbypassed.cases_of_contains (contains_of_mem_alternatives hr) with ⟨hk, heq⟩ | ⟨hk, -, heq⟩
  · -- a mended loop mentions its exit part
    rw [heq] at hr
    obtain rfl := List.mem_singleton.mp hr
    obtain rfl : m = exitName k := by simpa using hmem
    have hloop : [.nonterminal (exitName k)] ∈ g.alternatives k := by
      rw [alternatives, h.get?_of_mem_fixLoops k hk]
      exact List.mem_cons_of_mem _ List.mem_cons_self
    refine hbypassed.contains_of_contains (hdefined k _ (mem_mentions_iff.mpr ⟨_, hloop, hmem⟩)) fun n _ => ?_
    exact continueName_ne_exitName n k
  · rw [alternatives, heq] at hr
    have hmention : m ∈ g.mentions k := mem_mentions_iff.mpr ⟨r, hr, hmem⟩
    refine hbypassed.contains_of_contains (hdefined k m hmention) ?_
    rintro n hn rfl
    -- only the loop itself mentioned its continue part
    exact hk (howned n k (h.mem_fixLoops_iff.mp hn).2 hmention ▸ hn)

/-- Mending changes no language. -/
theorem inLanguage_fixLoops_iff (h : MinedFrom P roots g) (n : String) (w : List Char) :
    InLanguage (fixLoops g).1 n w ↔ InLanguage g n w :=
  ⟨((bypassed_fixLoops g).grows h.get?_of_mem_fixLoops).includedIn.inLanguage, (fixLoops_spec h.looped).1.inLanguage⟩

end MinedFrom

/-- The name of the function is not empty and has no line break in it. -/
def IsPlain (f : String) : Prop := f ≠ "" ∧ '\n' ∉ f.toList

instance (f : String) : Decidable (IsPlain f) := inferInstanceAs (Decidable (_ ∧ _))

/-- **Mending leaves no hollow nonterminal, if the loops are recognized.**  Trees that were built from any traces are
extracted one after the other, and then the loops are mended.  Afterwards a defined nonterminal has no alternative
exactly if it is the continue part of a loop that had a single iteration in all trees and whose label is not
recognized; nothing is undefined, and every nonterminal derives what it derived before.  The mended loops are those
with a single iteration in all trees whose labels are recognized.  A label is recognized unless the name of its
function is empty or has a line break in it, and with other names no nonterminal is hollow. -/
theorem fixLoops_leaves_unrecognized (hbuilt : ∀ root ∈ roots, IsBuilt (fun _ => True) root)
    (h : Extracts ∅ roots g) :
    (∀ m, (fixLoops g).1.contains m = true → ((fixLoops g).1.alternatives m = [] ↔
      ∃ n, NeverContinued roots n ∧ isLoopLabel n = false ∧ m = continueName n)) ∧
    (∀ k m, m ∈ (fixLoops g).1.mentions k → (fixLoops g).1.contains m = true) ∧
    (∀ n w, InLanguage (fixLoops g).1 n w ↔ InLanguage g n w) ∧
    ((fixLoops g).2.Nodup ∧ ∀ n, n ∈ (fixLoops g).2 ↔ NeverContinued roots n ∧ isLoopLabel n = true) ∧
    (∀ f c i, isLoopLabel (PathElement.loop f c i).label = true ↔ IsPlain f) ∧
    ((∀ root ∈ roots, IsBuilt IsPlain root) →
      (∀ m, (fixLoops g).1.contains m = true → (fixLoops g).1.alternatives m ≠ []) ∧
        ∀ n, n ∈ (fixLoops g).2 ↔ NeverContinued roots n) := by
  have hmined := h.minedFrom hbuilt
  refine ⟨fun m hm => hmined.alternatives_fixLoops_eq_nil_iff hm,
    fun k m hm => hmined.contains_of_mentioned_fixLoops hm, hmined.inLanguage_fixLoops_iff,
    ⟨nodup_fixLoops g, fun n => hmined.mem_fixLoops_iff⟩, isLoopLabel_label_iff, fun hplain => ?_⟩
  -- the label of every loop of the trees is recognized
  have hlabel : ∀ n, NeverContinued roots n → isLoopLabel n = true := by
    rintro n ⟨⟨t, ht, rfl⟩, -⟩
    obtain ⟨f, c, i, hf, heq, -⟩ := (h.minedFrom hplain).loop_of_loopIn ht
    rw [heq]
    exact (isLoopLabel_label_iff f c i).mpr hf
  refine ⟨fun m hm hnil => ?_, fun n => ?_⟩
  · obtain ⟨n, hnever, hfalse, -⟩ := (hmined.alternatives_fixLoops_eq_nil_iff hm).mp hnil
    rw [hlabel n hnever] at hfalse
    cases hfalse
  · rw [hmined.mem_fixLoops_iff]
    exact and_iff_left_of_imp (hlabel n)

end Hollow

/-- A trace whose only read is in the first iteration of a loop of `f`. -/
def singleIteration (f : String) : OrderedTrace := ⟨[⟨⟨1, 0⟩, [⟨f, "0", [⟨"loop", 1⟩]⟩], [97]⟩], ∅, ∅⟩

/-- The tree of that trace. -/
def singleIterationTree (f : String) : ExecutionTree :=
  .node (PathElement.call f 0).label .call [.node (PathElement.loop f 0 0).label .loop
    [.node (PathElement.iteration f 0 0 1).label .iteration [.node (bucketLabel 1) (.bucket [97]) []]]]

/-- The loop of that tree has a single iteration. -/
theorem neverContinued_singleIteration (f : String) :
    NeverContinued [singleIterationTree f] (PathElement.loop f 0 0).label := by
  have hlevels : (singleIterationTree f).levels = [singleIterationTree f] ++ (singleIterationTree f).children ++
      [.node (PathElement.iteration f 0 0 1).label .iteration [.node (bucketLabel 1) (.bucket [97]) []],
        .node (bucketLabel 1) (.bucket [97]) []] := rfl
  constructor
  · exact ⟨_, ⟨rfl, _, List.mem_singleton_self _, (singleIterationTree f).levels_spec.2 _
      (singleIterationTree f).mem_levels_self (List.mem_singleton_self _)⟩, rfl⟩
  · rintro t ⟨hkind, root, hroot, ht⟩ -
    obtain rfl := List.mem_singleton.mp hroot
    rw [hlevels] at ht
    simp only [List.mem_append, List.mem_cons, List.not_mem_nil, or_false, singleIterationTree, children] at ht
    rcases ht with (rfl | rfl) | rfl | rfl
    · cases hkind
    · rfl
    · cases hkind
    · cases hkind

/-- The grammar of that tree for a function `f` has a loop that is mended, and then nothing is hollow. -/
theorem fixLoops_singleIteration : ∃ g, Extracts ∅ [singleIterationTree "f"] g ∧
    "<f@0_L0>" ∈ (fixLoops g).2 ∧ ∀ m, (fixLoops g).1.contains m = true → (fixLoops g).1.alternatives m ≠ [] := by
  have hbuilt : ∀ P : String → Prop, P "f" → ∀ root ∈ [singleIterationTree "f"], IsBuilt P root := by
    intro P hP root hroot
    obtain rfl := List.mem_singleton.mp hroot
    refine ⟨singleIteration "f", ∅, .none, false, ?_, rfl⟩
    exact List.forall_mem_singleton.mpr (List.forall_mem_singleton.mpr hP)
  have hextract : Extracts ∅ [singleIterationTree "f"] (extractInto .bytes ∅ (singleIterationTree "f")).1 :=
    .cons (Prod.ext rfl rfl) .nil
  obtain ⟨-, -, -, -, -, hplain⟩ := fixLoops_leaves_unrecognized (hbuilt _ trivial) hextract
  obtain ⟨hhollow, hmended⟩ := hplain (hbuilt IsPlain (by decide))
  exact ⟨_, hextract, (hmended _).mpr (neverContinued_singleIteration "f"), hhollow⟩

/-- The same loop of a function without a name is not mended, and its continue part stays hollow. -/
theorem fixLoops_nameless : ∃ g, IsBuilt (fun _ => True) (singleIterationTree "") ∧
    Extracts ∅ [singleIterationTree ""] g ∧ NeverContinued [singleIterationTree ""] "<@0_L0>" ∧
    (fixLoops g).2 = [] ∧ (fixLoops g).1.get? "<@0_L0_cont>" = some [] := by
  refine ⟨(extractInto .bytes ∅ (singleIterationTree "")).1, ⟨singleIteration "", ∅, .none, false, ?_, rfl⟩,
    .cons (Prod.ext rfl rfl) .nil, neverContinued_singleIteration "", by decide +kernel, by rfl⟩
  exact List.forall_mem_singleton.mpr (List.forall_mem_singleton.mpr trivial)

end GrammarInference
