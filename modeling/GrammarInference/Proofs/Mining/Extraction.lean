/-
GrammarInference/Proofs/Mining/Extraction.lean

What the nodes of a tree add to a mined grammar.

Design.  Every node adds definitions and alternatives, listed in `additions`, and extraction adds exactly these
(`Mines`).  The definition of a loop is written anew for every tree, and nothing is lost only because nothing
else can stand there: a name with the mark of a loop has the definition of a loop (`Looped`), and every step of
extraction keeps this.  Extraction fails only where a bucket holds a value that is no byte, or where the tree
starts in another call than the trees before it.
-/
import GrammarInference.Proofs.Execution.Tree
import GrammarInference.Proofs.Grammar.Growth
import GrammarInference.Proofs.Grammar.Reachable

namespace GrammarInference

open Grammar ExecutionTree

/-- What is added to a grammar: a nonterminal is defined, or gets an alternative. -/
abbrev Addition := String × Option Rule

variable {g g' g'' : Grammar} {n m : String} {r : Rule} {t root : ExecutionTree} {ts : List ExecutionTree}
  {c c' : List Addition}

/-! ### Adding to a grammar -/

/-- A name with the mark of a loop has the definition of a loop. -/
def Looped (g : Grammar) : Prop :=
  ∀ n, g.contains n = true → mark n = some 'L' → g.get? n = some (loopRules n)

/-- The grammar `g'` has what `g` has and what is added, and nothing else. -/
structure Mines (g : Grammar) (c : List Addition) (g' : Grammar) : Prop where
  /-- Nothing else is defined. -/
  contains : ∀ m, g'.contains m = true ↔ g.contains m = true ∨ m ∈ c.map Prod.fst
  /-- There are no other alternatives. -/
  alternatives : ∀ m r, r ∈ g'.alternatives m ↔ r ∈ g.alternatives m ∨ (m, some r) ∈ c
  /-- No alternative is added twice. -/
  nodup : (∀ m, (g.alternatives m).Nodup) → ∀ m, (g'.alternatives m).Nodup
  /-- Other definitions stay as they are. -/
  kept : ∀ m, m ∉ c.map Prod.fst → g'.get? m = g.get? m
  /-- Loops keep their definitions. -/
  looped : Looped g → Looped g'

theorem looped_empty : Looped (∅ : Grammar) := fun _ h => nomatch h

theorem Mines.refl (g : Grammar) : Mines g [] g where
  contains := fun m => by simp
  alternatives := fun m r => by simp
  nodup := id
  kept := fun _ _ => rfl
  looped := id

theorem Mines.trans (h : Mines g c g') (h' : Mines g' c' g'') : Mines g (c ++ c') g'' where
  contains := fun m => by rw [h'.contains, h.contains, List.map_append, List.mem_append, or_assoc]
  alternatives := fun m r => by rw [h'.alternatives, h.alternatives, List.mem_append, or_assoc]
  nodup := fun hg => h'.nodup (h.nodup hg)
  kept := fun m hm => by
    rw [List.map_append, List.mem_append, not_or] at hm
    rw [h'.kept m hm.2, h.kept m hm.1]
  looped := fun hg => h'.looped (h.looped hg)

theorem Mines.grows (h : Mines g c g') : Grows g g' :=
  fun m r hr => (h.alternatives m r).mpr (.inl hr)

theorem Mines.contains_iff (h : Mines ∅ c g) (n : String) : g.contains n = true ↔ n ∈ c.map Prod.fst :=
  (h.contains n).trans ⟨fun hn => hn.resolve_left nofun, .inr⟩

theorem Mines.mem_alternatives_iff (h : Mines ∅ c g) (n : String) (r : Rule) :
    r ∈ g.alternatives n ↔ (n, some r) ∈ c :=
  (h.alternatives n r).trans ⟨fun hn => hn.resolve_left (List.not_mem_nil), .inr⟩

theorem Mines.nodup_alternatives (h : Mines ∅ c g) (n : String) : (g.alternatives n).Nodup :=
  h.nodup (fun _ => List.nodup_nil) n

/-- The definitions of loops are kept where only another name is touched. -/
theorem Looped.of_get?_eq (hg : Looped g) (hn : mark n ≠ some 'L')
    (h : ∀ m, n ≠ m → g'.get? m = g.get? m) : Looped g' := by
  intro m hm hL
  have hget := h m fun hnm => hn (hnm ▸ hL)
  rw [OrderedMap.contains, hget] at hm
  rw [hget]
  exact hg m hm hL

theorem mines_ensure (g : Grammar) (hn : mark n ≠ some 'L') : Mines g [(n, none)] (g.ensure n) where
  contains := fun m => by
    rw [contains_ensure_iff, List.map_singleton, List.mem_singleton, or_comm, @eq_comm _ n]
  alternatives := fun m r => by simp [alternatives_ensure]
  nodup := fun hg m => by
    rw [alternatives_ensure]
    exact hg m
  kept := fun m hm => get?_ensure_of_ne fun h => hm (by simp [h])
  looped := fun hg => hg.of_get?_eq hn fun m hm => get?_ensure_of_ne hm

theorem mines_addAlternative (g : Grammar) (hn : mark n ≠ some 'L') (r : Rule) :
    Mines g [(n, some r)] (g.addAlternative n r) where
  contains := fun m => by
    rw [contains_addAlternative_iff, List.map_singleton, List.mem_singleton, or_comm, @eq_comm _ n]
  alternatives := fun m r' => by
    rw [mem_addAlternative_iff, List.mem_singleton, Prod.mk.injEq, Option.some.injEq]
  nodup := fun hg => nodup_addAlternative hg
  kept := fun m hm => get?_addAlternative_of_ne fun h => hm (by simp [h])
  looped := fun hg => hg.of_get?_eq hn fun m hm => get?_addAlternative_of_ne hm

/-- Writing the definition of a loop loses nothing: if the loop was defined, that was its definition. -/
theorem mines_insert_loop (hg : Looped g) (hn : mark n = some 'L') :
    Mines g ((loopRules n).map fun r => (n, some r)) (g.insert n (loopRules n)) := by
  have hold : g.alternatives n = loopRules n ∨ g.alternatives n = [] := by
    rcases hget : g.get? n with - | rs
    · exact .inr (by rw [alternatives, hget]; rfl)
    · refine .inl ?_
      rw [alternatives, hg n (by rw [OrderedMap.contains, hget]; rfl) hn]
      rfl
  have hdistinct : (loopRules n).Nodup := by
    simp [loopRules]
  constructor
  · intro m
    rw [contains_insert, or_comm, @eq_comm _ n]
    simp [loopRules]
  · intro m r
    rw [alternatives_insert]
    by_cases hm : n = m
    · subst hm
      rw [if_pos rfl]
      rcases hold with hold | hold <;> simp [hold]
    · simp [hm]
  · intro hnodup m
    rw [alternatives_insert]
    split
    · exact hdistinct
    · exact hnodup m
  · intro m hm
    rw [OrderedMap.get?_insert, if_neg fun h => hm (by simp [loopRules, h])]
  · intro _ m hm hL
    rw [OrderedMap.get?_insert]
    split
    · rename_i h
      rw [h]
    · rename_i hne
      exact hg m ((contains_insert.mp hm).resolve_left hne) hL

theorem mines_foldl_addAlternative {α : Type} (g : Grammar) (hn : mark n ≠ some 'L') (rule : α → Rule)
    (l : List α) : Mines g (l.map fun a => (n, some (rule a)))
      (l.foldl (fun g a => g.addAlternative n (rule a)) g) := by
  induction l generalizing g with
  | nil => exact .refl g
  | cons a l ih => exact (mines_addAlternative g hn (rule a)).trans (ih _)

/-! ### Additions of nodes -/

/-- The alternative for a byte. -/
def byteRule (v : Nat) : Rule := [.terminal (String.singleton (Char.ofNat v))]

/-- The alternatives for the values of a bucket. -/
def bucketRules (values : List Nat) : List Rule := if values.isEmpty then [[]] else values.map byteRule

/-- What a node adds. -/
def additions : ExecutionTree → List Addition
  | .node n (.bucket values) _ => (n, none) :: (bucketRules values).map fun r => (n, some r)
  | .node n .loop ts =>
    (loopRules n).map (fun r => (n, some r)) ++ [(continueName n, none), (exitName n, none)] ++
      ts.dropLast.map (fun t => (continueName n, some (labelRule t.children))) ++
      ts.getLast?.toList.map (fun t => (exitName n, some (labelRule t.children)))
  | .node n .call ts => [(n, some (labelRule ts))]
  | .node _ .iteration _ => []

/-- A node adds to its label, and a loop to the names of its parts. -/
theorem fst_of_mem_additions {a : Addition} (ha : a ∈ additions t) :
    a.1 = t.label ∨ (t.kind = .loop ∧ (a.1 = continueName t.label ∨ a.1 = exitName t.label)) := by
  obtain ⟨n, kind, ts⟩ := t
  cases kind with
  | call => exact .inl (List.mem_singleton.mp ha ▸ rfl)
  | iteration => exact absurd ha List.not_mem_nil
  | bucket values =>
    rcases List.mem_cons.mp ha with rfl | ha
    · exact .inl rfl
    · obtain ⟨r, -, rfl⟩ := List.mem_map.mp ha
      exact .inl rfl
  | loop =>
    rw [additions] at ha
    simp only [List.mem_append, List.mem_cons, List.mem_map, List.not_mem_nil, or_false] at ha
    rcases ha with ((⟨r, -, rfl⟩ | rfl | rfl) | ⟨t, -, rfl⟩) | ⟨t, -, rfl⟩
    · exact .inl rfl
    · exact .inr ⟨rfl, .inl rfl⟩
    · exact .inr ⟨rfl, .inr rfl⟩
    · exact .inr ⟨rfl, .inl rfl⟩
    · exact .inr ⟨rfl, .inr rfl⟩

/-- The nodes that a node mentions: those below it, for a loop those below its iterations. -/
def mentioned : ExecutionTree → List ExecutionTree
  | .node _ .call ts => ts
  | .node _ .loop ts => ts.flatMap children
  | .node _ _ _ => []

/-- An alternative mentions labels of nodes, and in the definition of a loop the loop and its parts. -/
theorem mentioned_of_mem_additions (ha : (m, some r) ∈ additions t) (hn : Symbol.nonterminal n ∈ r) :
    (∃ c ∈ mentioned t, c.label = n) ∨
      t.kind = .loop ∧ m = t.label ∧ (n = continueName m ∨ n = m ∨ n = exitName m) := by
  have hlabels : ∀ us : List ExecutionTree, Symbol.nonterminal n ∈ labelRule us → ∃ c ∈ us, c.label = n := by
    intro us hus
    obtain ⟨c, hc, hcn⟩ := List.mem_map.mp hus
    exact ⟨c, hc, Symbol.nonterminal.inj hcn⟩
  obtain ⟨label, kind, ts⟩ := t
  cases kind with
  | iteration => exact absurd ha List.not_mem_nil
  | call =>
    cases List.mem_singleton.mp ha
    exact .inl (hlabels ts hn)
  | bucket values =>
    -- the values of a bucket mention nothing
    obtain ⟨b, hb, heq⟩ := List.mem_map.mp ((List.mem_cons.mp ha).resolve_left nofun)
    cases heq
    rw [bucketRules] at hb
    split at hb
    · rw [List.mem_singleton.mp hb] at hn
      exact absurd hn List.not_mem_nil
    · obtain ⟨v, -, rfl⟩ := List.mem_map.mp hb
      cases List.mem_singleton.mp hn
  | loop =>
    have hbody : ∀ u ∈ ts, Symbol.nonterminal n ∈ labelRule u.children → ∃ c ∈ ts.flatMap children, c.label = n := by
      intro u hu hrule
      obtain ⟨c, hc, hcn⟩ := hlabels u.children hrule
      exact ⟨c, List.mem_flatMap.mpr ⟨u, hu, hc⟩, hcn⟩
    rw [additions] at ha
    simp only [List.mem_append, List.mem_cons, List.mem_map, Prod.mk.injEq, Option.some.injEq, reduceCtorEq,
      and_false, List.not_mem_nil, or_false] at ha
    rcases ha with (⟨b, hb, rfl, rfl⟩ | ⟨u, hu, -, rfl⟩) | ⟨u, hu, -, rfl⟩
    · refine .inr ⟨rfl, rfl, ?_⟩
      rcases List.mem_pair.mp hb with rfl | rfl
      · simp only [List.mem_pair, Symbol.nonterminal.injEq] at hn
        exact hn.imp_right .inl
      · simp only [List.mem_singleton, Symbol.nonterminal.injEq] at hn
        exact .inr (.inr hn)
    · exact .inl (hbody u (List.dropLast_subset ts hu) hn)
    · exact .inl (hbody u (List.mem_of_getLast? (Option.mem_toList.mp hu)) hn)

/-- What a whole tree adds. -/
def treeAdditions (root : ExecutionTree) : List Addition :=
  (startName, some [.nonterminal root.label]) :: root.levels.flatMap additions

/-- The label has the mark of its kind. -/
def Marked (t : ExecutionTree) : Prop := mark t.label = some t.kind.mark

theorem ExecutionTree.WellFormed.marked (h : t.WellFormed) : Marked t := by
  cases h with
  | bucket k values => exact mark_bucketLabel k
  | step _ _ _ _ => exact mark_label _

theorem mark_continueName_ne (n : String) : mark (continueName n) ≠ some 'L' := by
  rw [mark_continueName]
  decide

theorem mark_exitName_ne (n : String) : mark (exitName n) ≠ some 'L' := by
  rw [mark_exitName]
  decide

/-- The values of a bucket are bytes. -/
def HasBytes (t : ExecutionTree) : Prop := ∀ values, t.kind = .bucket values → ∀ v ∈ values, v < 256

theorem addBytes_spec {values : List Nat} (hn : mark n ≠ some 'L')
    (h : addBytes n g values = (g', .ok ())) :
    Mines g ((values.map byteRule).map fun r => (n, some r)) g' := by
  induction values generalizing g with
  | nil =>
    cases h
    exact .refl _
  | cons v rest ih =>
    rw [addBytes] at h
    split at h
    · exact (mines_addAlternative g hn (byteRule v)).trans (ih h)
    · cases h

theorem addBytes_isOk_iff {values : List Nat} : (addBytes n g values).2 = .ok () ↔ ∀ v ∈ values, v < 256 := by
  induction values generalizing g with
  | nil => exact iff_of_true rfl fun v hv => absurd hv List.not_mem_nil
  | cons v rest ih =>
    rw [addBytes, List.forall_mem_cons]
    split
    · rename_i hv
      rw [ih, and_iff_right hv]
    · rename_i hv
      exact iff_of_false (fun h => nomatch h) fun h => hv h.1

theorem addBucket_spec {values : List Nat} (hn : mark n ≠ some 'L')
    (h : addBucket .bytes g n values = (g', .ok ())) :
    Mines g ((n, none) :: (bucketRules values).map fun r => (n, some r)) g' := by
  refine (mines_ensure g hn).trans ?_
  cases values with
  | nil =>
    cases h
    exact mines_addAlternative _ hn []
  | cons v rest => exact addBytes_spec hn h

theorem addLoop_spec (hg : Looped g) (hn : mark n = some 'L') (ts : List ExecutionTree) :
    Mines g (additions (.node n .loop ts)) (addLoop g n ts) := by
  -- the rules of the loop, the names of its parts, and an alternative for each iteration
  have hloop := mines_insert_loop hg hn
  have hcontinue := mines_ensure (g.insert n (loopRules n)) (mark_continueName_ne n)
  have hexit := mines_ensure (Grammar.ensure (g.insert n (loopRules n)) (continueName n)) (mark_exitName_ne n)
  have hbodies := mines_foldl_addAlternative (Grammar.ensure
    (Grammar.ensure (g.insert n (loopRules n)) (continueName n)) (exitName n)) (mark_continueName_ne n)
    (fun t => labelRule t.children) ts.dropLast
  have hparts := (hloop.trans (hcontinue.trans hexit)).trans hbodies
  rw [addLoop, additions]
  rcases ts.getLast? with - | t
  · rw [Option.toList_none, List.map_nil, List.append_nil]
    exact hparts
  · exact hparts.trans (mines_addAlternative _ (mark_exitName_ne n) (labelRule t.children))

theorem addNode_spec (hg : Looped g) (ht : Marked t) (h : addNode .bytes g t = (g', .ok ())) :
    Mines g (additions t) g' := by
  obtain ⟨n, kind, ts⟩ := t
  have hmark : mark n = some kind.mark := ht
  cases kind with
  | bucket values => exact addBucket_spec (by rw [hmark, NodeKind.mark]; decide) h
  | call =>
    cases h
    exact mines_addAlternative g (by rw [hmark, NodeKind.mark]; decide) (labelRule ts)
  | loop =>
    cases h
    exact addLoop_spec hg hmark ts
  | iteration =>
    cases h
    exact .refl _

theorem addNode_isOk_iff : (addNode .bytes g t).2 = .ok () ↔ HasBytes t := by
  obtain ⟨n, kind, ts⟩ := t
  cases kind with
  | bucket values =>
    have hiff : HasBytes (node n (.bucket values) ts) ↔ ∀ v ∈ values, v < 256 :=
      ⟨fun h => h values rfl, fun h values' heq => NodeKind.bucket.inj heq ▸ h⟩
    rw [hiff, addNode, addBucket]
    cases values with
    | nil => exact iff_of_true rfl fun v hv => absurd hv List.not_mem_nil
    | cons v rest => exact addBytes_isOk_iff
  | call | loop | iteration => exact iff_of_true rfl fun values h => nomatch h

theorem addNodes_spec (hg : Looped g) (hts : ∀ t ∈ ts, Marked t) (h : addNodes .bytes g ts = (g', .ok ())) :
    Mines g (ts.flatMap additions) g' := by
  induction ts generalizing g with
  | nil =>
    cases h
    exact .refl _
  | cons t ts ih =>
    obtain ⟨ht, hts⟩ := List.forall_mem_cons.mp hts
    rw [addNodes] at h
    rcases hnode : addNode .bytes g t with ⟨g₁, e | ⟨⟩⟩
    · simp only [hnode] at h
      cases h
    · simp only [hnode] at h
      have hfirst := addNode_spec hg ht hnode
      exact hfirst.trans (ih (hfirst.looped hg) hts h)

theorem addNodes_isOk_iff : (addNodes .bytes g ts).2 = .ok () ↔ ∀ t ∈ ts, HasBytes t := by
  induction ts generalizing g with
  | nil => exact iff_of_true rfl fun t ht => absurd ht List.not_mem_nil
  | cons t ts ih =>
    rw [addNodes, List.forall_mem_cons, ← addNode_isOk_iff (g := g)]
    rcases addNode .bytes g t with ⟨g₁, e | ⟨⟩⟩
    · exact iff_of_false (fun h => nomatch h) fun h => nomatch h.1
    · exact ih.trans (and_iff_right rfl).symm

/-! ### Whole trees -/

/-- Nodes add nothing to the start symbol. -/
theorem startName_not_mem_additions (ht : Marked t) : startName ∉ (additions t).map Prod.fst := by
  intro h
  obtain ⟨a, ha, hstart⟩ := List.mem_map.mp h
  rcases fst_of_mem_additions ha with hlabel | ⟨-, hcontinue | hexit⟩
  · have hmark : some 't' = some t.kind.mark := by rw [← mark_startName, ← hstart, hlabel, ht]
    revert hmark
    cases t.kind <;> simp [NodeKind.mark]
  · exact continueName_ne_startName _ (hcontinue.symm.trans hstart)
  · exact exitName_ne_startName _ (hexit.symm.trans hstart)

/-- The rule of the start symbol comes first, and then the nodes are added. -/
theorem extractInto_start (h : extractInto .bytes g root = (g', .ok ())) :
    ∃ g₁, Mines g [(startName, some [.nonterminal root.label])] g₁ ∧
      g₁.get? startName = some [[.nonterminal root.label]] ∧ addNodes .bytes g₁ root.levels = (g', .ok ()) := by
  have hadd := mines_addAlternative g (n := startName) (by rw [mark_startName]; decide) [.nonterminal root.label]
  rw [extractInto] at h
  rcases hget : g.get? startName with - | existing
  · simp only [hget] at h
    have hnone : g.alternatives startName = [] := by
      rw [alternatives, hget]
      rfl
    rw [addAlternative, if_neg (by rw [hnone]; exact List.not_mem_nil), push, hnone] at hadd
    exact ⟨_, hadd, by rw [OrderedMap.get?_insert, if_pos rfl]; rfl, h⟩
  · simp only [hget] at h
    split at h
    · rename_i heq
      have hmem : [.nonterminal root.label] ∈ g.alternatives startName := by
        rw [alternatives, hget, heq]
        exact List.mem_singleton_self _
      rw [addAlternative, if_pos hmem] at hadd
      exact ⟨g, hadd, by rw [hget, heq], h⟩
    · cases h

/-- Extraction adds what the tree adds. -/
theorem extractInto_spec (hg : Looped g) (hroot : ∀ t ∈ root.levels, Marked t)
    (h : extractInto .bytes g root = (g', .ok ())) : Mines g (treeAdditions root) g' := by
  obtain ⟨g₁, hstart, -, hnodes⟩ := extractInto_start h
  exact hstart.trans (addNodes_spec (hstart.looped hg) hroot hnodes)

/-- From then on the start symbol stands for the root. -/
theorem get?_startName_of_extractInto (hg : Looped g) (hroot : ∀ t ∈ root.levels, Marked t)
    (h : extractInto .bytes g root = (g', .ok ())) : g'.get? startName = some [[.nonterminal root.label]] := by
  obtain ⟨g₁, hstart, hget, hnodes⟩ := extractInto_start h
  rw [(addNodes_spec (hstart.looped hg) hroot hnodes).kept, hget]
  rw [List.map_flatMap, List.mem_flatMap]
  rintro ⟨t, ht, hmem⟩
  exact startName_not_mem_additions (hroot t ht) hmem

/-- Extraction succeeds if the tree starts where those before it started and all its values are bytes. -/
theorem extractInto_isOk_iff : (extractInto .bytes g root).2 = .ok () ↔
    (∀ rs ∈ g.get? startName, rs = [[.nonterminal root.label]]) ∧ ∀ t ∈ root.levels, HasBytes t := by
  rw [extractInto]
  rcases hget : g.get? startName with - | existing
  · rw [addNodes_isOk_iff]
    exact (and_iff_right fun rs hrs => nomatch hrs).symm
  · by_cases heq : existing = [[.nonterminal root.label]]
    · simp only [heq, if_true, addNodes_isOk_iff]
      simp
    · simp only [heq, if_false]
      refine iff_of_false (fun h => nomatch h) fun h => heq (h.1 existing rfl)

end GrammarInference
