/-
GrammarInference/Proofs/Mining/Words.lean

The words of a tree are in the language that is mined from it.

Design.  All names in a mined grammar are the start symbol, the labels of buckets, or names that begin with an
observed function (`Mined`).  The induction is on well-formed trees.  A bucket derives the value that was chosen, and
a call derives what its children derive in turn.  An iteration has no nonterminal; what it stands for is derived by
the rule of its children.  A loop derives its iterations one by one: all but the last one through the continue part,
and the last one through the exit part.
-/
import GrammarInference.Proofs.Mining.Extraction

namespace GrammarInference

open Grammar ExecutionTree

variable {g g' : Grammar} {n : String} {t root : ExecutionTree} {ts : List ExecutionTree} {c : List Addition}
  {w : List Char}

/-! ### Mined grammars -/

/-- A name that mining gives out. -/
inductive IsMinedName : String → Prop
  | start : IsMinedName startName
  | bucket (k : Nat) : IsMinedName (bucketLabel k)
  | observed {n : String} : IsOfObserved n → IsMinedName n

theorem ExecutionTree.WellFormed.isMinedName (h : t.WellFormed) : IsMinedName t.label := by
  rcases h.label_cases with ⟨k, hk⟩ | ho
  · exact hk ▸ .bucket k
  · exact .observed ho

/-- What a well-formed node adds has names that mining gives out. -/
theorem ExecutionTree.WellFormed.isMinedName_additions (h : t.WellFormed) :
    ∀ a ∈ additions t, IsMinedName a.1 := by
  intro a ha
  rcases fst_of_mem_additions ha with hlabel | ⟨hloop, hpart⟩
  · exact hlabel ▸ h.isMinedName
  · cases h with
    | bucket k values => cases hloop
    | @step e ts ho _ _ _ =>
      cases e with
      | call | iteration => cases hloop
      | loop f c i =>
        rcases hpart with hpart | hpart
        · exact hpart ▸ .observed (isOfObserved_part ho c i _)
        · exact hpart ▸ .observed (isOfObserved_part ho c i _)

/-- A grammar that was extracted from well-formed trees. -/
structure Mined (g : Grammar) : Prop where
  /-- All names were given out by mining. -/
  names : ∀ n, g.contains n = true → IsMinedName n
  /-- A name with the mark of a loop has the definition of a loop. -/
  loops : Looped g

theorem mined_empty : Mined (∅ : Grammar) := ⟨fun _ h => (nomatch h), looped_empty⟩

theorem Mined.mines (hg : Mined g) (h : Mines g c g') (hc : ∀ a ∈ c, IsMinedName a.1) : Mined g' where
  names := fun n hn => by
    rcases (h.contains n).mp hn with hn | hn
    · exact hg.names n hn
    · obtain ⟨a, ha, rfl⟩ := List.mem_map.mp hn
      exact hc a ha
  loops := h.looped hg.loops

theorem Mined.extractInto (hg : Mined g) (hroot : root.WellFormed)
    (h : extractInto .bytes g root = (g', .ok ())) : Mines g (treeAdditions root) g' ∧ Mined g' := by
  have hmines := extractInto_spec hg.loops (fun u hu => (hroot.of_mem_levels hu).marked) h
  refine ⟨hmines, hg.mines hmines (List.forall_mem_cons.mpr ⟨.start, fun a ha => ?_⟩)⟩
  obtain ⟨u, hu, ha⟩ := List.mem_flatMap.mp ha
  exact (hroot.of_mem_levels hu).isMinedName_additions a ha

/-- The alternatives that a node adds are in the grammar. -/
def Holds (g : Grammar) (t : ExecutionTree) : Prop := ∀ n r, (n, some r) ∈ additions t → r ∈ g.alternatives n

/-! ### Single nodes -/

theorem derives_byteRule (g : Grammar) (v : Nat) : Derives g (byteRule v) [Char.ofNat v] := by
  refine derives_terminal_iff.mpr ?_
  simp

theorem inLanguage_of_bucket {values : List Nat} (hall : ∀ r ∈ bucketRules values, r ∈ g.alternatives n)
    (h : Chooses [values] w) : InLanguage g n w := by
  cases h with
  | skip h =>
    rw [chooses_nil_iff.mp h]
    exact ⟨[], hall [] (List.mem_singleton_self []), .nil⟩
  | @take values _ _ v hv h =>
    rw [chooses_nil_iff.mp h]
    refine ⟨byteRule v, hall _ ?_, derives_byteRule g v⟩
    rw [bucketRules, if_neg (by rw [List.isEmpty_iff]; exact List.ne_nil_of_mem hv)]
    exact List.mem_map_of_mem hv

/-- If the labels of some trees derive their words, then the labels in turn derive the words of the list. -/
theorem derives_labelRule (hts : ∀ t ∈ ts, ∀ u, t.HasWord u → InLanguage g t.label u)
    (h : Chooses (bucketsBelow ts) w) : Derives g (labelRule ts) w := by
  induction ts generalizing w with
  | nil =>
    rw [chooses_nil_iff.mp h]
    exact .nil
  | cons t ts ih =>
    rw [List.forall_mem_cons] at hts
    obtain ⟨u, v, rfl, hu, hv⟩ := h.split_cons
    exact derives_nonterminal_cons_iff.mpr ⟨u, v, rfl, hts.1 u hu, ih hts.2 hv⟩

/-- The definition of a loop and the bodies of its iterations are in the grammar. -/
structure HoldsLoop (g : Grammar) (n : String) (iterations : List ExecutionTree) : Prop where
  /-- The definition of the loop. -/
  loop : loopRules n ⊆ g.alternatives n
  /-- All iterations but the last one. -/
  continued : ∀ t ∈ iterations.dropLast, labelRule t.children ∈ g.alternatives (continueName n)
  /-- The last iteration. -/
  exited : ∀ t ∈ iterations.getLast?, labelRule t.children ∈ g.alternatives (exitName n)

theorem Holds.loop (h : Holds g (.node n .loop ts)) : HoldsLoop g n ts := by
  rw [Holds, additions] at h
  refine ⟨fun r hr => h n r ?_, fun t ht => h _ _ ?_, fun t ht => h _ _ ?_⟩
  · refine List.mem_append_left _ (List.mem_append_left _ (List.mem_append_left _ ?_))
    exact List.mem_map_of_mem hr
  · refine List.mem_append_left _ (List.mem_append_right _ ?_)
    exact List.mem_map.mpr ⟨t, ht, rfl⟩
  · refine List.mem_append_right _ (List.mem_map.mpr ⟨t, ?_, rfl⟩)
    exact Option.mem_toList.mpr ht

/-- A loop derives the words of its iterations. -/
theorem inLanguage_of_loop (hloop : HoldsLoop g n ts)
    (hts : ∀ t ∈ ts, ∀ u, t.HasWord u → Derives g (labelRule t.children) u) (hne : ts ≠ [])
    (h : Chooses (bucketsBelow ts) w) : InLanguage g n w := by
  induction ts generalizing w with
  | nil => exact absurd rfl hne
  | cons t ts ih =>
    rw [List.forall_mem_cons] at hts
    obtain ⟨u, v, rfl, hu, hv⟩ := h.split_cons
    cases ts with
    | nil =>
      -- the last iteration leaves the loop
      have hexit : InLanguage g (exitName n) u := ⟨_, hloop.exited t rfl, hts.1 u hu⟩
      rw [chooses_nil_iff.mp hv, List.append_nil]
      exact ⟨_, hloop.loop (List.mem_cons_of_mem _ (List.mem_singleton_self _)),
        derives_singleton_iff.mpr hexit⟩
    | cons t' ts =>
      have hcontinue : InLanguage g (continueName n) u :=
        ⟨_, hloop.continued t List.mem_cons_self, hts.1 u hu⟩
      have hrest : HoldsLoop g n (t' :: ts) :=
        ⟨hloop.loop, fun s hs => hloop.continued s (List.mem_cons_of_mem t hs), hloop.exited⟩
      have hn : InLanguage g n v := ih hrest hts.2 (List.cons_ne_nil t' ts) hv
      refine ⟨_, hloop.loop List.mem_cons_self, ?_⟩
      exact derives_nonterminal_cons_iff.mpr ⟨u, v, rfl, hcontinue, derives_singleton_iff.mpr hn⟩

/-! ### Trees -/

/-- What the words of a tree are derived from: the label, or for an iteration the labels of its children. -/
def nodeRule (t : ExecutionTree) : Rule :=
  match t.kind with
  | .iteration => labelRule t.children
  | _ => [.nonterminal t.label]

/-- If all nodes of a well-formed tree contributed to the grammar, it derives the words of the tree.  The nodes
are those of some set `S` that contains the children of its members. -/
theorem ExecutionTree.WellFormed.derives {S : ExecutionTree → Prop} (hS : ∀ t, S t → ∀ c ∈ t.children, S c)
    (hholds : ∀ t, S t → Holds g t) (ht : t.WellFormed) (hmem : S t) (hw : t.HasWord w) :
    Derives g (nodeRule t) w := by
  induction ht generalizing w with
  | bucket k values =>
    refine derives_singleton_iff.mpr (inLanguage_of_bucket (fun r hr => ?_) hw)
    exact hholds _ hmem _ r (List.mem_cons_of_mem _ (List.mem_map_of_mem hr))
  | @step e ts _ _ hkinds hne ih =>
    have hbelow : Chooses (bucketsBelow ts) w := by
      rwa [HasWord, buckets_step] at hw
    have hchildren : ∀ t ∈ ts, ∀ u, t.HasWord u → Derives g (nodeRule t) u :=
      fun t ht u hu => ih t ht (hS _ hmem t ht) hu
    -- below anything but a loop the children stand for themselves
    have hlabels : e.kind ≠ .loop → Derives g (labelRule ts) w := by
      intro hkind
      refine derives_labelRule (fun t ht u hu => ?_) hbelow
      have hd := hchildren t ht u hu
      have hno : t.kind ≠ .iteration := fun h => hkind ((hkinds t ht).mp h)
      rw [nodeRule] at hd
      split at hd
      · contradiction
      · exact derives_singleton_iff.mp hd
    have hhold := hholds _ hmem
    cases e with
    | call f c =>
      have hrule := hhold _ _ (List.mem_singleton_self _)
      exact derives_singleton_iff.mpr ⟨_, hrule, hlabels (by simp [PathElement.kind])⟩
    | iteration f c i k => exact hlabels (by simp [PathElement.kind])
    | loop f c i =>
      refine derives_singleton_iff.mpr (inLanguage_of_loop hhold.loop (fun t ht u hu => ?_) (hne rfl) hbelow)
      have hd := hchildren t ht u hu
      rwa [nodeRule, (hkinds t ht).mpr rfl] at hd

/-- Extracting a tree makes its words derivable from the start symbol. -/
theorem inLanguage_of_extractInto (h : Mines g (treeAdditions root) g') (hroot : root.WellFormed)
    (hkind : root.kind ≠ .iteration) (hw : root.HasWord w) : InLanguage g' startName w := by
  have hrule : [.nonterminal root.label] ∈ g'.alternatives startName :=
    (h.alternatives _ _).mpr (.inr List.mem_cons_self)
  have hholds : ∀ u ∈ root.levels, Holds g' u := fun u hu n r hr =>
    (h.alternatives n r).mpr (.inr (List.mem_cons_of_mem _ (List.mem_flatMap.mpr ⟨u, hu, hr⟩)))
  refine ⟨_, hrule, ?_⟩
  have hd := hroot.derives (fun u hu c hc => root.levels_spec.2 u hu hc) hholds root.mem_levels_self hw
  rw [nodeRule] at hd
  split at hd
  · contradiction
  · exact hd

end GrammarInference
