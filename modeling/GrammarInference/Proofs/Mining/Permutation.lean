/-
GrammarInference/Proofs/Mining/Permutation.lean

The order of the traces does not matter.

Design.  The labels that a run has given out in the end tell which tree each of its traces has (`tree?`), and
whether all calls of the run succeed is a property of these trees (`Minable`).  The labels of a run in another
order give the same trees up to the translation of names.  So the runs succeed together, and what the trees add
to the grammar is the same up to that translation.
-/
import GrammarInference.Proofs.Mining.Run
import GrammarInference.Proofs.Mining.Translation

namespace GrammarInference

open Grammar LabelState ExecutionTree

namespace Miner

variable {config : MinerConfig} {s s' S : LabelState} {m m' : Miner} {t : Trace} {l l' : List Trace}
  {root? : Option ExecutionTree} {events events' : List (Trace × Option ExecutionTree)}

/-! ### Labels -/

/-- The labels that are given out after a trace was added. -/
def nextLabels (config : MinerConfig) (s : LabelState) (t : Trace) : LabelState :=
  match orderTrace t config.order with
  | .error _ => s
  | .ok o => (ExecutionTree.build o s config.context false).2

/-- The labels that are given out after some traces were added. -/
def labelsAfter (config : MinerConfig) (s : LabelState) (l : List Trace) : LabelState := l.foldl (nextLabels config) s

/-- The tree of a trace with the names that a label state gives; none if there is no tree for it. -/
def tree? (config : MinerConfig) (s : LabelState) (t : Trace) : Option ExecutionTree :=
  match orderTrace t config.order with
  | .error _ => none
  | .ok o => ExecutionTree.treeIn s config.context false o

/-- What the positions of the trace refer to was seen. -/
def Sees (config : MinerConfig) (s : LabelState) (t : Trace) : Prop :=
  ∀ o, orderTrace t config.order = .ok o → ∀ p ∈ o.positions, ExecutionTree.SeenIn s config.context false p

theorem nextLabels_of_ok {o : OrderedTrace} (horder : orderTrace t config.order = .ok o) :
    nextLabels config s t = (ExecutionTree.build o s config.context false).2 := by
  rw [nextLabels, horder]

theorem tree?_of_ok {o : OrderedTrace} (horder : orderTrace t config.order = .ok o) :
    tree? config s t = ExecutionTree.treeIn s config.context false o := by
  rw [tree?, horder]

theorem isBefore_nextLabels (s : LabelState) (t : Trace) : s.IsBefore (nextLabels config s t) := by
  rw [nextLabels]
  split
  · exact .refl s
  · exact isBefore_insertPositions s [] _

theorem isBefore_labelsAfter (s : LabelState) (l : List Trace) : s.IsBefore (labelsAfter config s l) := by
  induction l generalizing s with
  | nil => exact .refl s
  | cons t l ih => exact (isBefore_nextLabels s t).trans (ih _)

/-- The trace was seen when it was added. -/
theorem sees_of_isBefore (hS : (nextLabels config s t).IsBefore S) : Sees config S t := by
  intro o horder
  rw [nextLabels_of_ok horder] at hS
  exact (build_eq_treeIn hS).2

theorem sees_labelsAfter : ∀ t ∈ l, Sees config (labelsAfter config s l) t := by
  induction l generalizing s with
  | nil => exact fun t ht => absurd ht List.not_mem_nil
  | cons t l ih => exact List.forall_mem_cons.mpr ⟨sees_of_isBefore (isBefore_labelsAfter _ l), ih⟩

theorem Added.labels (h : Added m t root? m') : m'.labels = nextLabels m.config m.labels t := by
  cases h with
  | skipped horder => rw [nextLabels, horder]
  | empty horder hbuild | built horder hbuild _ => rw [nextLabels_of_ok horder, hbuild]

/-- The tree that a call gives is told by every later state. -/
theorem Added.tree? (h : Added m t root? m') (hS : m'.labels.IsBefore S) : root? = tree? m.config S t := by
  rw [h.labels] at hS
  cases h with
  | skipped horder => rw [Miner.tree?, horder]
  | empty horder hbuild | built horder hbuild _ =>
    rw [nextLabels_of_ok horder] at hS
    rw [tree?_of_ok horder, ← (build_eq_treeIn hS).1, hbuild]

theorem Run.labels (hrun : Run m events m') (hm : m.tokens? = none) :
    m'.labels = labelsAfter m.config m.labels (events.map Prod.fst) := by
  induction hrun with
  | nil => rfl
  | add hadd _ ih =>
    have hadded := (addTrace_eq_ok_iff hm).mp hadd
    rw [ih (hadded.tokens?.trans hm), hadded.config, hadded.labels]
    rfl

/-- The trees of a run are told by every later state. -/
theorem Run.tree? (hrun : Run m events m') (hm : m.tokens? = none) (hS : m'.labels.IsBefore S) :
    ∀ e ∈ events, e.2 = tree? m.config S e.1 := by
  induction hrun with
  | nil => exact fun e he => absurd he List.not_mem_nil
  | add hadd hrest ih =>
    have hadded := (addTrace_eq_ok_iff hm).mp hadd
    have hm₁ := hadded.tokens?.trans hm
    have hbefore := hrest.labels hm₁ ▸ isBefore_labelsAfter _ _
    refine List.forall_mem_cons.mpr ⟨hadded.tree? (hbefore.trans hS), ?_⟩
    exact hadded.config ▸ ih hm₁ hS

/-! ### When runs succeed -/

/-- The trace can be put into order, or is skipped. -/
def Orderable (config : MinerConfig) (t : Trace) : Prop :=
  ∀ e, orderTrace t config.order = .error e → ∃ rounds, e = .unorderableTrace rounds

/-- Calls for the traces can succeed one after the other, given the labels in the end. -/
structure Minable (config : MinerConfig) (s : LabelState) (l : List Trace) : Prop where
  /-- Every trace can be put into order, or is skipped. -/
  orderable : ∀ t ∈ l, Orderable config t
  /-- The values of all buckets are bytes. -/
  bytes : ∀ t ∈ l, ∀ root ∈ tree? config s t, ∀ u ∈ root.levels, HasBytes u
  /-- All trees have the same root. -/
  roots : ∀ t ∈ l, ∀ t' ∈ l, ∀ root ∈ tree? config s t, ∀ root' ∈ tree? config s t', root.label = root'.label

/-- The start symbol, if defined, stands for this nonterminal. -/
def StartsIn (g : Grammar) (n : String) : Prop := ∀ rs ∈ g.get? startName, rs = [[.nonterminal n]]

theorem Added.orderable (h : Added m t root? m') : Orderable m.config t := by
  intro e he
  cases h with
  | skipped horder =>
    rw [horder] at he
    cases he
    exact ⟨_, rfl⟩
  | empty horder _ | built horder _ _ =>
    rw [horder] at he
    cases he

/-- The tree that was added fits to the grammar before it, and the grammar behind it starts in its root. -/
theorem Added.fits (h : Added m t root? m') (hg : Looped m.grammar) {root : ExecutionTree} (hroot : root ∈ root?) :
    StartsIn m.grammar root.label ∧ (∀ u ∈ root.levels, HasBytes u) ∧
      m'.grammar.get? startName = some [[.nonterminal root.label]] := by
  have hgrown := (h.grown root hroot).1
  cases h with
  | skipped _ | empty _ _ => cases hroot
  | built _ _ hextract =>
    cases hroot
    obtain ⟨hstart, hbytes⟩ := extractInto_isOk_iff.mp (congrArg Prod.snd hextract)
    exact ⟨hstart, hbytes, get?_startName_of_extractInto hg (fun u hu => (hgrown.of_mem_levels hu).marked) hextract⟩

theorem Added.grammar_of_none (h : Added m t none m') : m'.grammar = m.grammar := by
  cases h <;> rfl

/-- The traces of a run are minable, and all its trees start where the grammar before the run does. -/
theorem Run.minable (hrun : Run m events m') (hm : m.tokens? = none) (hg : Looped m.grammar)
    (hS : m'.labels.IsBefore S) :
    Minable m.config S (events.map Prod.fst) ∧
      ∀ e ∈ events, ∀ root ∈ e.2, StartsIn m.grammar root.label := by
  have htree := hrun.tree? hm hS
  induction hrun with
  | nil =>
    refine ⟨⟨?_, ?_, ?_⟩, ?_⟩ <;> exact fun t ht => absurd ht List.not_mem_nil
  | @add m m₁ m' t root? rest hadd hrest ih =>
    have hadded := (addTrace_eq_ok_iff hm).mp hadd
    obtain ⟨hhead, htail⟩ := List.forall_mem_cons.mp htree
    obtain ⟨hminable, hstarts⟩ := ih (hadded.tokens?.trans hm) ((hadded.mines hg).looped hg) hS
      (hadded.config ▸ htail)
    rw [hadded.config] at hminable
    have hhead : root? = Miner.tree? m.config S t := hhead
    -- the root of a later tree is that of the first one
    have hsame : ∀ root ∈ root?, ∀ e ∈ rest, ∀ root' ∈ e.2, root'.label = root.label := by
      intro root hroot e he root' hroot'
      have hget := (hadded.fits hg hroot).2.2
      have heq := hstarts e he root' hroot' _ hget
      simpa using heq.symm
    have hroots : ∀ root ∈ root?, ∀ t' ∈ rest.map Prod.fst, ∀ root' ∈ Miner.tree? m.config S t',
        root'.label = root.label := by
      intro root hroot t' ht' root' hroot'
      obtain ⟨e, he, rfl⟩ := List.mem_map.mp ht'
      exact hsame root hroot e he root' (htail e he ▸ hroot')
    refine ⟨⟨?_, ?_, ?_⟩, List.forall_mem_cons.mpr ⟨fun root hroot => (hadded.fits hg hroot).1, ?_⟩⟩
    · exact List.forall_mem_cons.mpr ⟨hadded.orderable, hminable.orderable⟩
    · refine List.forall_mem_cons.mpr ⟨fun root hroot => ?_, hminable.bytes⟩
      exact (hadded.fits hg (hhead ▸ hroot)).2.1
    · refine List.forall_mem_cons.mpr ⟨List.forall_mem_cons.mpr ⟨?_, ?_⟩, fun t' ht' =>
        List.forall_mem_cons.mpr ⟨?_, hminable.roots t' ht'⟩⟩
      · intro root hroot root' hroot'
        rw [Option.mem_unique hroot hroot']
      · intro t' ht' root hroot root' hroot'
        exact (hroots root (hhead ▸ hroot) t' ht' root' hroot').symm
      · intro root hroot root' hroot'
        exact hroots root' (hhead ▸ hroot') t' ht' root hroot
    · intro e he root' hroot'
      rcases root? with - | root
      · exact hadded.grammar_of_none ▸ hstarts e he root' hroot'
      · rw [hsame root rfl e he root' hroot']
        exact (hadded.fits hg rfl).1

/-- A call succeeds if its tree fits to the grammar. -/
theorem exists_added (horderable : Orderable m.config t) (hS : (nextLabels m.config m.labels t).IsBefore S)
    (hfits : ∀ root ∈ tree? m.config S t, StartsIn m.grammar root.label ∧ ∀ u ∈ root.levels, HasBytes u) :
    ∃ root? m', Added m t root? m' := by
  rcases horder : orderTrace t m.config.order with e | o
  · obtain ⟨rounds, rfl⟩ := horderable e horder
    exact ⟨_, _, .skipped horder⟩
  · rcases hbuild : ExecutionTree.build o m.labels m.config.context false with ⟨- | root, labels⟩
    · exact ⟨_, _, .empty horder hbuild⟩
    · rw [nextLabels_of_ok horder] at hS
      have htree : tree? m.config S t = some root := by
        rw [tree?_of_ok horder, ← (build_eq_treeIn hS).1, hbuild]
      rcases hextract : extractInto .bytes m.grammar root with ⟨g, result⟩
      have hok : result = .ok () := by
        rw [← extractInto_isOk_iff.mpr (hfits root htree), hextract]
      exact ⟨_, _, .built horder hbuild (hok ▸ hextract)⟩

/-- Minable traces have a run. -/
theorem exists_run (hm : m.tokens? = none) (hg : Looped m.grammar) (hS : (labelsAfter m.config m.labels l).IsBefore S)
    (hminable : Minable m.config S l) (hstarts : ∀ t ∈ l, ∀ root ∈ tree? m.config S t, StartsIn m.grammar root.label) :
    ∃ events m', events.map Prod.fst = l ∧ Run m events m' := by
  induction l generalizing m with
  | nil => exact ⟨[], m, rfl, .nil⟩
  | cons t l ih =>
    have hlater : (nextLabels m.config m.labels t).IsBefore S := (isBefore_labelsAfter _ l).trans hS
    obtain ⟨root?, m₁, hadded⟩ := exists_added (hminable.orderable t List.mem_cons_self) hlater fun root hroot =>
      ⟨hstarts t List.mem_cons_self root hroot, hminable.bytes t List.mem_cons_self root hroot⟩
    have htree : root? = Miner.tree? m.config S t := hadded.tree? (hadded.labels ▸ hlater)
    have hrest : Minable m.config S l := by
      refine ⟨fun t' ht' => ?_, fun t' ht' => ?_, fun t' ht' t'' ht'' => ?_⟩
      · exact hminable.orderable t' (List.mem_cons_of_mem t ht')
      · exact hminable.bytes t' (List.mem_cons_of_mem t ht')
      · exact hminable.roots t' (List.mem_cons_of_mem t ht') t'' (List.mem_cons_of_mem t ht'')
    have hstarts₁ : ∀ t' ∈ l, ∀ root' ∈ Miner.tree? m.config S t', StartsIn m₁.grammar root'.label := by
      intro t' ht' root' hroot'
      rcases root? with - | root
      · exact hadded.grammar_of_none ▸ hstarts t' (List.mem_cons_of_mem t ht') root' hroot'
      · -- the start symbol has one alternative by now, the label that the roots of all trees share
        intro rs hrs
        have hget := (hadded.fits hg rfl).2.2
        have hlabel := hminable.roots t List.mem_cons_self t' (List.mem_cons_of_mem t ht') root htree.symm root' hroot'
        rw [hget] at hrs
        cases hrs
        rw [hlabel]
    obtain ⟨events, m', hevents, hrun⟩ := @ih m₁ (hadded.tokens?.trans hm) ((hadded.mines hg).looped hg)
      (by rw [hadded.config, hadded.labels]; exact hS) (hadded.config ▸ hrest) (hadded.config ▸ hstarts₁)
    exact ⟨(t, root?) :: events, m', congrArg _ hevents, .add ((addTrace_eq_ok_iff hm).mpr hadded) hrun⟩

theorem exists_run_iff : (∃ events m, events.map Prod.fst = l ∧ Run (new config none) events m) ↔
    Minable config (labelsAfter config ∅ l) l := by
  constructor
  · rintro ⟨events, m, rfl, hrun⟩
    have hlabels : m.labels.IsBefore (labelsAfter config ∅ (events.map Prod.fst)) := by
      rw [hrun.labels rfl]
      exact .refl _
    exact (hrun.minable rfl looped_empty hlabels).1
  · intro hminable
    exact exists_run rfl looped_empty (.refl _) hminable fun t ht root hroot rs hrs => nomatch hrs

/-! ### Other orders -/

/-- The trees of a trace in two states that have seen it. -/
theorem tree?_translation (hs : Sees config s t) (hs' : Sees config s' t) :
    tree? config s' t = (tree? config s t).map (relabel (translation s s')) ∧
      ∀ root ∈ tree? config s t, LabelsIn (commonNames s s') root := by
  rw [Miner.tree?, Miner.tree?]
  rcases horder : orderTrace t config.order with e | o
  · exact ⟨rfl, fun root hroot => nomatch hroot⟩
  · exact treeIn_translation fun p hp => ⟨hs o horder p hp, hs' o horder p hp⟩

theorem hasBytes_relabel {f : String → String} {u : ExecutionTree} (h : HasBytes u) : HasBytes (u.relabel f) := by
  intro values hkind
  rw [kind_relabel] at hkind
  exact h values hkind

/-- Whether traces are minable does not depend on the numbers that are given out. -/
theorem Minable.translation (h : Minable config s l) (hs : ∀ t ∈ l, Sees config s t) (hs' : ∀ t ∈ l, Sees config s' t) :
    Minable config s' l := by
  have htree : ∀ t ∈ l, ∀ root' ∈ tree? config s' t, ∃ root ∈ tree? config s t,
      root' = root.relabel (LabelState.translation s s') := by
    intro t ht root' hroot'
    rw [(tree?_translation (hs t ht) (hs' t ht)).1] at hroot'
    obtain ⟨root, hroot, rfl⟩ := Option.map_eq_some_iff.mp hroot'
    exact ⟨root, hroot, rfl⟩
  refine ⟨h.orderable, fun t ht root' hroot' => ?_, fun t ht t' ht' root' hroot' root'' hroot'' => ?_⟩
  · obtain ⟨root, hroot, rfl⟩ := htree t ht root' hroot'
    rw [levels_relabel]
    exact List.forall_mem_map.mpr fun u hu => hasBytes_relabel (h.bytes t ht root hroot u hu)
  · obtain ⟨root, hroot, rfl⟩ := htree t ht root' hroot'
    obtain ⟨root₂, hroot₂, rfl⟩ := htree t' ht' root'' hroot''
    rw [label_relabel, label_relabel, h.roots t ht t' ht' root hroot root₂ hroot₂]

theorem Minable.perm (h : Minable config s l) (hl : l.Perm l') : Minable config s l' where
  orderable := fun t ht => h.orderable t (hl.mem_iff.mpr ht)
  bytes := fun t ht => h.bytes t (hl.mem_iff.mpr ht)
  roots := fun t ht t' ht' => h.roots t (hl.mem_iff.mpr ht) t' (hl.mem_iff.mpr ht')

theorem minable_of_perm (hl : l.Perm l') (h : Minable config (labelsAfter config ∅ l) l) :
    Minable config (labelsAfter config ∅ l') l' :=
  (h.translation sees_labelsAfter fun _ ht => sees_labelsAfter _ (hl.mem_iff.mp ht)).perm hl

/-- What a run adds is what the trees of its traces add, with the names that were given out in the end. -/
theorem Run.runAdditions_eq (hrun : Run m events m') (hm : m.tokens? = none) :
    runAdditions events =
      (events.map Prod.fst).flatMap fun t => (Miner.tree? m.config m'.labels t).toList.flatMap treeAdditions := by
  rw [runAdditions, List.flatMap_map]
  refine List.flatMap_congr fun e he => ?_
  rw [hrun.tree? hm (.refl _) e he]

/-- The tree of one trace adds the same in both states, up to the names. -/
theorem Run.additions_translation (hrun : Run (new config none) events m) {s' : LabelState} {t : Trace}
    (ht : t ∈ events.map Prod.fst) (hsees : Sees config m.labels t) (hsees' : Sees config s' t) :
    ((Miner.tree? config s' t).toList.flatMap treeAdditions =
      ((Miner.tree? config m.labels t).toList.flatMap treeAdditions).map
        (relabelAddition (LabelState.translation m.labels s'))) ∧
    ∀ a ∈ (Miner.tree? config m.labels t).toList.flatMap treeAdditions, AdditionIn (commonNames m.labels s') a := by
  obtain ⟨htranslated, hlabels⟩ := tree?_translation hsees hsees'
  obtain ⟨⟨t, root?⟩, he, rfl⟩ := List.mem_map.mp ht
  have heq : root? = Miner.tree? config m.labels t := hrun.tree? rfl (.refl _) _ he
  have hgrown := hrun.grown rfl _ he
  rw [htranslated, ← heq]
  rw [← heq] at hlabels
  rcases root? with - | root
  · exact ⟨rfl, fun a ha => absurd ha List.not_mem_nil⟩
  · obtain ⟨hadditions, hnames⟩ := treeAdditions_translation
      (fun u hu => ((hgrown root rfl).1.of_mem_levels hu).marked) (hlabels root rfl)
    rw [Option.map_some, Option.toList_some, Option.toList_some, List.flatMap_singleton, List.flatMap_singleton]
    exact ⟨hadditions, hnames⟩

/-- The grammars of two runs with the same traces. -/
theorem Run.sameUpTo (hrun : Run (new config none) events m) (hrun' : Run (new config none) events' m')
    (hl : (events.map Prod.fst).Perm (events'.map Prod.fst)) :
    SameUpTo (LabelState.translation m.labels m'.labels) m.grammar m'.grammar := by
  have hsees : ∀ t ∈ events.map Prod.fst, Sees config m.labels t ∧ Sees config m'.labels t := by
    intro t ht
    rw [hrun.labels rfl, hrun'.labels rfl]
    exact ⟨sees_labelsAfter t ht, sees_labelsAfter t (hl.mem_iff.mp ht)⟩
  have htree := fun t ht => hrun.additions_translation ht (hsees t ht).1 (hsees t ht).2
  refine (hrun.mines rfl looped_empty).sameUpTo (hrun'.mines rfl looped_empty) ?_ (injOn_translation _ _)
    (Origin.translation_name (q := .start) trivial trivial) fun a' => ?_
  · rw [hrun.runAdditions_eq rfl]
    intro a ha
    obtain ⟨t, ht, ha⟩ := List.mem_flatMap.mp ha
    exact (htree t ht).2 a ha
  · rw [hrun.runAdditions_eq rfl, hrun'.runAdditions_eq rfl]
    constructor
    · intro ha'
      obtain ⟨t, ht', ha'⟩ := List.mem_flatMap.mp ha'
      have ht := hl.mem_iff.mpr ht'
      rw [show (new config none).config = config from rfl, (htree t ht).1] at ha'
      obtain ⟨a, ha, rfl⟩ := List.mem_map.mp ha'
      exact ⟨a, List.mem_flatMap.mpr ⟨t, ht, ha⟩, rfl⟩
    · rintro ⟨a, ha, rfl⟩
      obtain ⟨t, ht, ha⟩ := List.mem_flatMap.mp ha
      refine List.mem_flatMap.mpr ⟨t, hl.mem_iff.mp ht, ?_⟩
      rw [show (new config none).config = config from rfl, (htree t ht).1]
      exact List.mem_map_of_mem ha

/-- The grammar that is mined from traces does not depend on their order: all calls succeed in one order if they do
in another, and then the two grammars are the same up to the names of the nonterminals and the order of the
definitions and their alternatives, so the start symbol derives the same words. -/
theorem run_of_perm (hl : l.Perm l') :
    ((∃ events m, events.map Prod.fst = l ∧ Run (new config none) events m) ↔
      ∃ events m, events.map Prod.fst = l' ∧ Run (new config none) events m) ∧
    ∀ events events' m m', events.map Prod.fst = l → events'.map Prod.fst = l' →
      Run (new config none) events m → Run (new config none) events' m' →
      (∃ f, SameUpTo f m.grammar m'.grammar) ∧
        ∀ w, InLanguage m.grammar startName w ↔ InLanguage m'.grammar startName w := by
  constructor
  · rw [exists_run_iff, exists_run_iff]
    exact ⟨minable_of_perm hl, minable_of_perm hl.symm⟩
  · rintro events events' m m' rfl rfl hrun hrun'
    have hsame := hrun.sameUpTo hrun' hl
    have hsame' := hrun'.sameUpTo hrun hl.symm
    refine ⟨⟨_, hsame⟩, fun w => ⟨fun hw => ?_, fun hw => ?_⟩⟩
    · exact hsame.start ▸ hsame.inLanguage hw
    · exact hsame'.start ▸ hsame'.inLanguage hw

/-- Do all calls for the traces succeed, one after the other? -/
def succeeds : Miner → List Trace → Bool
  | _, [] => true
  | m, t :: rest =>
    match m.addTrace t with
    | (.ok _, m) => succeeds m rest
    | (.error _, _) => false

theorem exists_run_of_succeeds (h : succeeds m l = true) : ∃ events m', events.map Prod.fst = l ∧ Run m events m' := by
  induction l generalizing m with
  | nil => exact ⟨[], m, rfl, .nil⟩
  | cons t l ih =>
    rw [succeeds] at h
    rcases hadd : m.addTrace t with ⟨e | root?, m₁⟩
    · simp only [hadd] at h
      cases h
    · simp only [hadd] at h
      obtain ⟨events, m', hevents, hrun⟩ := ih h
      exact ⟨(t, root?) :: events, m', congrArg _ hevents, .add hadd hrun⟩

/-- A trace that reads a letter in a loop, and another one in a function that is called from the given place. -/
def readsFrom (callsite : String) (letter : UInt32) : Trace where
  positions :=
    [⟨[1], [[⟨"main", "0", [⟨"loop", 0⟩]⟩]], [97]⟩, ⟨[2], [[⟨"main", "0", []⟩, ⟨"helper", callsite, []⟩]], [letter]⟩]
  nonempty := List.cons_ne_nil _ _
  consistent := by simp [PositionRecord.Consistent]
  size_le := (by decide : 2 ≤ UInt64.size)

/-- The two calls of the helper are numbered the other way round if the traces are swapped. -/
theorem run_swapped : ∃ events events' m m', Run (new {} none) events m ∧ Run (new {} none) events' m' ∧
    events.map Prod.fst = [readsFrom "1" 98, readsFrom "2" 99] ∧
    events'.map Prod.fst = [readsFrom "2" 99, readsFrom "1" 98] ∧
    (∃ f, SameUpTo f m.grammar m'.grammar) ∧
      ∀ w, InLanguage m.grammar startName w ↔ InLanguage m'.grammar startName w := by
  have hsucceeds : succeeds (new {} none) [readsFrom "1" 98, readsFrom "2" 99] = true := by decide +kernel
  obtain ⟨events, m, hevents, hrun⟩ := exists_run_of_succeeds hsucceeds
  obtain ⟨hiff, hsame⟩ := @run_of_perm {} _ _ (.swap (readsFrom "2" 99) (readsFrom "1" 98) [])
  obtain ⟨events', m', hevents', hrun'⟩ := hiff.mp ⟨events, m, hevents, hrun⟩
  exact ⟨events, events', m, m', hrun, hrun', hevents, hevents', hsame events events' m m' hevents hevents' hrun hrun'⟩

end Miner

end GrammarInference
