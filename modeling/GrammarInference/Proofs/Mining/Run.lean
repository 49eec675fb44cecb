/-
GrammarInference/Proofs/Mining/Run.lean

What the calls that add traces do to a miner of bytes.

Design.  A call that does not fail skips its trace, or finds no position in it, or builds a tree and extracts it
(`Added`).  So after a run of such calls the grammar has what it had before and what all the trees add, and
nothing else (`Run.mines`).
-/
import GrammarInference.Mining.Miner
import GrammarInference.Proofs.Execution.Build
import GrammarInference.Proofs.Mining.Extraction

namespace GrammarInference

open Grammar

/-- A node that was built has the mark of its kind. -/
theorem ExecutionTree.Grown.marked {P : String → Prop} {t : ExecutionTree} (h : t.Grown P) : Marked t := by
  cases h with
  | bucket k values => exact mark_bucketLabel k
  | step _ _ _ _ _ => exact mark_label _

theorem ExecutionTree.Grown.of_mem_levels {P : String → Prop} {t u : ExecutionTree} (h : t.Grown P)
    (hu : u ∈ t.levels) : u.Grown P := by
  refine forall_mem_breadthFirst (fun v hv c hc => ?_) (List.forall_mem_singleton.mpr h) u hu
  cases hv with
  | bucket k values => exact absurd hc List.not_mem_nil
  | step _ hts _ _ _ => exact hts c hc

namespace Miner

variable {m m' m'' : Miner} {t : Trace} {root? : Option ExecutionTree}

theorem mode_eq_bytes (h : m.tokens? = none) : m.mode = .bytes := by
  rw [mode, h]

/-- What a call that does not fail does with its trace, and the tree that it gives. -/
inductive Added (m : Miner) (t : Trace) : Option ExecutionTree → Miner → Prop
  | skipped {rounds : Nat} : orderTrace t m.config.order = .error (.unorderableTrace rounds) →
      Added m t none { m with stats := { m.stats with skipped := m.stats.skipped + 1 } }
  | empty {o : OrderedTrace} {labels : LabelState} : orderTrace t m.config.order = .ok o →
      ExecutionTree.build o m.labels m.config.context false = (none, labels) →
      Added m t none { m with labels := labels, stats := countTrace m.stats o }
  | built {o : OrderedTrace} {labels : LabelState} {root : ExecutionTree} {g : Grammar} :
      orderTrace t m.config.order = .ok o →
      ExecutionTree.build o m.labels m.config.context false = (some root, labels) →
      extractInto .bytes m.grammar root = (g, .ok ()) →
      Added m t (some root) { m with labels := labels, stats := countTrace m.stats o, grammar := g }

theorem addTrace_eq_ok_iff (hm : m.tokens? = none) : m.addTrace t = (.ok root?, m') ↔ Added m t root? m' := by
  rw [addTrace]
  have hkeep : m.tokens?.isSome = false := by rw [hm]; rfl
  constructor
  · intro h
    rcases horder : orderTrace t m.config.order with e | o
    · simp only [horder] at h
      cases e <;> cases h
      exact .skipped horder
    · simp only [horder, hkeep] at h
      rcases hbuild : ExecutionTree.build o m.labels m.config.context false with ⟨- | root, labels⟩
      · simp only [hbuild] at h
        cases h
        exact .empty horder hbuild
      · simp only [hbuild] at h
        have hmode : mode { m with labels := labels, stats := countTrace m.stats o } = .bytes := mode_eq_bytes hm
        rw [hmode] at h
        rcases hextract : extractInto .bytes m.grammar root with ⟨g, e | ⟨⟩⟩
        · rw [hextract] at h
          cases h
        · rw [hextract] at h
          cases h
          exact .built horder hbuild hextract
  · intro h
    cases h with
    | skipped horder => simp only [horder]
    | empty horder hbuild => simp only [horder, hkeep, hbuild]
    | @built o labels root g horder hbuild hextract =>
      have hmode : mode { m with labels := labels, stats := countTrace m.stats o } = .bytes := mode_eq_bytes hm
      simp only [horder, hkeep, hbuild]
      rw [hmode, hextract]
      rfl

/-- The settings stay as they are. -/
theorem Added.config (h : Added m t root? m') : m'.config = m.config := by
  cases h <;> rfl

theorem Added.tokens? (h : Added m t root? m') : m'.tokens? = m.tokens? := by
  cases h <;> rfl

/-- The tree was built, from whatever functions. -/
theorem Added.grown (h : Added m t root? m') : ∀ root ∈ root?, root.Grown (fun _ => True) ∧ root.kind ≠ .iteration := by
  cases h with
  | skipped _ | empty _ _ => exact fun root hroot => nomatch hroot
  | built _ hbuild _ =>
    intro root hroot
    cases hroot
    exact ExecutionTree.build_grown (fun _ _ _ _ => trivial) (congrArg Prod.fst hbuild)

/-- The call adds what its tree adds. -/
theorem Added.mines (h : Added m t root? m') (hg : Looped m.grammar) :
    Mines m.grammar (root?.toList.flatMap treeAdditions) m'.grammar := by
  have hgrown := h.grown
  cases h with
  | skipped _ | empty _ _ => exact .refl _
  | built _ _ hextract =>
    have hroot := (hgrown _ rfl).1
    rw [Option.toList_some, List.flatMap_singleton]
    exact extractInto_spec hg (fun u hu => (hroot.of_mem_levels hu).marked) hextract

/-! ### Runs -/

/-- `Run m events m'`: the calls for the traces of `events`, one after the other, lead from `m` to `m'`; none of
them fails, and each gives the tree that stands with its trace. -/
inductive Run : Miner → List (Trace × Option ExecutionTree) → Miner → Prop
  | nil {m : Miner} : Run m [] m
  | add {m m₁ m' : Miner} {t root? rest} : m.addTrace t = (.ok root?, m₁) → Run m₁ rest m' →
      Run m ((t, root?) :: rest) m'

theorem Run.tokens? {events : List (Trace × Option ExecutionTree)} (hrun : Run m events m') (hm : m.tokens? = none) :
    m'.tokens? = none := by
  induction hrun with
  | nil => exact hm
  | add hadd _ ih => exact ih (((addTrace_eq_ok_iff hm).mp hadd).tokens?.trans hm)

/-- What the trees of a run add. -/
def runAdditions (events : List (Trace × Option ExecutionTree)) : List Addition :=
  events.flatMap fun e => e.2.toList.flatMap treeAdditions

/-- A run adds what its trees add. -/
theorem Run.mines {events : List (Trace × Option ExecutionTree)} (hrun : Run m events m') (hm : m.tokens? = none)
    (hg : Looped m.grammar) : Mines m.grammar (runAdditions events) m'.grammar := by
  induction hrun with
  | nil => exact .refl _
  | add hadd _ ih =>
    have hadded := (addTrace_eq_ok_iff hm).mp hadd
    have hmines := hadded.mines hg
    exact hmines.trans (ih (hadded.tokens?.trans hm) (hmines.looped hg))

/-- The trees of a run were built. -/
theorem Run.grown {events : List (Trace × Option ExecutionTree)} (hrun : Run m events m') (hm : m.tokens? = none) :
    ∀ e ∈ events, ∀ root ∈ e.2, root.Grown (fun _ => True) ∧ root.kind ≠ .iteration := by
  induction hrun with
  | nil => exact fun e he => absurd he List.not_mem_nil
  | add hadd _ ih =>
    have hadded := (addTrace_eq_ok_iff hm).mp hadd
    exact List.forall_mem_cons.mpr ⟨hadded.grown, ih (hadded.tokens?.trans hm)⟩

end Miner

end GrammarInference
