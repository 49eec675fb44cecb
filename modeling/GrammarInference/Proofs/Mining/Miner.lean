/-
GrammarInference/Proofs/Mining/Miner.lean

Mining never loses an observed input.

Design.  A run adds traces one after the other and records the tree that each call gives.  Each call keeps the
grammar mined and lets it grow (`addTrace_spec`), so the words of a tree are derived from the call on, until the
end of the run (`Run.spec`).  Every stage of finishing loses nothing: loops are mended, there are no tokens to
generalize since all functions were observed, and tidying and pruning keep what is derived (`finish_spec`).
-/
import GrammarInference.Proofs.Generalization.Generalizer
import GrammarInference.Proofs.Grammar.Tidy
import GrammarInference.Proofs.Mining.Loops
import GrammarInference.Proofs.Mining.Run
import GrammarInference.Proofs.Mining.Words
import GrammarInference.Proofs.Trace.Order

namespace GrammarInference

open Grammar

variable {g : Grammar}

/-! ### Names -/

theorem IsMinedName.isExternal_eq {n : String} (h : IsMinedName n) : isExternal n = false := by
  cases h with
  | start => decide
  | bucket k =>
    rw [isExternal, bucketLabel, String.toList_append, String.toList_append]
    rfl
  | observed ho => exact ho.isExternal_eq

/-- All functions of a trace were observed. -/
abbrev Trace.Observed (t : Trace) : Prop := t.Frames fun f => IsObserved f.callee

namespace Miner

variable {m m' : Miner} {t : Trace} {root? : Option ExecutionTree} {w : List Char}

/-! ### Adding a trace -/

/-- The miner reads bytes, and its grammar was mined from observed functions. -/
structure Sound (m : Miner) : Prop where
  /-- Values of buckets are bytes. -/
  bytes : m.tokens? = none
  /-- The grammar was mined. -/
  mined : Mined m.grammar

theorem sound_new (config : MinerConfig) : (new config none).Sound := ⟨rfl, mined_empty⟩

/-- Adding a trace loses nothing, and makes the words of its tree derivable. -/
theorem addTrace_spec (hm : m.Sound) (ht : t.Observed) (h : m.addTrace t = (.ok root?, m')) :
    m'.Sound ∧ Grows m.grammar m'.grammar ∧
      ∀ root ∈ root?, ∀ w, root.HasWord w → InLanguage m'.grammar startName w := by
  have hadded := (addTrace_eq_ok_iff hm.bytes).mp h
  have htokens := hadded.tokens?.trans hm.bytes
  cases hadded with
  | skipped _ | empty _ _ => exact ⟨⟨htokens, hm.mined⟩, .refl _, fun root hroot => nomatch hroot⟩
  | built horder hbuild hextract =>
    have hroot := ExecutionTree.build_wellFormed (frames_orderTrace ht horder) (congrArg Prod.fst hbuild)
    obtain ⟨hmines, hmined⟩ := hm.mined.extractInto hroot.1 hextract
    refine ⟨⟨htokens, hmined⟩, hmines.grows, fun root' hroot' => ?_⟩
    cases hroot'
    exact fun w hw => inLanguage_of_extractInto hmines hroot.1 hroot.2 hw

/-! ### Runs -/

/-- Along a run nothing is lost, and the words of all trees become derivable. -/
theorem Run.spec {events : List (Trace × Option ExecutionTree)} (hrun : Run m events m') (hm : m.Sound)
    (hobserved : ∀ e ∈ events, e.1.Observed) :
    m'.Sound ∧ Grows m.grammar m'.grammar ∧
      ∀ e ∈ events, ∀ root ∈ e.2, ∀ w, root.HasWord w → InLanguage m'.grammar startName w := by
  induction hrun with
  | nil => exact ⟨hm, .refl _, fun e he => absurd he List.not_mem_nil⟩
  | add hadd _ ih =>
    obtain ⟨ht, hobserved⟩ := List.forall_mem_cons.mp hobserved
    obtain ⟨hm₁, hgrows, hwords⟩ := addTrace_spec hm ht hadd
    obtain ⟨hm', hgrows', hrest⟩ := ih hm₁ hobserved
    refine ⟨hm', hgrows.trans hgrows', List.forall_mem_cons.mpr ⟨?_, hrest⟩⟩
    exact fun root hroot w hw => hgrows'.includedIn.inLanguage (hwords root hroot w hw)

/-! ### Finishing -/

/-- Pruned as it is or tidied first, a grammar derives no less from the start symbol. -/
theorem inLanguage_pruneUnreachable_tidied (hw : InLanguage g startName w) :
    InLanguage (g.pruneUnreachable startName) startName w ∧ ∀ passes rounds g', tidyWithin passes rounds g = some g' →
      InLanguage (Grammar.pruneUnreachable g' startName) startName w := by
  constructor
  · exact inLanguage_pruneUnreachable_iff.mpr hw
  · intro passes rounds g' htidy
    exact inLanguage_pruneUnreachable_iff.mpr ((tidyWithin_includedIn htidy).inLanguage hw)

theorem polish_spec {g' : Grammar} (h : m.polish g = .ok g') (hw : InLanguage g startName w) :
    InLanguage g' startName w := by
  obtain ⟨hplain, htidied⟩ := inLanguage_pruneUnreachable_tidied hw
  rw [polish] at h
  rcases htidy : (if m.config.simplify then Grammar.tidy g else some g) with - | g₁
  · simp only [htidy] at h
    cases h
  · have hpruned : InLanguage (Grammar.pruneUnreachable g₁ startName) startName w := by
      split at htidy
      · exact htidied _ _ g₁ htidy
      · cases htidy
        exact hplain
    simp only [htidy] at h
    split at h
    · cases h
    · cases h
      exact hpruned

/-- The tokens of a mined grammar are generalized by leaving it as it is. -/
theorem Sound.withTokens_eq (hm : m.Sound) (hg : ∀ n, g.contains n = true → IsMinedName n) :
    m.withTokens g = .ok g := by
  rw [withTokens, hm.bytes]
  exact Generalizer.generalize_of_not_external fun n hn => (hg n hn).isExternal_eq

/-- The grammar with its loops mended has no tokens to generalize, and derives no less. -/
theorem Sound.fixLoops_spec (hm : m.Sound) : m.withTokens (fixLoops m.grammar).1 = .ok (fixLoops m.grammar).1 ∧
    IncludedIn m.grammar (fixLoops m.grammar).1 := by
  obtain ⟨hfixed, hnames⟩ := GrammarInference.fixLoops_spec hm.mined.loops
  exact ⟨hm.withTokens_eq fun n hn => hm.mined.names n (hnames n hn), hfixed⟩

/-- Finishing loses nothing. -/
theorem finish_spec {directories : List String} {files : List File} (hm : m.Sound)
    (h : m.finish directories = (.ok g, files)) (hw : InLanguage m.grammar startName w) :
    InLanguage g startName w := by
  obtain ⟨htokens, hfixed⟩ := hm.fixLoops_spec
  rw [finish] at h
  split at h
  · cases h
  · rcases hkept : ((m.snapshots directories).save "raw_grammar.json" m.grammar).bind fun s =>
      s.save "loop_fixed_grammar.json" (fixLoops m.grammar).1 with e | s
    · simp only [hkept] at h
      cases h
    · simp only [hkept, htokens] at h
      split at h
      · cases h
      · obtain ⟨hpolish, -⟩ := Prod.mk.inj h
        exact polish_spec hpolish (hfixed.inLanguage hw)

/-- **Mining never loses an observed input.**  The words of every tree that a run gave are derivable from then on, and
in the final grammar.  They are derivable from the generalized grammar too, pruned as it is or tidied first, whatever
the numbers of passes and rounds after which tidying would be cut off. -/
theorem run_never_loses {config : MinerConfig} {events : List (Trace × Option ExecutionTree)}
    (hrun : Run (new config none) events m) (hobserved : ∀ e ∈ events, e.1.Observed) {root : ExecutionTree}
    (hroot : (t, some root) ∈ events) (hw : root.HasWord w) :
    InLanguage m.grammar startName w ∧
      (∀ directories g files, m.finish directories = (.ok g, files) → InLanguage g startName w) ∧
      ∃ g, m.withTokens (fixLoops m.grammar).1 = .ok g ∧ InLanguage (g.pruneUnreachable startName) startName w ∧
        ∀ passes rounds g', tidyWithin passes rounds g = some g' →
          InLanguage (Grammar.pruneUnreachable g' startName) startName w := by
  obtain ⟨hm, -, hwords⟩ := hrun.spec (sound_new config) hobserved
  have hraw : InLanguage m.grammar startName w := hwords (t, some root) hroot root rfl w hw
  obtain ⟨htokens, hfixed⟩ := hm.fixLoops_spec
  exact ⟨hraw, fun directories g files hfinish => finish_spec hm hfinish hraw, _, htokens,
    inLanguage_pruneUnreachable_tidied (hfixed.inLanguage hraw)⟩

/-- A trace with two iterations of a loop, the first of which reads one of two letters. -/
def letters : Trace where
  positions :=
    [⟨[1], [[⟨"main", "0", [⟨"loop", 0⟩]⟩]], [97, 98]⟩, ⟨[2], [[⟨"main", "0", [⟨"loop", 1⟩]⟩]], [99]⟩]
  nonempty := List.cons_ne_nil _ _
  consistent := by simp [PositionRecord.Consistent]
  size_le := by decide

/-- The call gives a tree with these buckets, and the miner can be finished after it. -/
def gives (buckets : List (List Nat)) : Except Error (Option ExecutionTree) × Miner → Bool
  | (.ok (some root), m) => decide (root.buckets = buckets) && (m.finish []).1.isOk
  | _ => false

theorem exists_of_gives {buckets : List (List Nat)} (h : gives buckets (m.addTrace t) = true) :
    ∃ root m' g files, m.addTrace t = (.ok (some root), m') ∧ root.buckets = buckets ∧
      m'.finish [] = (.ok g, files) := by
  rcases hadd : m.addTrace t with ⟨e | - | root, m'⟩
  · rw [hadd] at h
    cases h
  · rw [hadd] at h
    cases h
  · rw [hadd, gives, Bool.and_eq_true, decide_eq_true_eq] at h
    obtain ⟨hbuckets, hdone⟩ := h
    rcases hfinish : m'.finish [] with ⟨e | g, files⟩
    · rw [hfinish] at hdone
      cases hdone
    · exact ⟨root, m', g, files, rfl, hbuckets, hfinish⟩

/-- The call for that trace gives a tree with two buckets, and the miner can be finished. -/
theorem addTrace_letters : ∃ root m g files, (new {} none).addTrace letters = (.ok (some root), m) ∧
    root.buckets = [[97, 98], [99]] ∧ m.finish [] = (.ok g, files) := by
  refine exists_of_gives ?_
  decide +kernel

/-- The second letter of the first bucket, and the one of the second, are a word of the final grammar, and of the
generalized one before it is tidied. -/
theorem run_letters : ∃ m g files, (∃ root, Run (new {} none) [(letters, some root)] m) ∧
    m.finish [] = (.ok g, files) ∧ InLanguage m.grammar startName ['b', 'c'] ∧
      InLanguage g startName ['b', 'c'] ∧ ∃ g', m.withTokens (fixLoops m.grammar).1 = .ok g' ∧
        InLanguage (g'.pruneUnreachable startName) startName ['b', 'c'] := by
  obtain ⟨root, m, g, files, hadd, hbuckets, hfinish⟩ := addTrace_letters
  have hobserved : ∀ e ∈ [(letters, some root)], e.1.Observed := by
    refine List.forall_mem_singleton.mpr ?_
    show letters.Observed
    decide
  have hword : root.HasWord ['b', 'c'] := by
    rw [ExecutionTree.HasWord, hbuckets]
    exact .take (v := 98) (by decide) (.take (v := 99) (by decide) .nil)
  obtain ⟨hraw, hfinal, g', htokens, hplain, -⟩ :=
    run_never_loses (.add hadd .nil) hobserved (List.mem_singleton_self _) hword
  exact ⟨m, g, files, ⟨root, .add hadd .nil⟩, hfinish, hraw, hfinal [] g files hfinish, g', htokens, hplain⟩

end Miner

end GrammarInference
