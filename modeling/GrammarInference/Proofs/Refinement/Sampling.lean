/-
GrammarInference/Proofs/Refinement/Sampling.lean

Samples are derived from the grammar that they were sampled from.

Design.  Whatever the oracle says, it is only asked about strings that the generator derived.  The questions of a
round and the answers to them are its log, which follows the loop batch by batch; every question of the log is in
the language of the start symbol, and every input of a sample is a question of the log.  No property of the oracle
or its state is used.
-/
import GrammarInference.Proofs.Derivation.Generator
import GrammarInference.Proofs.Refinement.Log
import GrammarInference.Refinement.Sampling

namespace GrammarInference

namespace Sampling

variable {σ : Type} {g : Grammar} {gen gen' : Generator}

/-- All strings of the list are derived from the start symbol. -/
def AllDerived (g : Grammar) (l : List String) : Prop :=
  ∀ w ∈ l, Grammar.InLanguage g startName w.toList

/-- A batch holds derived strings. -/
theorem drawBatch_spec {deadline : Deadline} {wanted : Nat} {batch : List String} (hgen : gen.Offers g)
    (h : drawBatch deadline wanted gen = (.ok batch, gen')) : AllDerived g batch ∧ gen'.Offers g := by
  induction wanted generalizing gen batch with
  | zero =>
    cases h
    exact ⟨fun w hw => absurd hw List.not_mem_nil, hgen⟩
  | succ wanted ih =>
    obtain ⟨hoffers, hderived⟩ := Generator.generateString_spec hgen startName deadline
    rw [drawBatch] at h
    rcases hs : gen.generateString startName deadline with ⟨e | w, gen₁⟩
    · rw [hs] at h hoffers
      cases e with
      -- an attempt that was interrupted draws nothing
      | interrupted => exact ih hoffers h
      | _ => cases h
    · rw [hs] at h hoffers hderived
      rcases hrest : drawBatch deadline wanted gen₁ with ⟨e | rest, gen₂⟩
      · simp only [hrest] at h
        cases h
      · simp only [hrest] at h
        cases h
        obtain ⟨hall, hoffers'⟩ := ih hoffers hrest
        exact ⟨List.forall_mem_cons.mpr ⟨hderived w rfl, hall⟩, hoffers'⟩

/-! ### Classified inputs -/

/-- The input is accepted or rejected in the sample. -/
def Classifies (sample : Sample) (w : String) : Prop := w ∈ sample.valid ∨ w ∈ sample.invalid

/-- A verdict classifies no input but the one that it is about. -/
theorem classifies_record {sample : Sample} {input w : String} {v : Verdict}
    (h : Classifies (sample.record input v).1 w) : Classifies sample w ∨ w = input := by
  cases v with
  | accept =>
    rcases h with h | h
    · exact (SortedSet.mem_insert.mp h).symm.imp .inl id
    · exact .inl (.inr h)
  | reject =>
    rcases h with h | h
    · exact .inl (.inl h)
    · exact (SortedSet.mem_insert.mp h).symm.imp .inr id
  | inconclusive => exact .inl h

theorem classifies_recordAll {l : Oracle.Log} {t : Tally} {w : String} (h : Classifies (recordAll t l).sample w) :
    Classifies t.sample w ∨ w ∈ l.map Prod.fst := by
  induction l generalizing t with
  | nil => exact .inl h
  | cons p l ih =>
    rcases ih h with hw | hw
    · rcases classifies_record hw with hw | rfl
      · exact .inl hw
      · exact .inr List.mem_cons_self
    · exact .inr (List.mem_cons_of_mem _ hw)

/-! ### The log of a round -/

/-- What is asked until the round is finished, and the answers. -/
def log (oracle : Oracle σ) (config : RefinementConfig) (cancelled : Bool) :
    Nat → Generator → Tally → σ → Oracle.Log
  | 0, _, _, _ => []
  | fuel + 1, gen, t, s =>
    if !isUnfinished config t || cancelled then []
    else
      let wanted := batchSize config t
      match drawBatch (Deadline.orCancelled (.after config.generationTimeout) cancelled) wanted gen with
      | (.error _, _) => []
      | (.ok batch, gen) =>
        oracle.logOf batch s ++
          log oracle config cancelled fuel gen
            (recordAll { t with attempts := t.attempts + wanted } (oracle.logOf batch s)) (oracle.classifyAll batch s).2

/-- A round asks what is in its log, all of it derived, and classifies nothing else. -/
theorem run_spec {oracle : Oracle σ} {config : RefinementConfig} {cancelled : Bool} {fuel : Nat} {t : Tally}
    {s s' : σ} {result : Except Error Tally} (hgen : gen.Offers g)
    (h : run oracle config cancelled fuel gen t s = (result, s')) :
    oracle.Answers (log oracle config cancelled fuel gen t s) s s' ∧
      AllDerived g ((log oracle config cancelled fuel gen t s).map Prod.fst) ∧
      ∀ t', result = .ok t' → ∀ w, Classifies t'.sample w →
        Classifies t.sample w ∨ w ∈ (log oracle config cancelled fuel gen t s).map Prod.fst := by
  induction fuel generalizing gen t s with
  | zero =>
    cases h
    refine ⟨rfl, nofun, fun t' ht' w hw => ?_⟩
    cases ht'
    exact .inl hw
  | succ fuel ih =>
    rw [run] at h
    rw [log]
    split at h
    · rename_i hdone
      cases h
      rw [if_pos hdone]
      refine ⟨rfl, nofun, fun t' ht' w hw => ?_⟩
      cases ht'
      exact .inl hw
    · rename_i hmore
      rw [if_neg hmore]
      rcases hbatch : drawBatch (Deadline.orCancelled (.after config.generationTimeout) cancelled)
        (batchSize config t) gen with ⟨e | batch, gen₁⟩
      · simp only [hbatch] at h ⊢
        cases h
        exact ⟨rfl, nofun, nofun⟩
      · simp only [hbatch] at h ⊢
        obtain ⟨hall, hoffers⟩ := drawBatch_spec hgen hbatch
        obtain ⟨hanswers, hderived, hclassified⟩ := ih hoffers h
        refine ⟨(oracle.answers_logOf batch s).append hanswers, ?_, fun t' ht' w hw => ?_⟩
        · rw [List.map_append, Oracle.map_fst_logOf]
          exact List.forall_mem_append.mpr ⟨hall, hderived⟩
        · rw [List.map_append, List.mem_append, ← or_assoc]
          -- the inputs that are judged are those of the batch
          refine (hclassified t' ht' w hw).imp_left fun hw => ?_
          exact classifies_recordAll (t := { t with attempts := t.attempts + batchSize config t }) hw

end Sampling

section Samples

variable {σ : Type} {g : Grammar} {oracle : Oracle σ} {config : RefinementConfig} {seed : Nat} {cancelled : Bool}
  {s s' : σ}

/-- What is asked to sample a grammar, and the answers. -/
def sampleLog (g : Grammar) (oracle : Oracle σ) (config : RefinementConfig) (seed : Nat) (cancelled : Bool) (s : σ) :
    Oracle.Log :=
  Sampling.log oracle config cancelled (Sampling.budget config) (.new g config.maxDepth seed) ⟨.empty, 0, 0⟩ s

/-- Once it is cancelled, nothing is sampled. -/
theorem sampleAndClassify_cancelled (g : Grammar) (oracle : Oracle σ) (config : RefinementConfig) (seed : Nat) (s : σ) :
    sampleAndClassify g oracle config seed true s = (.ok .empty, s) := by
  rw [sampleAndClassify]
  cases Sampling.budget config with
  | zero => rfl
  | succ fuel =>
    rw [Sampling.run, if_pos (Bool.or_true _)]
    rfl

/-- Sampling asks what is in its log, all of it derived, and classifies nothing else. -/
theorem sampleAndClassify_log {result : Except Error Sample}
    (h : sampleAndClassify g oracle config seed cancelled s = (result, s')) :
    oracle.Answers (sampleLog g oracle config seed cancelled s) s s' ∧
      Sampling.AllDerived g ((sampleLog g oracle config seed cancelled s).map Prod.fst) ∧
      ∀ sample, result = .ok sample → ∀ w, Sampling.Classifies sample w →
        w ∈ (sampleLog g oracle config seed cancelled s).map Prod.fst := by
  rw [sampleAndClassify] at h
  rcases hrun : Sampling.run oracle config cancelled (Sampling.budget config) (.new g config.maxDepth seed)
    ⟨.empty, 0, 0⟩ s with ⟨result', s₁⟩
  simp only [hrun] at h
  cases h
  obtain ⟨hanswers, hderived, hclassified⟩ := Sampling.run_spec (Generator.offers_new g config.maxDepth seed) hrun
  refine ⟨hanswers, hderived, fun sample hsample w hw => ?_⟩
  rcases result' with e | t
  · cases hsample
  · cases hsample
    -- nothing is classified at the beginning
    exact (hclassified t rfl w hw).resolve_left (·.elim List.not_mem_nil List.not_mem_nil)

/-- The inputs of a sample are derived. -/
theorem sampleAndClassify_spec {sample : Sample}
    (h : sampleAndClassify g oracle config seed cancelled s = (.ok sample, s')) :
    ∀ w, Sampling.Classifies sample w → Grammar.InLanguage g startName w.toList := by
  obtain ⟨-, hderived, hclassified⟩ := sampleAndClassify_log h
  exact fun w hw => hderived w (hclassified sample rfl w hw)

end Samples

end GrammarInference
