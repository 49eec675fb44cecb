/-
GrammarInference/Proofs/Refinement/Batches.lean

The budget of a round of sampling, and its counts.

Design.  A round goes on batch by batch, from one stage to the next: what the generator, the counts and the oracle
have come to.  What a batch does to the counts is said for one verdict (`Counts.record`) and carried to lists of
verdicts, and a stage is related to the log of all batches before it (`Accounts`).  Every batch uses up budget, so the
loop ends by its own condition.  A derivation that is interrupted uses up budget without a verdict, so that none is
interrupted is asked of the derivations of the round (`NeverInterrupted`); any time for a derivation but none at all
is enough for this.
-/
import GrammarInference.Proofs.Deadline.Effect
import GrammarInference.Proofs.Refinement.Productivity

namespace GrammarInference

namespace Generator

/-- A string is drawn, unless the derivation is interrupted. -/
theorem generateString_or_interrupted {g : Grammar} {gen : Generator} {n : String} (hgen : gen.IsFor g)
    (hn : ∃ w, Grammar.InLanguage g n w) (d : Deadline) :
    (d.hasPassed = true ∧ (gen.generateString n d).1 = .error .interrupted) ∨
      ∃ w gen', gen.generateString n d = (.ok w, gen') ∧ gen'.IsFor g := by
  have hends : CanEnd g n none := hn
  obtain ⟨id, arena, gen', -, hnever, hgen', -⟩ := generate_of_canEnd hgen (contains_of_canEnd hends) ∅ hends
  rcases hd : d.hasPassed with - | -
  · obtain rfl : d = .never := by
      cases d with
      | never => rfl
      | expired => cases hd
    exact .inr ⟨arena.yieldString id, gen', by rw [generateString, hnever], hgen'⟩
  · have hpassed := generate_of_hasPassed hd hnever
    split at hpassed
    · refine .inl ⟨rfl, ?_⟩
      rw [generateString]
      rcases h : gen.generate ∅ n none d with ⟨e | id', arena', gen''⟩
      · rw [h] at hpassed
        cases hpassed
        rfl
      · rw [h] at hpassed
        cases hpassed
    · exact .inr ⟨arena.yieldString id, gen', by rw [generateString, hpassed], hgen'⟩

end Generator

namespace Sampling

variable {σ : Type} {g : Grammar} {gen gen' gen₁ : Generator} {d : Deadline} {k m n : Nat} {config : RefinementConfig}
  {oracle : Oracle σ}

/-! ### Derivations that are not interrupted -/

/-- None of the next `k` derivations from the start symbol is interrupted. -/
def Uninterrupted (d : Deadline) : Nat → Generator → Prop
  | 0, _ => True
  | k + 1, gen =>
    (gen.generateString startName d).1 ≠ .error .interrupted ∧ Uninterrupted d k (gen.generateString startName d).2

/-- Without a deadline no derivation is interrupted. -/
theorem uninterrupted_never (hgen : gen.IsFor g) (hg : ∃ w, Grammar.InLanguage g startName w) (k : Nat) :
    Uninterrupted .never k gen := by
  induction k generalizing gen with
  | zero => trivial
  | succ k ih =>
    rcases Generator.generateString_or_interrupted hgen hg .never with ⟨hpassed, -⟩ | ⟨w, gen', heq, hgen'⟩
    · cases hpassed
    · rw [Uninterrupted, heq]
      exact ⟨nofun, ih hgen'⟩

/-- If no derivation is interrupted, a batch has the size that is asked for. -/
theorem drawBatch_of_uninterrupted (hgen : gen.IsFor g) (hg : ∃ w, Grammar.InLanguage g startName w)
    (h : Uninterrupted d n gen) : ∃ batch gen', drawBatch d n gen = (.ok batch, gen') ∧ batch.length = n := by
  induction n generalizing gen with
  | zero => exact ⟨[], gen, rfl, rfl⟩
  | succ n ih =>
    obtain ⟨hone, hrest⟩ := h
    rcases Generator.generateString_or_interrupted hgen hg d with ⟨-, hstopped⟩ | ⟨w, gen₁, heq, hgen₁⟩
    · exact absurd hstopped hone
    · rw [heq] at hrest
      obtain ⟨batch, gen', hbatch, hlength⟩ := ih hgen₁ hrest
      refine ⟨w :: batch, gen', ?_, congrArg (· + 1) hlength⟩
      rw [drawBatch, heq]
      simp only [hbatch]

/-- Two batches that are drawn one after the other are one batch. -/
theorem drawBatch_append {batch batch' : List String} (h : drawBatch d m gen = (.ok batch, gen₁))
    (h' : drawBatch d n gen₁ = (.ok batch', gen')) : drawBatch d (m + n) gen = (.ok (batch ++ batch'), gen') := by
  induction m generalizing gen batch with
  | zero =>
    cases h
    rw [Nat.zero_add]
    exact h'
  | succ m ih =>
    rw [Nat.succ_add, drawBatch]
    rw [drawBatch] at h
    rcases hs : gen.generateString startName d with ⟨e | w, gen₂⟩
    · rw [hs] at h
      cases e with
      | interrupted => exact ih h
      | _ => cases h
    · rw [hs] at h
      simp only at h ⊢
      rcases hrest : drawBatch d m gen₂ with ⟨e | rest, gen₃⟩
      · rw [hrest] at h
        cases h
      · rw [hrest] at h
        cases h
        rw [ih hrest]
        rfl

/-! ### Counts -/

/-- The number of verdicts of one kind in a log. -/
def verdicts (v : Verdict) (log : Oracle.Log) : Nat := (log.map Prod.snd).count v

/-- The number of inputs that are classified in a log. -/
def classified (log : Oracle.Log) : Nat := verdicts .accept log + verdicts .reject log

theorem verdicts_append (v : Verdict) (log log' : Oracle.Log) :
    verdicts v (log ++ log') = verdicts v log + verdicts v log' := by
  rw [verdicts, List.map_append, List.count_append]
  rfl

theorem classified_append (log log' : Oracle.Log) : classified (log ++ log') = classified log + classified log' := by
  rw [classified, classified, classified, verdicts_append, verdicts_append]
  exact Nat.add_add_add_comm _ _ _ _

/-- Every verdict classifies its input or is inconclusive. -/
theorem classified_add_inconclusive (log : Oracle.Log) :
    classified log + verdicts .inconclusive log = log.length := by
  induction log with
  | nil => rfl
  | cons e log ih =>
    obtain ⟨w, v⟩ := e
    simp only [classified, verdicts, List.map_cons, List.length_cons] at ih ⊢
    cases v <;> simp <;> omega

/-- The counts and the inputs of a tally are those of a log. -/
structure Counts (t : Tally) (log : Oracle.Log) : Prop where
  /-- What is not inconclusive is counted. -/
  classified_eq : t.classified = classified log
  /-- What is inconclusive is counted. -/
  inconclusive_eq : t.sample.inconclusive = verdicts .inconclusive log
  /-- The valid inputs are those that were accepted. -/
  mem_valid_iff : ∀ w, w ∈ t.sample.valid ↔ (w, .accept) ∈ log
  /-- The invalid inputs are those that were rejected. -/
  mem_invalid_iff : ∀ w, w ∈ t.sample.invalid ↔ (w, .reject) ∈ log

theorem counts_empty : Counts ⟨.empty, 0, 0⟩ [] :=
  ⟨rfl, rfl, fun _ => ⟨nofun, nofun⟩, fun _ => ⟨nofun, nofun⟩⟩

/-- The number of derivations plays no part in the counts. -/
theorem Counts.withAttempts {t : Tally} {log : Oracle.Log} (h : Counts t log) (attempts : Nat) :
    Counts { t with attempts := attempts } log :=
  ⟨h.classified_eq, h.inconclusive_eq, h.mem_valid_iff, h.mem_invalid_iff⟩

/-- One more verdict. -/
theorem Counts.record {t : Tally} {log : Oracle.Log} (h : Counts t log) (input : String) (v : Verdict) :
    Counts (recordAll t [(input, v)]) (log ++ [(input, v)]) := by
  have hclassified : (recordAll t [(input, v)]).classified = t.classified + classified [(input, v)] := by
    cases v <;> rfl
  have hinconclusive : (recordAll t [(input, v)]).sample.inconclusive =
      t.sample.inconclusive + verdicts .inconclusive [(input, v)] := by
    cases v <;> rfl
  refine ⟨?_, ?_, fun w => ?_, fun w => ?_⟩
  · rw [hclassified, h.classified_eq, classified_append]
  · rw [hinconclusive, h.inconclusive_eq, verdicts_append]
  · rw [List.mem_append, List.mem_singleton, ← h.mem_valid_iff]
    cases v <;> simp [recordAll, Sample.record, or_comm]
  · rw [List.mem_append, List.mem_singleton, ← h.mem_invalid_iff]
    cases v <;> simp [recordAll, Sample.record, or_comm]

/-- The verdicts of a batch. -/
theorem Counts.recordAll {t : Tally} {log : Oracle.Log} (h : Counts t log) (batch : Oracle.Log) :
    Counts (recordAll t batch) (log ++ batch) := by
  induction batch generalizing t log with
  | nil => rwa [List.append_nil]
  | cons e batch ih =>
    have hrest := ih (h.record e.1 e.2)
    rwa [List.append_assoc] at hrest

theorem attempts_recordAll (t : Tally) (batch : Oracle.Log) : (recordAll t batch).attempts = t.attempts := by
  induction batch generalizing t with
  | nil => rfl
  | cons e batch ih => exact ih _

/-! ### From batch to batch -/

/-- What a round has come to between two batches. -/
structure Stage (σ : Type) where
  /-- The source of derivations. -/
  gen : Generator
  /-- The counts. -/
  tally : Tally
  /-- The state of the oracle. -/
  state : σ

/-- One batch: the round is not finished, the inputs are derived and put to the oracle, and its verdicts counted. -/
structure Batch (oracle : Oracle σ) (config : RefinementConfig) (a : Stage σ) (batch : Oracle.Log) (b : Stage σ) :
    Prop where
  /-- There is more to do. -/
  unfinished : isUnfinished config a.tally = true
  /-- The inputs are derived. -/
  drawn : drawBatch (.after config.generationTimeout) (batchSize config a.tally) a.gen =
    (.ok (batch.map Prod.fst), b.gen)
  /-- The oracle answers. -/
  answers : oracle.Answers batch a.state b.state
  /-- The answers are counted. -/
  tally_eq : b.tally = recordAll { a.tally with attempts := a.tally.attempts + batchSize config a.tally } batch

/-- The batches of a round so far, oldest first, and the stage that they lead to. -/
inductive Reaches (g : Grammar) (oracle : Oracle σ) (config : RefinementConfig) (seed : Nat) (s : σ) :
    List Oracle.Log → Stage σ → Prop
  | start : Reaches g oracle config seed s [] ⟨.new g config.maxDepth seed, ⟨.empty, 0, 0⟩, s⟩
  | batch {before batch a b} : Reaches g oracle config seed s before a → Batch oracle config a batch b →
    Reaches g oracle config seed s (before ++ [batch]) b

/-- No derivation of the round is interrupted, whatever batch it is for. -/
def NeverInterrupted (g : Grammar) (oracle : Oracle σ) (config : RefinementConfig) (seed : Nat) (s : σ) : Prop :=
  ∀ before a, Reaches g oracle config seed s before a → isUnfinished config a.tally = true →
    Uninterrupted (.after config.generationTimeout) (batchSize config a.tally) a.gen

/-- A batch has at least one input, and no more than the budget allows. -/
theorem batchSize_of_unfinished {t : Tally} (h : isUnfinished config t = true) :
    0 < batchSize config t ∧ t.attempts + batchSize config t ≤ budget config := by
  rw [isUnfinished, Bool.and_eq_true, decide_eq_true_eq] at h
  have hlt := h.2
  rw [batchSize]
  omega

variable {seed : Nat} {s : σ} {a b : Stage σ} {batch : Oracle.Log} {before after : List Oracle.Log}

namespace Reaches

/-- The batches of a round can be cut at each of them. -/
theorem cut (h : Reaches g oracle config seed s (before ++ batch :: after) b) :
    ∃ a a', Reaches g oracle config seed s before a ∧ Batch oracle config a batch a' := by
  induction after using List.reverseRecOn generalizing b with
  | nil =>
    generalize hall : before ++ [batch] = all at h
    cases h with
    | start => exact absurd hall (List.append_ne_nil_of_right_ne_nil _ (List.cons_ne_nil _ _))
    | batch hbefore hbatch =>
      obtain ⟨rfl, hlast⟩ := List.append_inj' hall rfl
      obtain rfl := List.head_eq_of_cons_eq hlast
      exact ⟨_, _, hbefore, hbatch⟩
  | append_singleton after last ih =>
    rw [← List.cons_append, ← List.append_assoc] at h
    generalize hall : before ++ batch :: after ++ [last] = all at h
    cases h with
    | start => exact absurd hall (List.append_ne_nil_of_right_ne_nil _ (List.cons_ne_nil _ _))
    | batch hbefore _ =>
      obtain ⟨rfl, -⟩ := List.append_inj' hall rfl
      exact ih hbefore

/-- The source of derivations stays one for the grammar. -/
theorem isFor (h : Reaches g oracle config seed s before a) (hg : ∃ w, Grammar.InLanguage g startName w) :
    a.gen.IsFor g := by
  induction h with
  | start => exact Generator.isFor_new g config.maxDepth seed
  | @batch before batch a b _ hbatch ih =>
    have hgen := (drawBatch_noComplaint ih hg (.after config.generationTimeout) (batchSize config a.tally)).2
    rwa [hbatch.drawn] at hgen

end Reaches

/-- Any time for a derivation but none at all is enough. -/
theorem neverInterrupted_of_ne_zero (htime : config.generationTimeout ≠ 0)
    (hg : ∃ w, Grammar.InLanguage g startName w) (oracle : Oracle σ) (seed : Nat) (s : σ) :
    NeverInterrupted g oracle config seed s := by
  intro before a hreach _
  rw [Deadline.after, if_neg htime]
  exact uninterrupted_never (hreach.isFor hg) hg _

/-! ### What a stage has come to -/

/-- What is in the log was derived, asked and counted, and nothing else. -/
structure Accounts (g : Grammar) (oracle : Oracle σ) (config : RefinementConfig) (seed : Nat) (s : σ) (a : Stage σ)
    (log : Oracle.Log) : Prop where
  /-- There is one derivation for each question, and no other. -/
  drawn : drawBatch (.after config.generationTimeout) log.length (.new g config.maxDepth seed) =
    (.ok (log.map Prod.fst), a.gen)
  /-- The oracle was asked the questions of the log. -/
  answers : oracle.Answers log s a.state
  /-- The verdicts are counted. -/
  counts : Counts a.tally log
  /-- The derivations are counted. -/
  attempts_eq : a.tally.attempts = log.length
  /-- The budget is kept. -/
  within : log.length ≤ budget config

section Rounds

variable (hg : ∃ w, Grammar.InLanguage g startName w) (hpatient : NeverInterrupted g oracle config seed s)
include hg hpatient

/-- A stage is left by a batch, unless the round is finished there. -/
theorem Reaches.exists_batch (h : Reaches g oracle config seed s before a)
    (hmore : isUnfinished config a.tally = true) : ∃ batch b, Batch oracle config a batch b ∧ ∀ fuel,
      run oracle config false (fuel + 1) a.gen a.tally a.state =
        run oracle config false fuel b.gen b.tally b.state := by
  obtain ⟨inputs, gen', hdraw, -⟩ := drawBatch_of_uninterrupted (h.isFor hg) hg (hpatient before a h hmore)
  refine ⟨oracle.logOf inputs a.state, ⟨gen', _, (oracle.classifyAll inputs a.state).2⟩,
    ⟨hmore, ?_, oracle.answers_logOf inputs a.state, rfl⟩, fun fuel => ?_⟩
  · rw [Oracle.map_fst_logOf]
    exact hdraw
  · rw [run, hmore]
    simp only [Deadline.orCancelled, Bool.not_true, Bool.or_self, Bool.false_eq_true, if_false, hdraw]
    rfl

/-- A batch has the size that it is meant to have. -/
theorem Reaches.length_batch (h : Reaches g oracle config seed s before a) (hbatch : Batch oracle config a batch b) :
    batch.length = batchSize config a.tally := by
  obtain ⟨inputs, gen', hdraw, hlength⟩ :=
    drawBatch_of_uninterrupted (h.isFor hg) hg (hpatient before a h hbatch.unfinished)
  obtain ⟨hinputs, -⟩ := Prod.mk.inj (hdraw.symm.trans hbatch.drawn)
  rw [← hlength, Except.ok.inj hinputs, List.length_map]

/-- What one batch does. -/
theorem Accounts.next {log : Oracle.Log} (h : Accounts g oracle config seed s a log)
    (hreach : Reaches g oracle config seed s before a) (hbatch : Batch oracle config a batch b) :
    Accounts g oracle config seed s b (log ++ batch) := by
  have hlength : (log ++ batch).length = log.length + batchSize config a.tally := by
    rw [List.length_append, hreach.length_batch hg hpatient hbatch]
  refine ⟨?_, h.answers.append hbatch.answers, ?_, ?_, ?_⟩
  · rw [hlength, List.map_append]
    exact drawBatch_append h.drawn hbatch.drawn
  · rw [hbatch.tally_eq]
    exact (h.counts.withAttempts _).recordAll batch
  · rw [hbatch.tally_eq, attempts_recordAll, hlength, h.attempts_eq]
  · rw [hlength, ← h.attempts_eq]
    exact (batchSize_of_unfinished hbatch.unfinished).2

/-- What a run of batches does. -/
theorem Reaches.accounts (h : Reaches g oracle config seed s before a) :
    Accounts g oracle config seed s a before.flatten := by
  induction h with
  | start => exact ⟨rfl, Oracle.answers_nil oracle s, counts_empty, rfl, Nat.zero_le _⟩
  | batch hreach hbatch ih =>
    rw [List.flatten_concat]
    exact ih.next hg hpatient hreach hbatch

/-- With fuel for what is left of its budget, a round goes on until it is finished. -/
theorem Reaches.exists_last (h : Reaches g oracle config seed s before a) {fuel : Nat}
    (hfuel : budget config ≤ a.tally.attempts + fuel) : ∃ batches last, Reaches g oracle config seed s batches last ∧
      isUnfinished config last.tally = false ∧
      run oracle config false fuel a.gen a.tally a.state = (.ok last.tally, last.state) := by
  induction fuel generalizing before a with
  | zero =>
    have hspent : ¬a.tally.attempts < budget config := Nat.not_lt_of_le hfuel
    exact ⟨before, a, h, by rw [isUnfinished, decide_eq_false hspent, Bool.and_false], rfl⟩
  | succ fuel ih =>
    rcases hmore : isUnfinished config a.tally with - | -
    · refine ⟨before, a, h, hmore, ?_⟩
      rw [run, hmore]
      rfl
    · obtain ⟨batch, b, hbatch, hrun⟩ := h.exists_batch hg hpatient hmore
      have hpos := (batchSize_of_unfinished hmore).1
      have hattempts : b.tally.attempts = a.tally.attempts + batchSize config a.tally := by
        rw [hbatch.tally_eq, attempts_recordAll]
      obtain ⟨batches, last, hlast, hdone, hrest⟩ := ih (h.batch hbatch) (by omega)
      exact ⟨batches, last, hlast, hdone, (hrun fuel).trans hrest⟩

end Rounds

end Sampling

section Samples

open Sampling

variable {σ : Type} {g : Grammar} {oracle : Oracle σ} {config : RefinementConfig} {seed : Nat} {s : σ}

/-- **A round keeps its budget, and its counts are those of its verdicts.**  Let the start symbol derive a string, and
let no derivation of the round be interrupted.  Then there is a sample, and the round is a sequence of batches that
were derived one after the other and put to the oracle.  There are no more derivations than the budget has; if there
are fewer, then enough inputs were classified, and enough distinct ones are valid.  Every derivation has a verdict,
and is counted once.  The valid inputs are those that were accepted and the invalid ones those that were rejected, and
all of them are derived.  As soon as enough inputs were classified, a batch is a single input. -/
theorem sampleAndClassify_budget (hg : ∃ w, Grammar.InLanguage g startName w)
    (hpatient : NeverInterrupted g oracle config seed s) :
    ∃ (batches : List Oracle.Log) (log : Oracle.Log) (last : Stage σ) (sample : Sample),
      Reaches g oracle config seed s batches last ∧ log = batches.flatten ∧ sample = last.tally.sample ∧
      sampleAndClassify g oracle config seed false s = (.ok sample, last.state) ∧
      drawBatch (.after config.generationTimeout) log.length (.new g config.maxDepth seed) =
        (.ok (log.map Prod.fst), last.gen) ∧
      oracle.Answers log s last.state ∧
      log.length ≤ max 1 (config.samplesPerRound * config.maxAttemptsFactor) ∧
      (log.length < max 1 (config.samplesPerRound * config.maxAttemptsFactor) →
        config.samplesPerRound ≤ classified log ∧ config.minValid ≤ sample.valid.size) ∧
      last.tally.classified = verdicts .accept log + verdicts .reject log ∧
      verdicts .accept log + verdicts .reject log + sample.inconclusive = log.length ∧
      (∀ w, w ∈ sample.valid ↔ (w, .accept) ∈ log) ∧ (∀ w, w ∈ sample.invalid ↔ (w, .reject) ∈ log) ∧
      (∀ w, Classifies sample w → Grammar.InLanguage g startName w.toList) ∧
      ∀ before batch after, batches = before ++ batch :: after →
        config.samplesPerRound ≤ classified before.flatten → batch.length = 1 := by
  obtain ⟨batches, last, hreach, hdone, hrun⟩ := Reaches.start.exists_last hg hpatient
    (Nat.le_add_left (budget config) 0)
  obtain ⟨hdrawn, hanswers, ⟨hclassified, hinconclusive, hvalid, hinvalid⟩, hattempts, hwithin⟩ :=
    hreach.accounts hg hpatient
  have hsample : sampleAndClassify g oracle config seed false s = (.ok last.tally.sample, last.state) := by
    rw [sampleAndClassify, hrun]
    rfl
  refine ⟨batches, batches.flatten, last, last.tally.sample, hreach, rfl, rfl, hsample, hdrawn, hanswers, hwithin, ?_,
    hclassified, ?_, hvalid, hinvalid, sampleAndClassify_spec hsample, ?_⟩
  · -- the round is finished, and there is budget left
    intro hless
    have hleft : batches.flatten.length < budget config := hless
    rw [isUnfinished, hattempts, decide_eq_true hleft, Bool.and_true, Bool.or_eq_false_iff] at hdone
    rw [← hclassified]
    exact ⟨Nat.not_lt.mp (of_decide_eq_false hdone.1), Nat.not_lt.mp (of_decide_eq_false hdone.2)⟩
  · rw [hinconclusive]
    exact classified_add_inconclusive _
  · rintro before batch after rfl henough
    obtain ⟨a, b, hbefore, hbatch⟩ := hreach.cut
    have hcount : a.tally.classified = classified before.flatten :=
      (hbefore.accounts hg hpatient).counts.classified_eq
    have hleft := (batchSize_of_unfinished hbatch.unfinished)
    rw [hbefore.length_batch hg hpatient hbatch, batchSize, hcount, Nat.sub_eq_zero_of_le henough]
    rw [batchSize] at hleft
    omega

/-- A round of three inputs from the grammar of parentheses, the budget being six, for an oracle that accepts one
input only. -/
theorem budget_parentheses :
    (∃ w, Grammar.InLanguage Generator.parentheses startName w) ∧
      NeverInterrupted Generator.parentheses (.ofFunction fun w => if w = "x" then .accept else .reject)
        { samplesPerRound := 3, maxAttemptsFactor := 2 } 7 () ∧
      ∃ (log : Oracle.Log) (sample : Sample),
        sampleAndClassify Generator.parentheses (.ofFunction fun w => if w = "x" then .accept else .reject)
          { samplesPerRound := 3, maxAttemptsFactor := 2 } 7 false () = (.ok sample, ()) ∧
        log.length ≤ 6 ∧ ∀ w, w ∈ sample.valid ↔ (w, .accept) ∈ log := by
  have hg : ∃ w, Grammar.InLanguage Generator.parentheses startName w :=
    ⟨_, [.terminal "x"], by decide, .terminal .nil⟩
  have hpatient : NeverInterrupted Generator.parentheses (.ofFunction fun w => if w = "x" then .accept else .reject)
      { samplesPerRound := 3, maxAttemptsFactor := 2 } 7 () := neverInterrupted_of_ne_zero (by decide) hg _ _ _
  obtain ⟨-, log, last, sample, -, -, -, heq, -, -, hlength, -, -, -, hvalid, -⟩ :=
    sampleAndClassify_budget hg hpatient
  exact ⟨hg, hpatient, log, sample, heq, hlength, hvalid⟩

end Samples

end GrammarInference
