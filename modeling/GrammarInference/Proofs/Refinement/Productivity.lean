/-
GrammarInference/Proofs/Refinement/Productivity.lean

When a refined grammar still derives a string.

Design.  A candidate is refused if it loses a known input, so while some input is known, no grammar that is
committed is without strings.  Nothing else stands in the way of such a grammar: only a rule that mentions its own
nonterminal directly is kept from being forced, and a detour by another nonterminal is not seen
(`refinement_of_nested`).  The complaint that a nonterminal derives nothing can only come from sampling, since
the probes of a search pass it over, and from a grammar with strings none is drawn in vain.
-/
import GrammarInference.Proofs.Derivation.Productivity
import GrammarInference.Proofs.Refinement.Rounds

namespace GrammarInference

variable {σ : Type} {g : Grammar}

/-! ### Sampling -/

namespace Sampling

variable {gen : Generator}

theorem drawBatch_noComplaint (hgen : gen.IsFor g) (hg : ∃ w, Grammar.InLanguage g startName w)
    (deadline : Deadline) (wanted : Nat) :
    NoComplaint (drawBatch deadline wanted gen).1 ∧ (drawBatch deadline wanted gen).2.IsFor g := by
  induction wanted generalizing gen with
  | zero => exact ⟨noComplaint_ok _, hgen⟩
  | succ wanted ih =>
    obtain ⟨hone, hgen₁⟩ := Generator.generateString_noComplaint hgen hg deadline
    rw [drawBatch]
    rcases hs : gen.generateString startName deadline with ⟨e | w, gen₁⟩
    · rw [hs] at hone hgen₁
      cases e with
      | interrupted => exact ih hgen₁
      | unproductive m => exact absurd rfl (hone m)
      | _ => exact ⟨hone.error, hgen₁⟩
    · rw [hs] at hgen₁
      obtain ⟨hrest, hgen₂⟩ := ih hgen₁
      simp only
      rcases hbatch : drawBatch deadline wanted gen₁ with ⟨e | rest, gen₂⟩
      · rw [hbatch] at hrest hgen₂
        exact ⟨hrest.error, hgen₂⟩
      · rw [hbatch] at hgen₂
        exact ⟨noComplaint_ok _, hgen₂⟩

theorem run_noComplaint (hgen : gen.IsFor g) (hg : ∃ w, Grammar.InLanguage g startName w) (oracle : Oracle σ)
    (config : RefinementConfig) (cancelled : Bool) (fuel : Nat) (t : Tally) (s : σ) :
    NoComplaint (run oracle config cancelled fuel gen t s).1 := by
  induction fuel generalizing gen t s with
  | zero => exact noComplaint_ok _
  | succ fuel ih =>
    rw [run]
    split
    · exact noComplaint_ok _
    · obtain ⟨hbatch, hgen₁⟩ := drawBatch_noComplaint hgen hg
        (Deadline.orCancelled (.after config.generationTimeout) cancelled) (batchSize config t)
      simp only
      rcases hdraw : drawBatch (Deadline.orCancelled (.after config.generationTimeout) cancelled)
        (batchSize config t) gen with ⟨e | batch, gen₁⟩
      · rw [hdraw] at hbatch
        exact hbatch.error
      · rw [hdraw] at hgen₁
        exact ih hgen₁ _ _

end Sampling

/-- A grammar that derives a string can be sampled. -/
theorem sampleAndClassify_noComplaint (hg : ∃ w, Grammar.InLanguage g startName w) (oracle : Oracle σ)
    (config : RefinementConfig) (seed : Nat) (cancelled : Bool) (s : σ) :
    NoComplaint (sampleAndClassify g oracle config seed cancelled s).1 := by
  have hrun := Sampling.run_noComplaint (Generator.isFor_new g config.maxDepth seed) hg oracle config cancelled
    (Sampling.budget config) ⟨.empty, 0, 0⟩ s
  rw [sampleAndClassify]
  rcases h : Sampling.run oracle config cancelled (Sampling.budget config) (.new g config.maxDepth seed)
    ⟨.empty, 0, 0⟩ s with ⟨e | t, s₁⟩
  · rw [h] at hrun
    exact hrun.error
  · exact noComplaint_ok _

namespace Refiner

variable {n : String}

/-! ### The search of a tree -/

/-- Probes pass over what derives nothing. -/
theorem probe_noComplaint (root : NodeId) (path : List Nat) (n : String) (choice : Nat) (deadline : Deadline)
    (count : Nat) (s : Search σ) : NoComplaint (probe root path n choice deadline count s).1 := by
  induction count generalizing s with
  | zero => exact noComplaint_ok _
  | succ count ih =>
    rcases h : probe root path n choice deadline (count + 1) s with ⟨result, s'⟩
    -- an interrupted or fruitless probe is passed over, any other error is not this complaint
    rcases probe_cases h with ⟨e, a, gen, -, ⟨-, hrest⟩ | ⟨hother, rfl, -⟩⟩ |
      ⟨subtree, a, gen, -, ⟨a', -, hrest⟩ | ⟨spliced, a', rest, -, hrest, rfl⟩⟩
    · have hlater := ih ⟨s.refiner, gen, a⟩
      rwa [hrest] at hlater
    · exact fun m heq => hother m (Except.error.inj heq)
    · have hlater := ih ⟨s.refiner, gen, a'⟩
      rwa [hrest] at hlater
    · have hlater := ih ⟨s.refiner, gen, a'⟩
      rw [hrest] at hlater
      rcases rest with e | inputs
      · exact hlater.error
      · exact noComplaint_ok _

theorem probes_noComplaint (root : NodeId) (path : List Nat) (n : String) (count choice : Nat) (s : Search σ) :
    NoComplaint (probes root path n count choice s).1 := by
  induction count generalizing choice s with
  | zero => exact noComplaint_ok _
  | succ count ih =>
    rcases h : probes root path n (count + 1) choice s with ⟨result, s'⟩
    rcases probes_cases h with ⟨e, hp, rfl⟩ | ⟨inputs, s₁, rest, -, hps, rfl⟩
    · have hprobe := probe_noComplaint root path n choice s.refiner.generationDeadline
        s.refiner.config.probesPerAlternative s
      rw [hp] at hprobe
      exact hprobe.error
    · have hlater := ih (choice + 1) s₁
      rw [hps] at hlater
      rcases rest with e | rest
      · exact hlater.error
      · exact noComplaint_ok _

theorem refineAlternatives_noComplaint (g : Grammar) (root : NodeId) (path : List Nat) (n : String)
    (s : Search σ) : NoComplaint (refineAlternatives g root path n s).1 := by
  have hprobes := probes_noComplaint root path n (g.alternatives n).length 0 s
  have hqualities : NoComplaint (ruleQualities root path n (g.alternatives n).length s).1 := by
    rcases h : ruleQualities root path n (g.alternatives n).length s with ⟨result, s'⟩
    rcases ruleQualities_cases h with ⟨e, hp, rfl⟩ | ⟨owned, s₁, -, rfl, -⟩
    · rw [hp] at hprobes
      exact hprobes.error
    · exact noComplaint_ok _
  rcases h : refineAlternatives g root path n s with ⟨result, s'⟩
  rcases refineAlternatives_cases h with ⟨e, hq, rfl⟩ | ⟨qualities, s₁, -, ⟨rfl, -⟩ | ⟨c, -, rfl⟩⟩
  · rw [hq] at hqualities
    exact hqualities.error
  · exact noComplaint_ok _
  · exact noComplaint_ok _

mutual

theorem searchTree_noComplaint (g : Grammar) (root : NodeId) (path : List Nat) (t : Tree) (s : Search σ) :
    NoComplaint (searchTree g root path t s).1 := by
  rcases h : searchTree g root path t s with ⟨result, s'⟩
  match t with
  | .node (.terminal _) _ =>
    obtain ⟨rfl, -⟩ := searchTree_terminal h
    exact noComplaint_ok _
  | .node (.nonterminal n) ts =>
    rcases searchTree_cases h with ⟨e, hch, rfl⟩ | ⟨c, -, rfl⟩ | ⟨i, c, c', s₁, -, -, -, rfl⟩ |
      ⟨best, s₁, -, -, halternatives⟩
    · have hchildren := searchChildren_noComplaint g root path 0 none ts s
      rw [hch] at hchildren
      exact hchildren.error
    · exact noComplaint_ok _
    · exact noComplaint_ok _
    · have hscored := refineAlternatives_noComplaint g root path n s₁
      rwa [halternatives] at hscored

theorem searchChildren_noComplaint (g : Grammar) (root : NodeId) (path : List Nat) (i : Nat)
    (best : Option (Nat × Candidate)) (ts : List Tree) (s : Search σ) :
    NoComplaint (searchChildren g root path i best ts s).1 := by
  rcases h : searchChildren g root path i best ts s with ⟨result, s'⟩
  match ts with
  | [] =>
    obtain ⟨rfl, -⟩ := searchChildren_nil h
    exact noComplaint_ok _
  | t :: ts =>
    rcases searchChildren_cases h with ⟨e, ht, rfl⟩ | ⟨s₁, -, hrest⟩ | ⟨c, -, -, rfl⟩ | ⟨c, s₁, -, -, hrest⟩
    · have htree := searchTree_noComplaint g root (path ++ [i]) t s
      rw [ht] at htree
      exact htree.error
    · have hlater := searchChildren_noComplaint g root path (i + 1) best ts s₁
      rwa [hrest] at hlater
    · exact noComplaint_ok _
    · have hlater := searchChildren_noComplaint g root path (i + 1) (better best i c) ts s₁
      rwa [hrest] at hlater

end

theorem refineForInput_noComplaint (r : Refiner σ) (g : Grammar) (input : String) (seed : Nat) :
    NoComplaint (r.refineForInput g input seed).1 := by
  rcases h : r.refineForInput g input seed with ⟨result, r'⟩
  rcases refineForInput_cases h with ⟨-, rfl, -⟩ | ⟨root, arena, found, s, -, hsearch, rfl, -⟩
  · exact noComplaint_ok _
  · have hfound := searchTree_noComplaint g root [] (arena.treeAt root)
      (⟨r, .new g r.config.maxDepth seed, arena⟩ : Search σ)
    rw [hsearch] at hfound
    rcases found with e | c
    · exact hfound.error
    · exact noComplaint_ok _

theorem firstRefined_noComplaint (g : Grammar) (seed i : Nat) (inputs : List String) (r : Refiner σ) :
    NoComplaint (firstRefined g seed i inputs r).1 := by
  induction inputs generalizing i r with
  | nil => exact noComplaint_ok _
  | cons input rest ih =>
    rcases h : firstRefined g seed i (input :: rest) r with ⟨result, r'⟩
    rcases firstRefined_cases h with ⟨-, rfl, -⟩ | ⟨-, ⟨e, hone, rfl⟩ | ⟨refined, -, -, rfl⟩ |
      ⟨found, r₁, -, -, hrest⟩⟩
    · exact noComplaint_ok _
    · have hinput := refineForInput_noComplaint r g input ((seed * 31 + i) % UInt64.size)
      rw [hone] at hinput
      exact hinput.error
    · exact noComplaint_ok _
    · have hlater := ih (i + 1) r₁
      rwa [hrest] at hlater

/-! ### Runs -/

variable {r r' : Refiner σ}

/-- If something is known to be valid, the grammar derives a string. -/
def Sound (r : Refiner σ) (g : Grammar) : Prop := (∃ w, r.Knows w) → ∃ w, Grammar.InLanguage g startName w

theorem Covers.sound (h : r.Covers g) : r.Sound g := by
  rintro ⟨w, hw⟩
  exact ⟨w.toList, h w hw⟩

/-- Only a grammar without strings makes a round complain, and the round learns nothing then. -/
theorem refineOnce_unproductive {k : Nat} (h : r.refineOnce g k = (.error (.unproductive n), r')) :
    Keeps r r' ∧ ¬∃ w, Grammar.InLanguage g startName w := by
  rcases refineOnce_cases h with ⟨e, s, hsample, heq, rfl⟩ |
    ⟨sample, s, -, ⟨heq | ⟨p, heq⟩, -⟩ | ⟨p, found, hfirst, heq⟩⟩
  · cases heq
    refine ⟨⟨rfl, rfl, fun w => Iff.rfl⟩, fun hg => ?_⟩
    exact sampleAndClassify_noComplaint hg _ _ _ _ _ n (congrArg Prod.fst hsample)
  · cases heq
  · cases heq
  · -- a search makes no complaint
    rcases found with e | - | refined <;> cases heq
    exact (firstRefined_noComplaint g _ _ _ _ n (congrArg Prod.fst hfirst)).elim

/-- A committed grammar covers what is known. -/
theorem refineOnce_covers (hr : Patient r) {k : Nat} {g' : Grammar} {p : Option Float}
    (h : r.refineOnce g k = (.ok (.refined g' p), r')) : Learns r r' ∧ r'.Covers g' := by
  obtain ⟨r₁, seed, inputs, hlearns, hfirst⟩ := firstRefined_of_refineOnce h
  obtain ⟨hkeeps, hcovers⟩ := firstRefined_spec (hlearns.patient hr) hfirst
  exact ⟨hlearns.trans hkeeps.learns, hcovers g' rfl⟩

theorem save_noComplaint (r : Refiner σ) (name : String) (g : Grammar) : NoComplaint (r.save name g) := by
  intro m h
  rw [save] at h
  split at h
  · rename_i hsave
    cases h
    rw [Snapshots.save_eq_error_iff] at hsave
    cases hsave.2
  · cases h

theorem conclude_noComplaint (r : Refiner σ) (g : Grammar) (why : Termination) (k : Nat) (history : List Float) :
    NoComplaint (r.conclude g why k history).1 := by
  have hsave := r.save_noComplaint "refined_grammar_final.json" g
  rw [conclude]
  rcases hs : r.save "refined_grammar_final.json" g with e | r₁
  · rw [hs] at hsave
    exact hsave.error
  · exact noComplaint_ok _

/-- A run ends with the complaint only if nothing was known at all. -/
theorem refineWithin_unproductive {left k : Nat} {history : List Float} (hparse : r.config.parseTimeout ≠ 0)
    (hsound : r.Sound g) (h : refineWithin left r g k history = (.error (.unproductive n), r')) :
    ∀ w, ¬r.Knows w ∧ ¬r'.Knows w := by
  have hconclude : ∀ {x : Refiner σ} {g : Grammar} {why : Termination} {k : Nat} {history : List Float},
      x.conclude g why k history ≠ (.error (.unproductive n), r') :=
    fun hc => conclude_noComplaint _ _ _ _ _ n (congrArg Prod.fst hc)
  induction left generalizing r g k history with
  | zero =>
    obtain ⟨-, why, hlast⟩ | ⟨-, -, left', hleft, -⟩ := refineWithin_cases h
    · exact absurd hlast hconclude
    · cases hleft
  | succ left ih =>
    rcases refineWithin_cases h with ⟨-, why, hlast⟩ | ⟨hcancel, -, left', hleft, hround⟩
    · exact absurd hlast hconclude
    · cases hleft
      rcases hround with ⟨e, hone, heq⟩ | ⟨round, r₁, why, history', -, -, hlast⟩ |
        ⟨g', p, r₁, hone, hsaved⟩
      · cases heq
        obtain ⟨hkeeps, hno⟩ := refineOnce_unproductive hone
        have hnone : ∀ w, ¬r.Knows w := fun w hw => hno (hsound ⟨w, hw⟩)
        exact fun w => ⟨hnone w, fun hw => hnone w ((hkeeps.knows_iff w).mp hw)⟩
      · exact absurd hlast hconclude
      · rcases hsaved with ⟨e, hsave, heq, -⟩ | ⟨r₂, history', hsave, hrest⟩
        · cases heq
          exact absurd hsave (save_noComplaint _ _ _ n)
        · have hr : Patient r := ⟨hparse, hcancel⟩
          obtain ⟨hlearns, hcovers⟩ := refineOnce_covers hr hone
          have hkeeps := keeps_of_save hsave
          have hall := hlearns.trans hkeeps.learns
          have hnone := ih (hall.patient hr).parseTimeout_ne_zero (hkeeps.covers hcovers).sound hrest
          exact fun w => ⟨fun hw => (hnone w).1 (hall.knows w hw), (hnone w).2⟩

/-- At every stage, if something is known, then the grammar derives a string. -/
theorem Stage.Reached.sound {b : Stage σ} (h : Stage.Reached r g b) (hparse : r.config.parseTimeout ≠ 0)
    (hsound : r.Sound g) : b.refiner.config.parseTimeout ≠ 0 ∧ b.refiner.Sound b.grammar := by
  induction h with
  | refl => exact ⟨hparse, hsound⟩
  | tail _ hnext ih =>
    obtain ⟨⟨hcancel, -⟩, -, p, r₁, hone, hsave⟩ := hnext
    have hr : Patient _ := ⟨ih.1, hcancel⟩
    obtain ⟨hlearns, hcovers⟩ := refineOnce_covers hr hone
    have hkeeps := keeps_of_save hsave
    exact ⟨(hkeeps.patient (hlearns.patient hr)).parseTimeout_ne_zero, (hkeeps.covers hcovers).sound⟩

/-- **A known input keeps a grammar productive.**  If a grammar derives a string, then so does the grammar of every
stage at which some input is known to be valid; and a run ends with the complaint that there is none only if no
input was known at its start, and none at its end. -/
theorem refinement_keeps_productivity (hparse : r.config.parseTimeout ≠ 0)
    (hg : ∃ w, Grammar.InLanguage g startName w) :
    (∀ b, Stage.Reached r g b → (∃ w, w ∈ b.refiner.discriminating ∨ w ∈ b.refiner.confirmed) →
      ∃ w, Grammar.InLanguage b.grammar startName w) ∧
    ∀ n r', r.refine g = (.error (.unproductive n), r') →
      ∀ w, ¬(w ∈ r.discriminating ∨ w ∈ r.confirmed) ∧ ¬(w ∈ r'.discriminating ∨ w ∈ r'.confirmed) :=
  ⟨fun _ hb => (hb.sound hparse fun _ => hg).2, fun _ _ h => refineWithin_unproductive hparse (fun _ => hg) h⟩

/-- A refiner that knows an input does not complain about letter pairs. -/
theorem letterPairs_keep_productivity : choosing.config.parseTimeout ≠ 0 ∧
    (∃ w, Grammar.InLanguage letterPairs startName w) ∧ "aa" ∈ choosing.discriminating ∧
    ∀ n r', choosing.refine letterPairs ≠ (.error (.unproductive n), r') := by
  have hknown : "aa" ∈ choosing.discriminating := List.mem_singleton_self "aa"
  have hg : ∃ w, Grammar.InLanguage letterPairs startName w := ⟨_, covers_letterPairs "aa" (.inl hknown)⟩
  refine ⟨by decide, hg, hknown, fun n r' h => ?_⟩
  exact ((refinement_keeps_productivity (by decide) hg).2 n r' h "aa").1 (.inl hknown)

/-! ### A grammar that is lost -/

/-- A round ends with the complaint of its sampling. -/
theorem refineOnce_of_error {k : Nat} {e : Error} {state : σ}
    (hsample : sampleAndClassify g r.oracle r.config ((r.config.seed + k) % UInt64.size) r.isCancelled
      r.oracleState = (.error e, state)) : r.refineOnce g k = (.error e, { r with oracleState := state }) := by
  rw [refineOnce]
  simp only [hsample]

/-- A round refines the grammar if its sample falls short and a counterexample can be used. -/
theorem refineOnce_of_firstRefined {k : Nat} {sample : Sample} {state : σ} {p : Float} {g' : Grammar}
    (hsample : sampleAndClassify g r.oracle r.config ((r.config.seed + k) % UInt64.size) r.isCancelled
      r.oracleState = (.ok sample, state))
    (hp : sample.precision = some p) (hlow : ¬r.config.precisionThreshold ≤ p)
    (hfirst : firstRefined g ((r.config.seed + k) % UInt64.size) 0 (sample.shortestInvalid r.config.shortestCount)
      { r with oracleState := state, confirmed := r.confirmed.union sample.valid } = (.ok (some g'), r')) :
    r.refineOnce g k = (.ok (.refined g' (some p)), r') := by
  rw [refineOnce]
  simp only [hsample, hp, if_neg hlow, hfirst]

/-- Parentheses around a letter, by a detour. -/
def nested : Grammar := .ofList
  [(startName, [[.nonterminal "<a>"]]), ("<a>", [[.terminal "x"], [.terminal "(", .nonterminal "<b>"]]),
   ("<b>", [[.nonterminal "<a>"]])]

/-- The same grammar without the letter. -/
def lost : Grammar := .ofList
  [(startName, [[.nonterminal "<a>"]]), ("<a>", [[.terminal "(", .nonterminal "<b>"]]),
   ("<b>", [[.nonterminal "<a>"]])]

theorem exists_inLanguage_nested : ∃ w, Grammar.InLanguage nested startName w := by
  have hheight : Grammar.heightIn nested.heights startName = some 2 := by decide +kernel
  exact Grammar.exists_endsWithin_iff.mp ⟨2, Grammar.heightIn_heights_iff.mp ⟨2, hheight, Nat.le_refl 2⟩⟩

theorem not_inLanguage_lost (w : List Char) : ¬Grammar.InLanguage lost startName w := by
  have hnone : Grammar.heightIn lost.heights startName = none := by decide +kernel
  intro hw
  obtain ⟨k, hk⟩ := Grammar.exists_endsWithin_iff.mpr ⟨w, hw⟩
  have hbound := Grammar.heightIn_heights_iff.mpr hk
  rw [hnone] at hbound
  exact absurd hbound Height.atMost_none

/-- A refiner that knows nothing and samples one input, with an oracle that accepts what begins with a
parenthesis. -/
def unknowing : Refiner Unit :=
  new (.ofFunction fun w => if w.toList.head? = some '(' then .accept else .reject) ()
    { samplesPerRound := 1, maxAttemptsFactor := 1, probesPerAlternative := 1, seed := 1 } false []

/-- What is sampled in the first round: the letter, which is rejected. -/
def letterOnly : Sample := ⟨∅, .ofList ["x"], 0⟩

/-- The search for a refinement in the first round. -/
def firstSearch : Except Error (Option Grammar) × Refiner Unit :=
  firstRefined nested ((unknowing.config.seed + 0) % UInt64.size) 0
    (letterOnly.shortestInvalid unknowing.config.shortestCount)
    { unknowing with confirmed := unknowing.confirmed.union letterOnly.valid }

theorem sampleAndClassify_nested : sampleAndClassify nested unknowing.oracle unknowing.config
    ((unknowing.config.seed + 0) % UInt64.size) unknowing.isCancelled unknowing.oracleState = (.ok letterOnly, ()) := by
  apply Prod.ext
  · decide +kernel
  · rfl

theorem precision_letterOnly : letterOnly.precision = some (Float.ofNat 0 / Float.ofNat 1) := rfl

/-- No valid input among one falls short of the threshold. -/
theorem not_precise_unknowing : ¬unknowing.config.precisionThreshold ≤ Float.ofNat 0 / Float.ofNat 1 := by
  decide +kernel

/-- A valid grammar that derives a string is refined to one that derives none, and the next round complains. -/
theorem refinement_of_nested : nested.validate = .ok () ∧
    (∃ w, Grammar.InLanguage nested startName w) ∧ (∀ w, ¬Grammar.InLanguage lost startName w) ∧
    (unknowing.refineForInput nested "x" 1).1 = .ok (some lost) ∧
    (∃ r k, Stage.Reached unknowing nested ⟨r, lost, k⟩) ∧
    (unknowing.refine nested).1 = .error (.unproductive startName) := by
  have hvalid : nested.validate = .ok () := by decide +kernel
  have hcommit : (unknowing.refineForInput nested "x" 1).1 = .ok (some lost) := by decide +kernel
  refine ⟨hvalid, exists_inLanguage_nested, not_inLanguage_lost, hcommit, ?_⟩
  have hfirst : firstSearch.1 = .ok (some lost) := by decide +kernel
  -- the file is not wanted, and from the second grammar nothing can be sampled
  have hsecond : (firstSearch.2.save ("refined_grammar_" ++ toString (0 + 1) ++ ".json") lost).map (fun r =>
      (sampleAndClassify lost r.oracle r.config ((r.config.seed + (0 + 1)) % UInt64.size) r.isCancelled
        r.oracleState).1) = .ok (.error (.unproductive startName)) := by decide +kernel
  have hone : unknowing.refineOnce nested 0 =
      (.ok (.refined lost (some (Float.ofNat 0 / Float.ofNat 1))), firstSearch.2) :=
    refineOnce_of_firstRefined sampleAndClassify_nested precision_letterOnly not_precise_unknowing (Prod.ext hfirst rfl)
  rcases hsave : firstSearch.2.save ("refined_grammar_" ++ toString (0 + 1) ++ ".json") lost with e | r
  · rw [hsave] at hsecond
    cases hsecond
  · rw [hsave] at hsecond
    have hnext : Stage.Next ⟨unknowing, nested, 0⟩ ⟨r, lost, 0 + 1⟩ :=
      ⟨⟨rfl, by decide, by decide⟩, rfl, _, _, hone, hsave⟩
    refine ⟨⟨r, _, .single hnext⟩, ?_⟩
    obtain ⟨history, hrun⟩ := hnext.refineWithin_eq 99 []
    have hnothing : unknowing.Covers nested := fun w hw => (hw.elim List.not_mem_nil List.not_mem_nil).elim
    obtain ⟨hlearns, -⟩ := hnext.spec ⟨by decide, rfl⟩ hnothing
    have hcancel : r.isCancelled = false := hlearns.isCancelled_eq
    have htime : r.config.maxRefinementTime ≠ 0 := by
      rw [hlearns.config_eq]
      decide
    have hcomplaint := refineOnce_of_error (g := lost) (k := 0 + 1) (Prod.ext (Except.ok.inj hsecond) rfl)
    calc (unknowing.refine nested).1
        = (refineWithin 99 r lost (0 + 1) history).1 := congrArg Prod.fst hrun
      _ = .error (.unproductive startName) := by
        rw [refineWithin, hcancel, if_neg (by decide)]
        simp only [if_neg htime, hcomplaint]

end Refiner

end GrammarInference
