/-
GrammarInference/Proofs/Refinement/Deterministic.lean

Sampling and refinement with an oracle that always gives the same answer to an input.

Design.  An oracle follows a function in some states if it answers by the function there and stays in these states
(`Oracle.Follows`); the states keep what the answers depend on, such as a memory that has nothing wrong in it.  A round
or a run asks the oracle for verdicts and looks at nothing else of it.  So its result is that of the same run with the
function in the place of the oracle (`Refiner.asFunction`): each step of a refiner is the step of the other one, and
what they know stays the same.
-/
import GrammarInference.Proofs.Refinement.Rounds

namespace GrammarInference

variable {σ : Type} {f : String → Verdict} {P : σ → Prop}

/-! ### Oracles -/

namespace Oracle

variable {o : Oracle σ} {s : σ}

/-- In the states of `P`, the oracle answers by the function, and stays in these states. -/
def Follows (o : Oracle σ) (f : String → Verdict) (P : σ → Prop) : Prop :=
  ∀ input s, P s → (o.classify input s).1 = f input ∧ P (o.classify input s).2

theorem follows_ofFunction (f : String → Verdict) : (ofFunction f).Follows f fun _ => True :=
  fun _ _ _ => ⟨rfl, trivial⟩

/-- An oracle that always gives the same answer follows the function of its answers. -/
theorem follows_of_forall (h : ∀ input s, (o.classify input s).1 = f input) : o.Follows f fun _ => True :=
  fun input s _ => ⟨h input s, trivial⟩

/-- A batch is answered by the function. -/
theorem Follows.classifyAll (h : o.Follows f P) (hs : P s) (inputs : List String) :
    ∃ s', o.classifyAll inputs s = (inputs.map f, s') ∧ P s' := by
  induction inputs generalizing s with
  | nil => exact ⟨s, rfl, hs⟩
  | cons input rest ih =>
    obtain ⟨hanswer, hs₁⟩ := h input s hs
    obtain ⟨s', hrest, hs'⟩ := ih hs₁
    refine ⟨s', ?_, hs'⟩
    simp only [Oracle.classifyAll, hrest, hanswer, List.map_cons]

theorem classifyAll_ofFunction (f : String → Verdict) (inputs : List String) :
    (ofFunction f).classifyAll inputs () = (inputs.map f, ()) := by
  obtain ⟨s', heq, -⟩ := (follows_ofFunction f).classifyAll trivial inputs
  exact heq

end Oracle

/-! ### Sampling -/

variable {o : Oracle σ} {s : σ} {g : Grammar}

/-- Rounds of sampling with the oracle are those with the function. -/
theorem Sampling.run_follows (ho : o.Follows f P) (hs : P s) (config : RefinementConfig) (cancelled : Bool)
    (fuel : Nat) (gen : Generator) (t : Sampling.Tally) :
    (run o config cancelled fuel gen t s).1 = (run (.ofFunction f) config cancelled fuel gen t ()).1 ∧
      P (run o config cancelled fuel gen t s).2 := by
  induction fuel generalizing gen t s with
  | zero => exact ⟨rfl, hs⟩
  | succ fuel ih =>
    rw [run, run]
    split
    · exact ⟨rfl, hs⟩
    · rcases hdraw : drawBatch (Deadline.orCancelled (.after config.generationTimeout) cancelled) (batchSize config t) gen
        with ⟨e | batch, gen'⟩
      · simp only [hdraw]
        exact ⟨trivial, hs⟩
      · obtain ⟨s', hall, hs'⟩ := ho.classifyAll hs batch
        simp only [hdraw, hall, Oracle.classifyAll_ofFunction]
        exact ih hs' gen' _

theorem sampleAndClassify_follows (ho : o.Follows f P) (hs : P s) (g : Grammar) (config : RefinementConfig) (seed : Nat)
    (cancelled : Bool) :
    (sampleAndClassify g o config seed cancelled s).1 =
        (sampleAndClassify g (.ofFunction f) config seed cancelled ()).1 ∧
      P (sampleAndClassify g o config seed cancelled s).2 := by
  obtain ⟨hresult, hstate⟩ := Sampling.run_follows ho hs config cancelled (Sampling.budget config)
    (.new g config.maxDepth seed) ⟨.empty, 0, 0⟩
  exact ⟨congrArg (Except.map Sampling.Tally.sample) hresult, hstate⟩

theorem precision_follows (ho : o.Follows f P) (hs : P s) (g : Grammar) (config : RefinementConfig) :
    (precision g o config s).1 = (precision g (.ofFunction f) config ()).1 :=
  congrArg (Except.map Sample.precision) (sampleAndClassify_follows ho hs g config config.seed false).1

/-! ### Refiners -/

namespace Refiner

variable {r r' : Refiner σ} {t : Search σ} {t' : Search σ} {root : NodeId} {path : List Nat} {n : String}

/-- The refiner with a function in the place of its oracle. -/
def asFunction (f : String → Verdict) (r : Refiner σ) : Refiner Unit where
  oracle := .ofFunction f
  oracleState := ()
  config := r.config
  isCancelled := r.isCancelled
  discriminating := r.discriminating
  confirmed := r.confirmed
  names := r.names
  snapshots := r.snapshots

@[simp] theorem asFunction_config (r : Refiner σ) : (r.asFunction f).config = r.config := rfl

@[simp] theorem asFunction_isCancelled (r : Refiner σ) : (r.asFunction f).isCancelled = r.isCancelled := rfl

@[simp] theorem asFunction_snapshots (r : Refiner σ) : (r.asFunction f).snapshots = r.snapshots := rfl

@[simp] theorem asFunction_checklist (r : Refiner σ) : (r.asFunction f).checklist = r.checklist := rfl

@[simp] theorem asFunction_parseDeadline (r : Refiner σ) : (r.asFunction f).parseDeadline = r.parseDeadline := rfl

@[simp] theorem asFunction_generationDeadline (r : Refiner σ) :
    (r.asFunction f).generationDeadline = r.generationDeadline := rfl

/-- The search with a function in the place of the oracle. -/
def Search.asFunction (f : String → Verdict) (t : Search σ) : Search Unit :=
  ⟨t.refiner.asFunction f, t.generator, t.arena⟩

@[simp] theorem Search.asFunction_refiner (t : Search σ) : (t.asFunction f).refiner = t.refiner.asFunction f := rfl

/-- The oracle of the refiner follows the function from its present state on. -/
structure Follows (f : String → Verdict) (P : σ → Prop) (r : Refiner σ) : Prop where
  /-- The oracle follows the function. -/
  oracle : r.oracle.Follows f P
  /-- The state is one in which it does. -/
  state : P r.oracleState

/-! ### Candidates -/

theorem isUnderapproximating_follows {update : Grammar} {b : Bool} (hr : Follows f P r)
    (h : r.isUnderapproximating g update = (b, r')) :
    (r.asFunction f).isUnderapproximating g update = (b, r'.asFunction f) ∧ Follows f P r' := by
  simp only [isUnderapproximating, asFunction_config, asFunction_checklist, asFunction_parseDeadline] at h ⊢
  rcases hcheck : checkInputs (Earley.Table.ofGrammar (g.overlay update)) r.parseDeadline
    (max r.config.stopAfterTimeouts 1) 0 r.checklist with - | input | - <;> simp only [hcheck] at h ⊢ <;> cases h
  · exact ⟨rfl, hr⟩
  · exact ⟨rfl, hr.oracle, hr.state⟩
  · exact ⟨rfl, hr⟩

theorem propose_follows {quality : Nat} {update : Grammar} {fallback : String → Grammar} {c : Candidate}
    (ht : Follows f P t.refiner) (h : propose t g n quality update fallback = (c, t')) :
    propose (t.asFunction f) g n quality update fallback = (c, t'.asFunction f) ∧ Follows f P t'.refiner := by
  rcases propose_cases h with ⟨r, hu, rfl, rfl⟩ | ⟨r, hu, rfl, rfl⟩
  · obtain ⟨hu', hr⟩ := isUnderapproximating_follows ht hu
    refine ⟨?_, hr⟩
    rw [propose, Search.asFunction, hu']
    rfl
  · obtain ⟨hu', hr⟩ := isUnderapproximating_follows ht hu
    refine ⟨?_, hr.oracle, hr.state⟩
    rw [propose, Search.asFunction, hu']
    rfl

/-! ### Probes -/

/-- Inputs are made up without the oracle. -/
theorem probe_asFunction (root : NodeId) (path : List Nat) (n : String) (choice : Nat) (deadline : Deadline)
    (count : Nat) (t : Search σ) : probe root path n choice deadline count (t.asFunction f) =
      ((probe root path n choice deadline count t).1, (probe root path n choice deadline count t).2.asFunction f) := by
  induction count generalizing t with
  | zero => rfl
  | succ count ih =>
    obtain ⟨refiner, generator, arena⟩ := t
    have ih' : ∀ gen a, probe root path n choice deadline count ⟨refiner.asFunction f, gen, a⟩ =
        ((probe root path n choice deadline count ⟨refiner, gen, a⟩).1,
          (probe root path n choice deadline count ⟨refiner, gen, a⟩).2.asFunction f) :=
      fun gen a => ih ⟨refiner, gen, a⟩
    rw [Search.asFunction, probe, probe]
    rcases generator.generate arena n (some choice) deadline with ⟨e | subtree, a, gen⟩
    · cases e with
      | interrupted => exact ih' gen a
      | unproductive m => exact ih' gen a
      | _ => rfl
    · simp only
      rcases a.splice root path subtree with ⟨- | spliced, a'⟩
      · exact ih' gen a'
      · simp only [ih']
        rcases probe root path n choice deadline count ⟨refiner, gen, a'⟩ with ⟨e | rest, t'⟩ <;> rfl

theorem probes_asFunction (root : NodeId) (path : List Nat) (n : String) (count choice : Nat) (t : Search σ) :
    probes root path n count choice (t.asFunction f) =
      ((probes root path n count choice t).1, (probes root path n count choice t).2.asFunction f) := by
  induction count generalizing choice t with
  | zero => rfl
  | succ count ih =>
    have hprobe := probe_asFunction (f := f) root path n choice t.refiner.generationDeadline
      t.refiner.config.probesPerAlternative t
    rw [probes, probes, Search.asFunction_refiner, asFunction_generationDeadline, asFunction_config, hprobe]
    rcases hp : probe root path n choice t.refiner.generationDeadline t.refiner.config.probesPerAlternative t with
      ⟨e | inputs, t₁⟩
    · rfl
    · simp only [ih]
      rcases probes root path n count (choice + 1) t₁ with ⟨e | rest, t₂⟩ <;> rfl

theorem ruleQualities_follows {count : Nat} {result : Except Error (List Nat)} (ht : Follows f P t.refiner)
    (h : ruleQualities root path n count t = (result, t')) :
    ruleQualities root path n count (t.asFunction f) = (result, t'.asFunction f) ∧ Follows f P t'.refiner := by
  have hprobes := probes_asFunction (f := f) root path n count 0 t
  rcases ruleQualities_cases h with ⟨e, hp, rfl⟩ | ⟨owned, t₁, hp, rfl, rfl⟩
  · rw [hp] at hprobes
    refine ⟨by rw [ruleQualities, hprobes], ?_⟩
    rw [probes_refiner hp]
    exact ht
  · rw [hp] at hprobes
    obtain ⟨s', hall, hs'⟩ := ht.oracle.classifyAll ht.state (owned.map Prod.snd)
    rw [hall]
    refine ⟨?_, ht.oracle, hs'⟩
    have hoperator : (t₁.asFunction f).refiner.oracle.classifyAll (owned.map Prod.snd)
        (t₁.asFunction f).refiner.oracleState = ((owned.map Prod.snd).map f, ()) := Oracle.classifyAll_ofFunction f _
    rw [ruleQualities, hprobes]
    simp only [hoperator]
    rw [← probes_refiner hp]
    rfl

theorem refineAlternatives_follows {result : Except Error (Option Candidate)} (ht : Follows f P t.refiner)
    (h : refineAlternatives g root path n t = (result, t')) :
    refineAlternatives g root path n (t.asFunction f) = (result, t'.asFunction f) ∧ Follows f P t'.refiner := by
  rw [refineAlternatives] at h ⊢
  rcases hq : ruleQualities root path n (g.alternatives n).length t with ⟨e | qualities, t₁⟩
  · obtain ⟨hq', ht₁⟩ := ruleQualities_follows ht hq
    rw [hq] at h
    cases h
    exact ⟨by rw [hq'], ht₁⟩
  · obtain ⟨hq', ht₁⟩ := ruleQualities_follows ht hq
    simp only [hq, hq'] at h ⊢
    split at h
    · rename_i hnothing
      cases h
      exact ⟨if_pos hnothing, ht₁⟩
    · rename_i hsome
      rw [if_neg hsome]
      rcases hp : propose t₁ g n (qualities.foldl max 0)
        (.ofList [(n, reaching (g.alternatives n) qualities (qualities.foldl max 0))])
        (fun name => .ofList [(name, reaching (g.alternatives n) qualities (qualities.foldl max 0))]) with ⟨c, t₂⟩
      obtain ⟨hp', ht₂⟩ := propose_follows ht₁ hp
      rw [reaching] at hp hp'
      rw [hp] at h
      cases h
      exact ⟨by rw [hp'], ht₂⟩

/-! ### The search of a tree -/

mutual

theorem searchTree_follows {u : Tree} {path : List Nat} {t t' : Search σ} {result : Except Error (Option Candidate)}
    (ht : Follows f P t.refiner) (h : searchTree g root path u t = (result, t')) :
    searchTree g root path u (t.asFunction f) = (result, t'.asFunction f) ∧ Follows f P t'.refiner := by
  match u with
  | .node (.terminal _) _ =>
    obtain ⟨rfl, rfl⟩ := searchTree_terminal h
    exact ⟨rfl, ht⟩
  | .node (.nonterminal n) us =>
    rw [searchTree]
    rcases searchTree_cases h with ⟨e, hch, rfl⟩ | ⟨c, hch, rfl⟩ | ⟨i, c, c', t₁, hch, hpos, hp, rfl⟩ |
      ⟨best, t₁, hch, hzero, halternatives⟩
    · obtain ⟨hch', ht'⟩ := searchChildren_follows ht hch
      exact ⟨by rw [hch'], ht'⟩
    · obtain ⟨hch', ht'⟩ := searchChildren_follows ht hch
      exact ⟨by rw [hch'], ht'⟩
    · -- the candidate of a child is used in the rule of the node
      obtain ⟨hch', ht₁⟩ := searchChildren_follows ht hch
      rw [refineInParent] at hp
      obtain ⟨hp', ht'⟩ := propose_follows ht₁ hp
      refine ⟨?_, ht'⟩
      simp only [hch', if_pos hpos]
      rw [refineInParent, hp']
    · obtain ⟨hch', ht₁⟩ := searchChildren_follows ht hch
      obtain ⟨halternatives', ht'⟩ := refineAlternatives_follows ht₁ halternatives
      refine ⟨?_, ht'⟩
      rcases best with - | ⟨i, c⟩
      · rw [hch']
        exact halternatives'
      · simp only [hch', if_neg (hzero i c rfl)]
        exact halternatives'

theorem searchChildren_follows {us : List Tree} {path : List Nat} {i : Nat} {best : Option (Nat × Candidate)}
    {t t' : Search σ} {result : Except Error Offer} (ht : Follows f P t.refiner)
    (h : searchChildren g root path i best us t = (result, t')) :
    searchChildren g root path i best us (t.asFunction f) = (result, t'.asFunction f) ∧ Follows f P t'.refiner := by
  match us with
  | [] =>
    obtain ⟨rfl, rfl⟩ := searchChildren_nil h
    exact ⟨rfl, ht⟩
  | u :: us =>
    rw [searchChildren]
    rcases searchChildren_cases h with ⟨e, htree, rfl⟩ | ⟨t₁, htree, hrest⟩ | ⟨c, htree, haccepted, rfl⟩ |
      ⟨c, t₁, htree, hno, hrest⟩
    · obtain ⟨htree', ht'⟩ := searchTree_follows ht htree
      exact ⟨by rw [htree'], ht'⟩
    · obtain ⟨htree', ht₁⟩ := searchTree_follows ht htree
      rw [htree']
      exact searchChildren_follows ht₁ hrest
    · obtain ⟨htree', ht'⟩ := searchTree_follows ht htree
      exact ⟨by simp only [htree', if_pos haccepted], ht'⟩
    · obtain ⟨htree', ht₁⟩ := searchTree_follows ht htree
      simp only [htree', hno, Bool.false_eq_true, if_false]
      exact searchChildren_follows ht₁ hrest

end

/-! ### Rounds -/

theorem refineForInput_follows {input : String} {seed : Nat} {result : Except Error (Option Grammar)}
    (hr : Follows f P r) (h : r.refineForInput g input seed = (result, r')) :
    (r.asFunction f).refineForInput g input seed = (result, r'.asFunction f) ∧ Follows f P r' := by
  rw [refineForInput] at h ⊢
  rw [asFunction_parseDeadline]
  rcases hparse : Earley.parse (.ofGrammar g) ∅ input r.parseDeadline with ⟨root | - | -, arena⟩ <;>
    simp only [hparse] at h ⊢
  · rcases hsearch : searchTree g root [] (arena.treeAt root) ⟨r, .new g r.config.maxDepth seed, arena⟩ with ⟨found, t⟩
    obtain ⟨hsearch', ht⟩ := searchTree_follows (t := ⟨r, .new g r.config.maxDepth seed, arena⟩) hr hsearch
    have hsearch'' : searchTree g root [] (arena.treeAt root)
        ⟨r.asFunction f, .new g (r.asFunction f).config.maxDepth seed, arena⟩ = (found, t.asFunction f) := hsearch'
    simp only [hsearch, hsearch''] at h ⊢
    rcases found with e | - | c <;> cases h <;> exact ⟨rfl, ht⟩
  · cases h
    exact ⟨rfl, hr⟩
  · cases h
    exact ⟨rfl, hr⟩

theorem firstRefined_follows {seed i : Nat} {inputs : List String} {result : Except Error (Option Grammar)}
    (hr : Follows f P r) (h : firstRefined g seed i inputs r = (result, r')) :
    firstRefined g seed i inputs (r.asFunction f) = (result, r'.asFunction f) ∧ Follows f P r' := by
  induction inputs generalizing i r with
  | nil =>
    cases h
    exact ⟨rfl, hr⟩
  | cons input rest ih =>
    rw [firstRefined, asFunction_isCancelled]
    rcases firstRefined_cases h with ⟨hcancel, rfl, rfl⟩ | ⟨hgo, ⟨e, hone, rfl⟩ | ⟨refined, hone, hother, rfl⟩ |
      ⟨found, r₁, hone, hsame, hrest⟩⟩
    · exact ⟨if_pos hcancel, hr⟩
    · obtain ⟨hone', hr'⟩ := refineForInput_follows hr hone
      exact ⟨by simp only [hgo, Bool.false_eq_true, if_false, hone'], hr'⟩
    · obtain ⟨hone', hr'⟩ := refineForInput_follows hr hone
      exact ⟨by simp only [hgo, Bool.false_eq_true, if_false, hone', hother], hr'⟩
    · -- nothing came of the input, so the next one is tried
      obtain ⟨hone', hr₁⟩ := refineForInput_follows hr hone
      obtain ⟨hrest', hr'⟩ := ih hr₁ hrest
      refine ⟨?_, hr'⟩
      rcases found with - | refined
      · simp only [hgo, Bool.false_eq_true, if_false, hone']
        exact hrest'
      · simp only [hgo, Bool.false_eq_true, if_false, hone', hsame refined rfl, if_true]
        exact hrest'

theorem refineOnce_follows {k : Nat} {result : Except Error Round} (hr : Follows f P r)
    (h : r.refineOnce g k = (result, r')) :
    (r.asFunction f).refineOnce g k = (result, r'.asFunction f) ∧ Follows f P r' := by
  obtain ⟨hsample, hstate⟩ := sampleAndClassify_follows hr.oracle hr.state g r.config
    ((r.config.seed + k) % UInt64.size) r.isCancelled
  have hsample' : sampleAndClassify g (r.asFunction f).oracle (r.asFunction f).config
      (((r.asFunction f).config.seed + k) % UInt64.size) (r.asFunction f).isCancelled (r.asFunction f).oracleState =
      ((sampleAndClassify g r.oracle r.config ((r.config.seed + k) % UInt64.size) r.isCancelled r.oracleState).1, ()) :=
    Prod.ext hsample.symm rfl
  rw [refineOnce] at h ⊢
  simp only [hsample'] at h ⊢
  rcases hone : sampleAndClassify g r.oracle r.config ((r.config.seed + k) % UInt64.size) r.isCancelled r.oracleState with
    ⟨e | sample, s⟩
  · rw [hone] at hstate
    simp only [hone] at h ⊢
    cases h
    exact ⟨rfl, hr.oracle, hstate⟩
  · rw [hone] at hstate
    simp only [hone] at h ⊢
    have hafter : Follows f P (r.afterSampling sample s) := ⟨hr.oracle, hstate⟩
    have hafter' : (r.asFunction f).afterSampling sample () = (r.afterSampling sample s).asFunction f := rfl
    rw [← afterSampling] at h ⊢
    rw [hafter']
    rcases hp : sample.precision with - | p <;> simp only [hp] at h ⊢
    · cases h
      exact ⟨rfl, hafter⟩
    · rw [asFunction_config]
      split at h
      · rename_i hreached
        cases h
        exact ⟨if_pos hreached, hafter⟩
      · rename_i hmissed
        rw [if_neg hmissed]
        rcases hfirst : firstRefined g ((r.config.seed + k) % UInt64.size) 0
          (sample.shortestInvalid r.config.shortestCount) (r.afterSampling sample s) with ⟨found, r₁⟩
        obtain ⟨hfirst', hr₁⟩ := firstRefined_follows hafter hfirst
        simp only [hfirst, hfirst'] at h ⊢
        rcases found with e | - | refined <;> cases h <;> exact ⟨rfl, hr₁⟩

/-! ### Runs -/

/-- Files are written without the oracle. -/
theorem save_asFunction (r : Refiner σ) (name : String) (g : Grammar) :
    (r.asFunction f).save name g = (r.save name g).map (asFunction f) := by
  rw [save, save, asFunction_snapshots]
  rcases r.snapshots.save name g with e | snapshots <;> rfl

theorem Follows.save {name : String} (hr : Follows f P r) (h : r.save name g = .ok r') : Follows f P r' := by
  rw [Refiner.save] at h
  split at h
  · cases h
  · cases h
    exact ⟨hr.oracle, hr.state⟩

theorem conclude_follows {why : Termination} {k : Nat} {history : List Float} {result : Except Error Report}
    (hr : Follows f P r) (h : r.conclude g why k history = (result, r')) :
    (r.asFunction f).conclude g why k history = (result, r'.asFunction f) ∧ Follows f P r' := by
  rw [conclude] at h ⊢
  rw [save_asFunction]
  rcases hsave : r.save "refined_grammar_final.json" g with e | r₁
  · rw [hsave] at h
    cases h
    exact ⟨rfl, hr⟩
  · rw [hsave] at h
    cases h
    exact ⟨rfl, hr.save hsave⟩

theorem refineWithin_follows {left k : Nat} {history : List Float} {result : Except Error Report}
    (hr : Follows f P r) (h : refineWithin left r g k history = (result, r')) :
    refineWithin left (r.asFunction f) g k history = (result, r'.asFunction f) ∧ Follows f P r' := by
  induction left generalizing r g k history with
  | zero =>
    rw [refineWithin] at h ⊢
    rw [asFunction_isCancelled]
    split at h
    · rename_i hcancel
      rw [if_pos hcancel]
      exact conclude_follows hr h
    · rename_i hgo
      rw [if_neg hgo]
      exact conclude_follows hr h
  | succ left ih =>
    rw [refineWithin] at h ⊢
    rw [asFunction_isCancelled]
    split at h
    · rename_i hcancel
      rw [if_pos hcancel]
      exact conclude_follows hr h
    · rename_i hgo
      rw [if_neg hgo]
      rw [asFunction_config]
      split at h
      · rename_i htime
        rw [if_pos htime]
        exact conclude_follows hr h
      · rename_i htime
        rw [if_neg htime]
        rcases hone : r.refineOnce g k with ⟨e | round, r₁⟩
        · obtain ⟨hone', hr₁⟩ := refineOnce_follows hr hone
          rw [hone] at h
          cases h
          exact ⟨by rw [hone'], hr₁⟩
        · obtain ⟨hone', hr₁⟩ := refineOnce_follows hr hone
          simp only [hone, hone'] at h ⊢
          rcases round with p | p | ⟨g', p⟩
          · exact conclude_follows hr₁ h
          · exact conclude_follows hr₁ h
          · simp only [save_asFunction] at h ⊢
            rcases hsave : r₁.save ("refined_grammar_" ++ toString (k + 1) ++ ".json") g' with e | r₂
            · simp only [hsave] at h
              cases h
              exact ⟨rfl, hr₁⟩
            · simp only [hsave] at h
              exact ih (hr₁.save hsave) h

/-- Refinement with an oracle that follows a function is refinement with the function. -/
theorem refine_follows (hr : Follows f P r) (g : Grammar) :
    (r.asFunction f).refine g = ((r.refine g).1, (r.refine g).2.asFunction f) :=
  (refineWithin_follows hr (rfl : r.refine g = ((r.refine g).1, (r.refine g).2))).1

end Refiner

end GrammarInference
