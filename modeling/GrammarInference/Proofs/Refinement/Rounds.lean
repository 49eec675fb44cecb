/-
GrammarInference/Proofs/Refinement/Rounds.lean

Refinement never loses an input that is known to be valid.

Design.  A run is a sequence of stages, each with the refiner and the grammar at the start of a round; `Next`
leads from a stage to the one behind it.  The step lemma (`refineOnce_spec`) says that the grammar of a round
covers all that is known at its end, and that nothing known is forgotten.  Two runs are then inductions: along
the stages for what holds at the start of every round (`Stage.Reached.covers`), and along the recursion of
`refineWithin` for what holds at the end (`refineWithin_spec`).  They meet in `Stage.Reached.run_eq`: what is
left of a run at a stage is the run from that stage.
-/
import GrammarInference.Proofs.Refinement.Candidates
import GrammarInference.Proofs.Refinement.Sampling
import Mathlib.Logic.Relation

namespace GrammarInference

namespace Refiner

variable {σ : Type} {r r' r₁ : Refiner σ} {g : Grammar}

/-! ### One round -/

/-- A counterexample that yields another grammar yields one that covers all known inputs. -/
theorem firstRefined_spec (hr : Patient r) {seed i : Nat} {inputs : List String}
    {result : Except Error (Option Grammar)} (h : firstRefined g seed i inputs r = (result, r')) :
    Keeps r r' ∧ ∀ refined, result = .ok (some refined) → r'.Covers refined := by
  induction inputs generalizing i r with
  | nil =>
    cases h
    exact ⟨.refl _, fun refined hrefined => by cases hrefined⟩
  | cons input rest ih =>
    rcases firstRefined_cases h with ⟨-, rfl, rfl⟩ | ⟨-, ⟨e, hone, rfl⟩ | ⟨refined, hone, -, rfl⟩ |
      ⟨found, r₁, hone, -, hrest⟩⟩
    · exact ⟨.refl _, fun refined hrefined => by cases hrefined⟩
    · exact ⟨(refineForInput_spec hr hone).1, fun refined hrefined => by cases hrefined⟩
    · exact refineForInput_spec hr hone
    · -- nothing came of the input, so the next one is tried
      obtain ⟨hkeeps, -⟩ := refineForInput_spec hr hone
      obtain ⟨hkeeps', hcovers⟩ := ih (hkeeps.patient hr) hrest
      exact ⟨hkeeps.trans hkeeps', hcovers⟩

/-- The grammar in effect behind a round. -/
def Round.grammar (g : Grammar) : Round → Grammar
  | .refined g' _ => g'
  | .converged _ | .exhausted _ => g

/-- The inputs that a round samples and the oracle accepts. -/
def Accepts (r : Refiner σ) (g : Grammar) (round : Nat) (w : String) : Prop :=
  ∃ sample s, sampleAndClassify g r.oracle r.config ((r.config.seed + round) % UInt64.size) r.isCancelled
    r.oracleState = (.ok sample, s) ∧ w ∈ sample.valid

/-- The refiner `r'` comes from `r` by learning inputs. -/
structure Learns (r r' : Refiner σ) : Prop where
  /-- The settings are the same. -/
  config_eq : r'.config = r.config
  /-- Nothing is cancelled. -/
  isCancelled_eq : r'.isCancelled = r.isCancelled
  /-- Nothing is forgotten. -/
  knows : ∀ w, r.Knows w → r'.Knows w

theorem Keeps.learns (h : Keeps r r') : Learns r r' :=
  ⟨h.config_eq, h.isCancelled_eq, fun w => (h.knows_iff w).mpr⟩

theorem Learns.trans {r'' : Refiner σ} (h : Learns r r') (h' : Learns r' r'') : Learns r r'' :=
  ⟨h'.config_eq.trans h.config_eq, h'.isCancelled_eq.trans h.isCancelled_eq,
    fun w hw => h'.knows w (h.knows w hw)⟩

theorem Learns.patient (h : Learns r r') (hr : Patient r) : Patient r' :=
  ⟨h.config_eq ▸ hr.parseTimeout_ne_zero, h.isCancelled_eq.trans hr.isCancelled_eq⟩

/-- The refiner after sampling. -/
def afterSampling (r : Refiner σ) (sample : Sample) (s : σ) : Refiner σ :=
  { r with oracleState := s, confirmed := r.confirmed.union sample.valid }

theorem knows_afterSampling {sample : Sample} {s : σ} {w : String} :
    (r.afterSampling sample s).Knows w ↔ r.Knows w ∨ w ∈ sample.valid := by
  rw [Knows, Knows, afterSampling, SortedSet.mem_union, or_assoc]

theorem learns_afterSampling (r : Refiner σ) (sample : Sample) (s : σ) : Learns r (r.afterSampling sample s) :=
  ⟨rfl, rfl, fun _ hw => knows_afterSampling.mpr (.inl hw)⟩

/-- The outcome of a round whose search ended with some grammar, or with none. -/
def Round.ofFound (p : Float) : Option Grammar → Round
  | none => .exhausted (some p)
  | some g' => .refined g' (some p)

/-- How a round goes: its sampling fails, or its sample settles it, or counterexamples are tried. -/
theorem refineOnce_cases {k : Nat} {result : Except Error Round} (h : r.refineOnce g k = (result, r')) :
    (∃ e s, sampleAndClassify g r.oracle r.config ((r.config.seed + k) % UInt64.size) r.isCancelled
      r.oracleState = (.error e, s) ∧ result = .error e ∧ r' = { r with oracleState := s }) ∨
    ∃ sample s, sampleAndClassify g r.oracle r.config ((r.config.seed + k) % UInt64.size) r.isCancelled
      r.oracleState = (.ok sample, s) ∧
      ((result = .ok (.exhausted none) ∨ ∃ p, result = .ok (.converged (some p))) ∧
          r' = r.afterSampling sample s ∨
        ∃ p found, firstRefined g ((r.config.seed + k) % UInt64.size) 0
          (sample.shortestInvalid r.config.shortestCount) (r.afterSampling sample s) = (found, r') ∧
          result = found.map (Round.ofFound p)) := by
  rw [refineOnce] at h
  rcases hsample : sampleAndClassify g r.oracle r.config ((r.config.seed + k) % UInt64.size) r.isCancelled
    r.oracleState with ⟨e | sample, s⟩
  · simp only [hsample] at h
    cases h
    exact .inl ⟨e, s, rfl, rfl, rfl⟩
  · refine .inr ⟨sample, s, rfl, ?_⟩
    simp only [hsample] at h
    rw [← afterSampling] at h
    rcases hp : sample.precision with - | p
    · simp only [hp] at h
      cases h
      exact .inl ⟨.inl rfl, rfl⟩
    · simp only [hp] at h
      split at h
      · cases h
        exact .inl ⟨.inr ⟨p, rfl⟩, rfl⟩
      · right
        rcases hfirst : firstRefined g ((r.config.seed + k) % UInt64.size) 0
          (sample.shortestInvalid r.config.shortestCount) (r.afterSampling sample s) with ⟨found, r₁⟩
        rw [hfirst] at h
        refine ⟨p, found, ?_⟩
        rcases found with e | - | refined <;> cases h <;> exact ⟨rfl, rfl⟩

/-- A round learns the inputs that it accepts, and the grammar behind it covers all that is known then. -/
theorem refineOnce_spec (hr : Patient r) (hg : r.Covers g) {k : Nat} {round : Round}
    (h : r.refineOnce g k = (.ok round, r')) :
    Learns r r' ∧ (∀ w, r.Accepts g k w → r'.Knows w) ∧ r'.Covers (round.grammar g) := by
  rcases refineOnce_cases h with ⟨e, s, -, heq, -⟩ | ⟨sample, s, hsample, hrest⟩
  · cases heq
  · have hvalid := sampleAndClassify_spec hsample
    have hlearns := r.learns_afterSampling sample s
    -- sampling is a function of the refiner, so the sample of the round is the one at hand
    have haccepts : ∀ w, r.Accepts g k w → (r.afterSampling sample s).Knows w := by
      rintro w ⟨sample', s', hsample', hw⟩
      rw [hsample] at hsample'
      cases hsample'
      exact knows_afterSampling.mpr (.inr hw)
    have hcovers : (r.afterSampling sample s).Covers g :=
      fun w hw => (knows_afterSampling.mp hw).elim (hg w) fun hw => hvalid w (.inl hw)
    -- the search behind the sampling learns nothing
    have hsearch : Keeps (r.afterSampling sample s) r' ∧ r'.Covers (round.grammar g) := by
      rcases hrest with ⟨heq | ⟨p, heq⟩, rfl⟩ | ⟨p, found, hfirst, heq⟩
      · cases heq
        exact ⟨.refl _, hcovers⟩
      · cases heq
        exact ⟨.refl _, hcovers⟩
      · obtain ⟨hkeeps, hrefined⟩ := firstRefined_spec (hlearns.patient hr) hfirst
        rcases found with e | - | refined <;> cases heq
        · exact ⟨hkeeps, hkeeps.covers hcovers⟩
        · exact ⟨hkeeps, hrefined refined rfl⟩
    obtain ⟨hkeeps, hround⟩ := hsearch
    exact ⟨hlearns.trans hkeeps.learns, fun w hw => (hkeeps.knows_iff w).mpr (haccepts w hw), hround⟩

/-- A refined grammar comes from a counterexample, after the round has learned what it sampled. -/
theorem firstRefined_of_refineOnce {k : Nat} {g' : Grammar} {p : Option Float}
    (h : r.refineOnce g k = (.ok (.refined g' p), r')) :
    ∃ r₁ seed inputs, Learns r r₁ ∧ firstRefined g seed 0 inputs r₁ = (.ok (some g'), r') := by
  rcases refineOnce_cases h with ⟨e, s, -, heq, -⟩ |
    ⟨sample, s, -, ⟨heq | ⟨p', heq⟩, -⟩ | ⟨p', found, hfirst, heq⟩⟩
  · cases heq
  · cases heq
  · cases heq
  · rcases found with e | - | refined <;> cases heq
    exact ⟨_, _, _, r.learns_afterSampling sample s, hfirst⟩

/-! ### Stages -/

/-- The start of a round. -/
structure Stage (σ : Type) where
  /-- The refiner. -/
  refiner : Refiner σ
  /-- The grammar in effect. -/
  grammar : Grammar
  /-- The number of refinements so far. -/
  refinements : Nat

/-- A round is run at the stage. -/
def Stage.Starts (a : Stage σ) : Prop :=
  a.refiner.isCancelled = false ∧ a.refinements < a.refiner.config.maxRefinements ∧
    a.refiner.config.maxRefinementTime ≠ 0

/-- The round at the stage refines the grammar; it is kept in a file, and the next round is due. -/
def Stage.Next (a b : Stage σ) : Prop :=
  a.Starts ∧ b.refinements = a.refinements + 1 ∧
    ∃ p r, a.refiner.refineOnce a.grammar a.refinements = (.ok (.refined b.grammar p), r) ∧
      r.save ("refined_grammar_" ++ toString (a.refinements + 1) ++ ".json") b.grammar = .ok b.refiner

/-- The stage comes up in the refinement of `g`. -/
def Stage.Reached (r : Refiner σ) (g : Grammar) (b : Stage σ) : Prop :=
  Relation.ReflTransGen Stage.Next ⟨r, g, 0⟩ b

/-- The input is known at the stage, or accepted in its round. -/
def Stage.Meets (a : Stage σ) (w : String) : Prop :=
  a.refiner.Knows w ∨ a.Starts ∧ a.refiner.Accepts a.grammar a.refinements w

/-- Keeping a grammar in a file learns and forgets nothing. -/
theorem keeps_of_save {name : String} (h : r.save name g = .ok r') : Keeps r r' := by
  rw [save] at h
  split at h
  · cases h
  · cases h
    exact ⟨rfl, rfl, fun _ => Iff.rfl⟩

theorem conclude_spec {why : Termination} {k : Nat} {history : List Float} {report : Report}
    (h : r.conclude g why k history = (.ok report, r')) : Keeps r r' ∧ report.grammar = g := by
  rw [conclude] at h
  rcases hsave : r.save "refined_grammar_final.json" g with e | r₁
  · simp only [hsave] at h
    cases h
  · simp only [hsave] at h
    cases h
    exact ⟨keeps_of_save hsave, rfl⟩

/-- How a run goes: it reports at once, or after a round that refines nothing, or goes on with a refined grammar;
or it ends with an error of its round or of keeping the grammar in a file. -/
theorem refineWithin_cases {left k : Nat} {history : List Float} {result : Except Error Report}
    (h : refineWithin left r g k history = (result, r')) :
    (r.isCancelled = true ∨ left = 0 ∨ r.config.maxRefinementTime = 0) ∧
        (∃ why, r.conclude g why k history = (result, r')) ∨
      r.isCancelled = false ∧ r.config.maxRefinementTime ≠ 0 ∧ ∃ left', left = left' + 1 ∧
        ((∃ e, r.refineOnce g k = (.error e, r') ∧ result = .error e) ∨
          (∃ round r₁ why history, r.refineOnce g k = (.ok round, r₁) ∧ round.grammar g = g ∧
            r₁.conclude g why k history = (result, r')) ∨
          ∃ g' p r₁, r.refineOnce g k = (.ok (.refined g' p), r₁) ∧
            ((∃ e, r₁.save ("refined_grammar_" ++ toString (k + 1) ++ ".json") g' = .error e ∧
                result = .error e ∧ r' = r₁) ∨
              ∃ r₂ history, r₁.save ("refined_grammar_" ++ toString (k + 1) ++ ".json") g' = .ok r₂ ∧
                refineWithin left' r₂ g' (k + 1) history = (result, r'))) := by
  by_cases hcancel : r.isCancelled = true
  · refine .inl ⟨.inl hcancel, .cancelled, ?_⟩
    rw [← h]
    cases left <;> rw [refineWithin, if_pos hcancel]
  · rcases left with - | left
    · rw [refineWithin, if_neg hcancel] at h
      exact .inl ⟨.inr (.inl rfl), _, h⟩
    · rw [refineWithin, if_neg hcancel] at h
      rw [Bool.not_eq_true] at hcancel
      simp only at h
      split at h
      · rename_i htime
        exact .inl ⟨.inr (.inr htime), _, h⟩
      · rename_i htime
        refine .inr ⟨hcancel, htime, left, rfl, ?_⟩
        rcases hone : r.refineOnce g k with ⟨e | round, r₁⟩
        · simp only [hone] at h
          cases h
          exact .inl ⟨e, rfl, rfl⟩
        · simp only [hone] at h
          rcases round with p | p | ⟨g', p⟩
          · exact .inr (.inl ⟨_, _, _, _, rfl, rfl, h⟩)
          · exact .inr (.inl ⟨_, _, _, _, rfl, rfl, h⟩)
          · refine .inr (.inr ⟨g', p, r₁, rfl, ?_⟩)
            rcases hsave : r₁.save ("refined_grammar_" ++ toString (k + 1) ++ ".json") g' with e | r₂
            · simp only [hsave] at h
              cases h
              exact .inl ⟨e, rfl, rfl, rfl⟩
            · simp only [hsave] at h
              exact .inr ⟨r₂, _, rfl, h⟩

/-- What a run learns from a stage on, and what its last grammar covers. -/
theorem refineWithin_spec {left k : Nat} {history : List Float} {report : Report} (hr : Patient r)
    (hg : r.Covers g) (h : refineWithin left r g k history = (.ok report, r')) :
    Learns r r' ∧ r'.Covers report.grammar ∧
      (left ≠ 0 → r.config.maxRefinementTime ≠ 0 → ∀ w, r.Accepts g k w → r'.Knows w) := by
  induction left generalizing r g k history with
  | zero =>
    obtain ⟨-, why, hconclude⟩ | ⟨-, -, left', hleft, -⟩ := refineWithin_cases h
    · obtain ⟨hkeeps, hgrammar⟩ := conclude_spec hconclude
      exact ⟨hkeeps.learns, hgrammar ▸ hkeeps.covers hg, fun hleft => absurd rfl hleft⟩
    · cases hleft
  | succ left ih =>
    rcases refineWithin_cases h with ⟨hwhy, why, hconclude⟩ | ⟨-, -, left', hleft, hround⟩
    · obtain ⟨hkeeps, hgrammar⟩ := conclude_spec hconclude
      refine ⟨hkeeps.learns, hgrammar ▸ hkeeps.covers hg, fun hleft htime => ?_⟩
      rcases hwhy with hcancel | hzero | htime'
      · rw [hr.isCancelled_eq] at hcancel
        cases hcancel
      · exact absurd hzero hleft
      · exact absurd htime' htime
    · cases hleft
      rcases hround with ⟨e, -, heq⟩ | ⟨round, r₁, why, history', hone, hsame, hconclude⟩ |
        ⟨g', p, r₁, hone, hsaved⟩
      · cases heq
      · -- a round that refines nothing ends the run with the grammar it began with
        obtain ⟨hlearns, haccepts, hcovers⟩ := refineOnce_spec hr hg hone
        rw [hsame] at hcovers
        obtain ⟨hkeeps, hgrammar⟩ := conclude_spec hconclude
        exact ⟨hlearns.trans hkeeps.learns, hgrammar ▸ hkeeps.covers hcovers,
          fun _ _ w hw => hkeeps.learns.knows w (haccepts w hw)⟩
      · obtain ⟨hlearns, haccepts, hcovers⟩ := refineOnce_spec hr hg hone
        rcases hsaved with ⟨e, -, heq, -⟩ | ⟨r₂, history', hsave, hrest⟩
        · cases heq
        · have hkeeps := keeps_of_save hsave
          have hr₂ := hkeeps.patient (hlearns.patient hr)
          obtain ⟨hlearns', hcovers', -⟩ := ih hr₂ (hkeeps.covers hcovers) hrest
          have hall := hkeeps.learns.trans hlearns'
          exact ⟨hlearns.trans hall, hcovers', fun _ _ w hw => hall.knows w (haccepts w hw)⟩

/-- From a stage to the next one, inputs are learned, and what the grammar covers is kept up. -/
theorem Stage.Next.spec {a b : Stage σ} (h : a.Next b) (hr : Patient a.refiner)
    (hg : a.refiner.Covers a.grammar) : Learns a.refiner b.refiner ∧ b.refiner.Covers b.grammar := by
  obtain ⟨-, -, p, r₁, hone, hsave⟩ := h
  obtain ⟨hlearns, -, hcovers⟩ := refineOnce_spec hr hg hone
  have hkeeps := keeps_of_save hsave
  exact ⟨hlearns.trans hkeeps.learns, hkeeps.covers hcovers⟩

/-- A stage that is reached is patient, and its grammar covers all that is known. -/
theorem Stage.Reached.covers (hr : Patient r) (hg : r.Covers g) {b : Stage σ} (h : Stage.Reached r g b) :
    Patient b.refiner ∧ b.refiner.Covers b.grammar := by
  induction h with
  | refl => exact ⟨hr, hg⟩
  | tail _ hnext ih =>
    obtain ⟨hlearns, hcovers⟩ := hnext.spec ih.1 ih.2
    exact ⟨hlearns.patient ih.1, hcovers⟩

/-- A run from a stage goes on as the run from the next one. -/
theorem Stage.Next.refineWithin_eq {a b : Stage σ} (h : a.Next b) (left : Nat) (history : List Float) :
    ∃ history', refineWithin (left + 1) a.refiner a.grammar a.refinements history =
      refineWithin left b.refiner b.grammar b.refinements history' := by
  obtain ⟨⟨hcancel, -, htime⟩, hk, p, r₁, hone, hsave⟩ := h
  refine ⟨history ++ p.toList, ?_⟩
  rw [refineWithin, hcancel, if_neg (by decide)]
  simp only [hone, hsave, hk, if_neg htime]
  rfl

/-- What is left of a run at a stage that is reached is the run from that stage. -/
theorem Stage.Reached.run_eq (hr : Patient r) (hg : r.Covers g) {b : Stage σ} (h : Stage.Reached r g b) :
    ∃ left history,
      r.refine g = refineWithin left b.refiner b.grammar b.refinements history ∧
        left + b.refinements = b.refiner.config.maxRefinements := by
  induction h with
  | refl => exact ⟨r.config.maxRefinements, [], rfl, rfl⟩
  | @tail a b hreach hnext ih =>
    obtain ⟨left, history, hrun, hleft⟩ := ih
    obtain ⟨hpatient, hcovers⟩ := Stage.Reached.covers hr hg hreach
    have hconfig := (hnext.spec hpatient hcovers).1.config_eq
    have hlt := hnext.1.2.1
    obtain ⟨left, rfl⟩ : ∃ l, left = l + 1 := ⟨left - 1, by omega⟩
    obtain ⟨history', heq⟩ := hnext.refineWithin_eq left history
    refine ⟨left, history', hrun.trans heq, ?_⟩
    rw [hnext.2.1, hconfig]
    omega

/-- **Refinement never underapproximates.**  If the grammar derives all known inputs, then so does the grammar of
every stage, and at the end the refined one; and the inputs known then are all that were known or accepted at
any stage.  The run is not cancelled, and its parses are given some time; as the clock stands still, neither changes
on the way.  A run that ends earlier because its time is spent ends at one of the stages. -/
theorem refine_never_underapproximates {report : Report} (hparse : r.config.parseTimeout ≠ 0)
    (hcancel : r.isCancelled = false)
    (hknown : ∀ w, w ∈ r.discriminating ∨ w ∈ r.confirmed → Grammar.InLanguage g startName w.toList)
    (h : r.refine g = (.ok report, r')) :
    (∀ w, w ∈ r'.discriminating ∨ w ∈ r'.confirmed →
      Grammar.InLanguage report.grammar startName w.toList) ∧
    ∀ b, Stage.Reached r g b →
      (∀ w, w ∈ b.refiner.discriminating ∨ w ∈ b.refiner.confirmed →
        Grammar.InLanguage b.grammar startName w.toList) ∧
      ∀ w, b.Meets w → w ∈ r'.discriminating ∨ w ∈ r'.confirmed := by
  have hr : Patient r := ⟨hparse, hcancel⟩
  obtain ⟨-, hcovers, -⟩ := refineWithin_spec hr hknown h
  refine ⟨hcovers, fun b hb => ?_⟩
  obtain ⟨hpatient, hstage⟩ := hb.covers hr hknown
  obtain ⟨left, history, hrun, hleft⟩ := hb.run_eq hr hknown
  obtain ⟨hlearns, -, haccepts⟩ := refineWithin_spec hpatient hstage (hrun.symm.trans h)
  refine ⟨hstage, fun w hw => ?_⟩
  rcases hw with hw | ⟨⟨-, hlt, htime⟩, hw⟩
  · exact hlearns.knows w hw
  · exact haccepts (by omega) htime w hw

/-- Two letters, each one of two. -/
def letterPairs : Grammar := .ofList
  [(startName, [[.nonterminal "<x>", .nonterminal "<x>"]]), ("<x>", [[.terminal "a"], [.terminal "b"]])]

/-- A refiner that knows one input and samples two, with an oracle that accepts what begins with `a`. -/
def choosing : Refiner Unit :=
  { new (.ofFunction fun w => if w.toList.head? = some 'a' then .accept else .reject) ()
      { samplesPerRound := 2, maxAttemptsFactor := 1, probesPerAlternative := 1 } false [] with
    discriminating := OrderedSet.insert ∅ "aa" }

theorem covers_letterPairs (w : String) (hw : w ∈ choosing.discriminating ∨ w ∈ choosing.confirmed) :
    Grammar.InLanguage letterPairs startName w.toList := by
  rcases hw with hw | hw
  · obtain rfl : w = "aa" := List.mem_singleton.mp hw
    have hx : [.terminal "a"] ∈ letterPairs.alternatives "<x>" := by decide
    exact ⟨[.nonterminal "<x>", .nonterminal "<x>"], by decide,
      .nonterminal hx (.terminal .nil) (.nonterminal hx (.terminal .nil) .nil)⟩
  · exact absurd hw List.not_mem_nil

/-- The input `ab` is not known, and is accepted in the first round.  Without the letter `b` it would be lost, so this
letter is taken away in the first place only, under a fresh name; the input is known and derived in the end. -/
theorem refine_letterPairs : ¬choosing.Knows "ab" ∧ Stage.Meets ⟨choosing, letterPairs, 0⟩ "ab" ∧
    ∃ report r', choosing.refine letterPairs = (.ok report, r') ∧ report.refinements = 1 ∧
      report.grammar = .ofList [(startName, [[.nonterminal "<x_refined_0>", .nonterminal "<x>"]]),
        ("<x>", [[.terminal "a"], [.terminal "b"]]), ("<x_refined_0>", [[.terminal "a"]])] ∧
      ("ab" ∈ r'.discriminating ∨ "ab" ∈ r'.confirmed) ∧ Grammar.InLanguage report.grammar startName "ab".toList := by
  have hunknown : ¬choosing.Knows "ab" := by
    rintro (hw | hw)
    · exact absurd (List.mem_singleton.mp hw) (by decide)
    · exact absurd hw List.not_mem_nil
  have hsample : (sampleAndClassify letterPairs choosing.oracle choosing.config
      ((choosing.config.seed + 0) % UInt64.size) choosing.isCancelled choosing.oracleState).1 =
      .ok ⟨.ofList ["ab"], .ofList ["bb"], 0⟩ := by decide +kernel
  have hmeets : Stage.Meets ⟨choosing, letterPairs, 0⟩ "ab" :=
    .inr ⟨⟨rfl, by decide, by decide⟩, _, _, Prod.ext hsample rfl, List.mem_singleton_self "ab"⟩
  have hresult : ((choosing.refine letterPairs).1.map fun report => (report.grammar, report.refinements)) =
      .ok (.ofList [(startName, [[.nonterminal "<x_refined_0>", .nonterminal "<x>"]]),
        ("<x>", [[.terminal "a"], [.terminal "b"]]), ("<x_refined_0>", [[.terminal "a"]])], 1) := by decide +kernel
  rcases h : choosing.refine letterPairs with ⟨e | report, r'⟩
  · rw [h] at hresult
    cases hresult
  · rw [h] at hresult
    obtain ⟨hgrammar, hrefinements⟩ := Prod.mk.inj (Except.ok.inj hresult)
    obtain ⟨hcovers, hstages⟩ := refine_never_underapproximates (by decide) rfl covers_letterPairs h
    have hknown := (hstages ⟨choosing, letterPairs, 0⟩ .refl).2 "ab" hmeets
    exact ⟨hunknown, hmeets, report, r', rfl, hrefinements, hgrammar, hknown, hcovers "ab" hknown⟩

end Refiner

end GrammarInference
