/-
GrammarInference/Proofs/Refinement/Candidates.lean

Accepted candidates derive every input that is known to be valid.

Design.  A refiner `Knows` the inputs that it confirmed and those that refuted candidates.  It `Covers` them by
a grammar if the grammar derives them all.  The search of a tree changes the refiner in harmless ways only
(`Keeps`): it asks the oracle, gives out names, and remembers a refuting input, which it knew before.  A
candidate is accepted right after all known inputs were checked, and an accepted one is handed up without
another check, so at the end of the search the known inputs are still those that were checked.
-/
import GrammarInference.Proofs.Earley.Recognizer
import GrammarInference.Proofs.Grammar.Dedup
import GrammarInference.Proofs.Grammar.Reachable
import GrammarInference.Proofs.Refinement.Steps

namespace GrammarInference

namespace Refiner

variable {σ : Type}

/-! ### Known inputs -/

/-- The input was confirmed, or it refuted a candidate. -/
def Knows (r : Refiner σ) (w : String) : Prop := w ∈ r.discriminating ∨ w ∈ r.confirmed

/-- The grammar derives all known inputs. -/
def Covers (r : Refiner σ) (g : Grammar) : Prop :=
  ∀ w, r.Knows w → Grammar.InLanguage g startName w.toList

/-- The refiner `r'` comes from `r` without learning or forgetting an input. -/
structure Keeps (r r' : Refiner σ) : Prop where
  /-- The settings are the same. -/
  config_eq : r'.config = r.config
  /-- Nothing is cancelled. -/
  isCancelled_eq : r'.isCancelled = r.isCancelled
  /-- The same inputs are known. -/
  knows_iff : ∀ w, r'.Knows w ↔ r.Knows w

variable {r r' r'' : Refiner σ} {g : Grammar}

theorem Keeps.refl (r : Refiner σ) : Keeps r r := ⟨rfl, rfl, fun _ => Iff.rfl⟩

theorem Keeps.trans (h : Keeps r r') (h' : Keeps r' r'') : Keeps r r'' :=
  ⟨h'.config_eq.trans h.config_eq, h'.isCancelled_eq.trans h.isCancelled_eq,
    fun w => (h'.knows_iff w).trans (h.knows_iff w)⟩

theorem Keeps.covers (h : Keeps r r') (hg : r.Covers g) : r'.Covers g := fun w hw => hg w ((h.knows_iff w).mp hw)

/-- The refiner was not cancelled, and its parses have time. -/
structure Patient (r : Refiner σ) : Prop where
  /-- There is time for a parse. -/
  parseTimeout_ne_zero : r.config.parseTimeout ≠ 0
  /-- Nothing is cancelled. -/
  isCancelled_eq : r.isCancelled = false

theorem Patient.parseDeadline_eq (h : Patient r) : r.parseDeadline = .never := by
  rw [parseDeadline, h.isCancelled_eq, Deadline.after, if_neg h.parseTimeout_ne_zero]
  rfl

theorem Keeps.patient (h : Keeps r r') (hr : Patient r) : Patient r' :=
  ⟨h.config_eq ▸ hr.parseTimeout_ne_zero, h.isCancelled_eq.trans hr.isCancelled_eq⟩

/-! ### Validation -/

theorem recognize_never_eq (g : Grammar) (w : String) :
    Earley.recognize (.ofGrammar g) w .never = .accepted ∧ Grammar.InLanguage g startName w.toList ∨
      Earley.recognize (.ofGrammar g) w .never = .rejected ∧ ¬ Grammar.InLanguage g startName w.toList := by
  have haccepted : Earley.recognizeFrom (.ofGrammar g) startName w .never = .accepted ↔
      Grammar.InLanguage g startName w.toList := Earley.recognizeFrom_never_eq_accepted_iff
  obtain ⟨c, -, -, hrec⟩ := Earley.recognizeFrom_never g startName w
  rw [Earley.recognize]
  by_cases hw : Grammar.InLanguage g startName w.toList
  · exact .inl ⟨haccepted.mpr hw, hw⟩
  · refine .inr ⟨?_, hw⟩
    rw [hrec]
    split at hrec
    · exact absurd (haccepted.mp hrec) hw
    · rename_i hno
      rw [if_neg hno]

/-- Without a deadline a check finds that all inputs are derived, or names the first one that is not. -/
theorem checkInputs_first (g : Grammar) (limit timeouts : Nat) (inputs : List String) :
    checkInputs (.ofGrammar g) .never limit timeouts inputs = .derivesAll ∧
        (∀ w ∈ inputs, Grammar.InLanguage g startName w.toList) ∨
      ∃ before w rest, inputs = before ++ w :: rest ∧
        checkInputs (.ofGrammar g) .never limit timeouts inputs = .rejects w ∧
        ¬Grammar.InLanguage g startName w.toList ∧ ∀ v ∈ before, Grammar.InLanguage g startName v.toList := by
  induction inputs generalizing timeouts with
  | nil => exact .inl ⟨rfl, nofun⟩
  | cons input inputs ih =>
    rw [checkInputs]
    rcases recognize_never_eq g input with ⟨hrec, hin⟩ | ⟨hrec, hout⟩
    · rw [hrec]
      rcases ih 0 with ⟨hall, hinputs⟩ | ⟨before, w, rest, rfl, hrejects, hout, hbefore⟩
      · exact .inl ⟨hall, List.forall_mem_cons.mpr ⟨hin, hinputs⟩⟩
      · exact .inr ⟨input :: before, w, rest, rfl, hrejects, hout, List.forall_mem_cons.mpr ⟨hin, hbefore⟩⟩
    · rw [hrec]
      exact .inr ⟨[], input, inputs, rfl, rfl, hout, nofun⟩

theorem mem_checklist_iff {w : String} : w ∈ r.checklist ↔ r.Knows w := by
  rw [checklist, Sample.byLength, List.mem_append, List.mem_mergeSort]
  rfl

/-- An update that is let through derives all known inputs. -/
theorem isUnderapproximating_spec (hr : Patient r) {update : Grammar} {b : Bool}
    (h : r.isUnderapproximating g update = (b, r')) :
    Keeps r r' ∧ (b = false → r'.Covers (g.overlay update)) := by
  rw [isUnderapproximating, hr.parseDeadline_eq] at h
  rcases checkInputs_first (g.overlay update) (max r.config.stopAfterTimeouts 1) 0 r.checklist with
    ⟨hfind, hall⟩ | ⟨before, w, rest, hlist, hfind, -, -⟩
  · simp only [hfind] at h
    cases h
    exact ⟨.refl r, fun _ v hv => hall v (mem_checklist_iff.mpr hv)⟩
  · simp only [hfind] at h
    cases h
    refine ⟨⟨rfl, rfl, fun v => ⟨?_, ?_⟩⟩, fun hfalse => by cases hfalse⟩
    · -- the refuting input was known
      have hw : w ∈ r.checklist := hlist ▸ List.mem_append_right before List.mem_cons_self
      rintro (hv | hv)
      · rcases OrderedSet.mem_insert.mp hv with hv | rfl
        · exact .inl hv
        · exact mem_checklist_iff.mp hw
      · exact .inr hv
    · rintro (hv | hv)
      · exact .inl (OrderedSet.mem_insert.mpr (.inl hv))
      · exact .inr hv

/-! ### Candidates -/

/-- If the candidate is accepted, then the grammar with its update covers all known inputs. -/
def Validated (g : Grammar) (s : Search σ) (c : Candidate) : Prop :=
  c.accepted = true → s.refiner.Covers (g.overlay c.update)

variable {s s' : Search σ} {n : String}

theorem freshName_keeps (r : Refiner σ) (g : Grammar) (n : String) : Keeps r (r.freshName g n).2 :=
  ⟨rfl, rfl, fun _ => Iff.rfl⟩

theorem propose_spec (hs : Patient s.refiner) {quality : Nat} {update : Grammar} {fallback : String → Grammar}
    {c : Candidate} (h : propose s g n quality update fallback = (c, s')) :
    Keeps s.refiner s'.refiner ∧ Validated g s' c := by
  rcases propose_cases h with ⟨r, hu, rfl, rfl⟩ | ⟨r, hu, rfl, rfl⟩
  · obtain ⟨hkeeps, hcovers⟩ := isUnderapproximating_spec hs hu
    exact ⟨hkeeps, fun _ => hcovers rfl⟩
  · obtain ⟨hkeeps, -⟩ := isUnderapproximating_spec hs hu
    -- a candidate whose update is refused is not accepted
    exact ⟨hkeeps.trans (freshName_keeps r g n), fun hfalse => by cases hfalse⟩

theorem refineInParent_spec (hs : Patient s.refiner) {current : Rule} {i : Nat} {child c : Candidate}
    (h : refineInParent s g n current i child = (c, s')) :
    Keeps s.refiner s'.refiner ∧ Validated g s' c := by
  rw [refineInParent] at h
  exact propose_spec hs h

/-- Scoring asks the oracle, and changes nothing else about the refiner. -/
theorem ruleQualities_keeps (root : NodeId) (path : List Nat) (n : String) (count : Nat) (s : Search σ) :
    Keeps s.refiner (ruleQualities root path n count s).2.refiner := by
  rcases h : ruleQualities root path n count s with ⟨result, s'⟩
  rcases ruleQualities_cases h with ⟨e, hp, -⟩ | ⟨owned, s₁, -, -, rfl⟩
  · show Keeps s.refiner s'.refiner
    rw [probes_refiner hp]
    exact .refl _
  · exact ⟨rfl, rfl, fun _ => Iff.rfl⟩

theorem refineAlternatives_spec (hs : Patient s.refiner) {root : NodeId} {path : List Nat}
    {result : Except Error (Option Candidate)} (h : refineAlternatives g root path n s = (result, s')) :
    Keeps s.refiner s'.refiner ∧ ∀ c, result = .ok (some c) → Validated g s' c := by
  have hkeeps := ruleQualities_keeps root path n (g.alternatives n).length s
  rcases refineAlternatives_cases h with ⟨e, hq, rfl⟩ | ⟨qualities, s₁, hq, hrest⟩
  · rw [hq] at hkeeps
    exact ⟨hkeeps, fun c hc => by cases hc⟩
  · rw [hq] at hkeeps
    rcases hrest with ⟨rfl, rfl⟩ | ⟨candidate, hp, rfl⟩
    · exact ⟨hkeeps, fun c hc => by cases hc⟩
    · obtain ⟨hkeeps', hvalid⟩ := propose_spec (hkeeps.patient hs) hp
      refine ⟨hkeeps.trans hkeeps', fun c hc => ?_⟩
      cases hc
      exact hvalid

/-! ### The search of a tree -/

mutual

/-- The search of a tree keeps the refiner, and validates the candidate that it accepts. -/
theorem searchTree_spec {root : NodeId} {path : List Nat} {t : Tree} {s s' : Search σ} (hs : Patient s.refiner)
    {result : Except Error (Option Candidate)} (h : searchTree g root path t s = (result, s')) :
    Keeps s.refiner s'.refiner ∧ ∀ c, result = .ok (some c) → Validated g s' c := by
  match t with
  | .node (.terminal _) _ =>
    obtain ⟨rfl, rfl⟩ := searchTree_terminal h
    exact ⟨.refl _, fun c hc => by cases hc⟩
  | .node (.nonterminal n) ts =>
    rcases searchTree_cases h with ⟨e, hch, rfl⟩ | ⟨c, hch, rfl⟩ | ⟨i, c, c', s₁, hch, -, hp, rfl⟩ |
      ⟨best, s₁, hch, -, halternatives⟩
    · obtain ⟨hkeeps, -⟩ := searchChildren_spec hs hch
      exact ⟨hkeeps, fun c hc => by cases hc⟩
    · -- a candidate that was accepted below is passed up as it is
      obtain ⟨hkeeps, hvalid⟩ := searchChildren_spec hs hch
      refine ⟨hkeeps, fun c' hc => ?_⟩
      cases hc
      exact hvalid c rfl
    · obtain ⟨hkeeps, -⟩ := searchChildren_spec hs hch
      obtain ⟨hkeeps', hvalid⟩ := refineInParent_spec (hkeeps.patient hs) hp
      refine ⟨hkeeps.trans hkeeps', fun c hc => ?_⟩
      cases hc
      exact hvalid
    · obtain ⟨hkeeps, -⟩ := searchChildren_spec hs hch
      obtain ⟨hkeeps', hvalid⟩ := refineAlternatives_spec (hkeeps.patient hs) halternatives
      exact ⟨hkeeps.trans hkeeps', hvalid⟩

theorem searchChildren_spec {root : NodeId} {path : List Nat} {i : Nat} {best : Option (Nat × Candidate)}
    {ts : List Tree} {s s' : Search σ} (hs : Patient s.refiner) {result : Except Error Offer}
    (h : searchChildren g root path i best ts s = (result, s')) :
    Keeps s.refiner s'.refiner ∧ ∀ c, result = .ok (.accepted c) → Validated g s' c := by
  match ts with
  | [] =>
    obtain ⟨rfl, rfl⟩ := searchChildren_nil h
    exact ⟨.refl _, fun c hc => by cases hc⟩
  | t :: ts =>
    rcases searchChildren_cases h with ⟨e, ht, rfl⟩ | ⟨s₁, ht, hrest⟩ | ⟨c, ht, -, rfl⟩ | ⟨c, s₁, ht, -, hrest⟩
    · obtain ⟨hkeeps, -⟩ := searchTree_spec hs ht
      exact ⟨hkeeps, fun c hc => by cases hc⟩
    · obtain ⟨hkeeps, -⟩ := searchTree_spec hs ht
      obtain ⟨hkeeps', hvalid⟩ := searchChildren_spec (hkeeps.patient hs) hrest
      exact ⟨hkeeps.trans hkeeps', hvalid⟩
    · obtain ⟨hkeeps, hvalid⟩ := searchTree_spec hs ht
      refine ⟨hkeeps, fun c' hc => ?_⟩
      cases hc
      exact hvalid c rfl
    · -- a candidate that was not accepted only competes for the best one, which nothing is said about
      obtain ⟨hkeeps, -⟩ := searchTree_spec hs ht
      obtain ⟨hkeeps', hvalid⟩ := searchChildren_spec (hkeeps.patient hs) hrest
      exact ⟨hkeeps.trans hkeeps', hvalid⟩

end

/-! ### Committing -/

/-- Collapsing and pruning lose no string of the start symbol. -/
theorem inLanguage_commit_iff {update : Grammar} {w : List Char} :
    Grammar.InLanguage (commit g update) startName w ↔ Grammar.InLanguage (g.overlay update) startName w := by
  rw [commit, Grammar.inLanguage_pruneUnreachable_iff, Grammar.inLanguage_dedup_iff]

/-- A grammar refined for an input covers all known inputs. -/
theorem refineForInput_spec (hr : Patient r) {input : String} {seed : Nat}
    {result : Except Error (Option Grammar)} (h : r.refineForInput g input seed = (result, r')) :
    Keeps r r' ∧ ∀ refined, result = .ok (some refined) → r'.Covers refined := by
  rcases refineForInput_cases h with ⟨-, rfl, rfl⟩ | ⟨root, arena, found, s₁, -, hsearch, rfl, rfl⟩
  · exact ⟨.refl _, fun refined hrefined => by cases hrefined⟩
  · obtain ⟨hkeeps, hvalid⟩ := searchTree_spec hr hsearch
    refine ⟨hkeeps, fun refined hrefined => ?_⟩
    obtain ⟨c, rfl, haccepted, rfl⟩ := exists_candidate_of_committed hrefined
    -- what was validated is the merged update, and committing it keeps the language
    exact fun w hw => inLanguage_commit_iff.mpr (hvalid c rfl haccepted w hw)

end Refiner

end GrammarInference
