/-
GrammarInference/Proofs/Refinement/Questions.lean

What refinement asks the oracle.

Design.  Sampling asks about strings of the grammar, and the search of a parse tree about probes; nothing else
touches the oracle.  The scorings of a search are listed by following it (`scoringsIn`), those of a round by
following its counterexamples, and the log of a round puts the sample in front of the scorings.  That the list is
complete is `Asks`: the oracle goes from its state before to its state behind by exactly the questions and answers
of the log.  Every scoring is of a node of the parse tree of its counterexample, as the search never loses its
place: below a node that stands at a path, child number `i` stands at the path with `i` behind it.
-/
import GrammarInference.Proofs.Earley.Deadline
import GrammarInference.Proofs.Refinement.Narrowing
import GrammarInference.Proofs.Refinement.Probes
import GrammarInference.Proofs.Refinement.Productivity

namespace GrammarInference

namespace Refiner

variable {σ : Type} {g : Grammar} {t u : Tree} {root : NodeId} {path : List Nat} {n : String}
  {r r' r'' : Refiner σ} {s s' s'' : Search σ} {asked asked' : Oracle.Log}

/-! ### Asking -/

/-- The refiner `r'` comes from `r` by asking what is in the log, with the same oracle and settings. -/
structure Asks (asked : Oracle.Log) (r r' : Refiner σ) : Prop where
  /-- The oracle is the same. -/
  oracle_eq : r'.oracle = r.oracle
  /-- The settings are the same. -/
  config_eq : r'.config = r.config
  /-- Nothing is cancelled. -/
  isCancelled_eq : r'.isCancelled = r.isCancelled
  /-- The oracle was asked what is in the log. -/
  answers : r.oracle.Answers asked r.oracleState r'.oracleState

theorem Asks.refl (r : Refiner σ) : Asks [] r r := ⟨rfl, rfl, rfl, Oracle.answers_nil _ _⟩

theorem Asks.trans (h : Asks asked r r') (h' : Asks asked' r' r'') : Asks (asked ++ asked') r r'' where
  oracle_eq := h'.oracle_eq.trans h.oracle_eq
  config_eq := h'.config_eq.trans h.config_eq
  isCancelled_eq := h'.isCancelled_eq.trans h.isCancelled_eq
  answers := h.answers.append (h.oracle_eq ▸ h'.answers)

/-- Where nothing was asked, what comes behind counts alone. -/
theorem Asks.nil_trans (h : Asks [] r r') (h' : Asks asked r' r'') : Asks asked r r'' := h.trans h'

theorem Asks.parseDeadline_eq (h : Asks asked r r') : r'.parseDeadline = r.parseDeadline := by
  rw [parseDeadline, parseDeadline, h.config_eq, h.isCancelled_eq]

theorem Asks.generationDeadline_eq (h : Asks asked r r') : r'.generationDeadline = r.generationDeadline := by
  rw [generationDeadline, generationDeadline, h.config_eq, h.isCancelled_eq]

/-! ### Candidates -/

/-- A check parses inputs and asks nothing. -/
theorem isUnderapproximating_asks {update : Grammar} {b : Bool} (h : r.isUnderapproximating g update = (b, r')) :
    Asks [] r r' := by
  rw [isUnderapproximating] at h
  split at h
  · cases h
    exact .refl r
  · cases h
    exact .refl r
  · cases h
    exact ⟨rfl, rfl, rfl, rfl⟩

theorem propose_asks {quality : Nat} {update : Grammar} {fallback : String → Grammar} {c : Candidate}
    (hs : Ready g t root s) (h : propose s g n quality update fallback = (c, s')) :
    Asks [] s.refiner s'.refiner ∧ Ready g t root s' := by
  rcases propose_cases h with ⟨r, hu, -, rfl⟩ | ⟨r, hu, -, rfl⟩
  · exact ⟨isUnderapproximating_asks hu, hs.isFor, hs.stores⟩
  · -- a fresh name is the refiner's own business
    have hname : Asks [] r (r.freshName g n).2 := ⟨rfl, rfl, rfl, rfl⟩
    exact ⟨(isUnderapproximating_asks hu).nil_trans hname, hs.isFor, hs.stores⟩

/-- Scoring the alternatives of a node asks what is in the log of the scoring. -/
theorem ruleQualities_asks {result : Except Error (List Nat)} (hs : Ready g t root s)
    (hu : t.subtreeAt? path = some u) (h : ruleQualities root path n (g.alternatives n).length s = (result, s')) :
    Asks ((⟨root, path, n, s⟩ : Scoring σ).log g) s.refiner s'.refiner ∧ Ready g t root s' := by
  rcases ruleQualities_cases h with ⟨e, hp, -⟩ | ⟨owned, s₁, hp, -, rfl⟩
  · rw [Scoring.log, Scoring.probes_of_error hp, probes_refiner hp]
    exact ⟨.refl _, (probes_spec hs hu hp).1⟩
  · obtain ⟨hready, -⟩ := probes_spec hs hu hp
    rw [Scoring.log, Scoring.probes_of_ok hp]
    exact ⟨⟨rfl, rfl, rfl, Oracle.answers_logOf _ _ _⟩, hready.isFor, hready.stores⟩

theorem refineAlternatives_asks {result : Except Error (Option Candidate)} (hs : Ready g t root s)
    (hu : t.subtreeAt? path = some u) (h : refineAlternatives g root path n s = (result, s')) :
    Asks ((⟨root, path, n, s⟩ : Scoring σ).log g) s.refiner s'.refiner ∧ Ready g t root s' := by
  rcases refineAlternatives_cases h with ⟨e, hq, -⟩ | ⟨qualities, s₁, hq, ⟨-, rfl⟩ | ⟨c, hp, -⟩⟩
  · exact ruleQualities_asks hs hu hq
  · exact ruleQualities_asks hs hu hq
  · obtain ⟨hasks, hready⟩ := ruleQualities_asks hs hu hq
    obtain ⟨hnothing, hready'⟩ := propose_asks hready hp
    have hall := hasks.trans hnothing
    rw [List.append_nil] at hall
    exact ⟨hall, hready'⟩

/-! ### The search of a tree -/

mutual

/-- The scorings that are made while a tree is searched, in order. -/
def scoringsIn (g : Grammar) (root : NodeId) (path : List Nat) : Tree → Search σ → List (Scoring σ)
  | .node (.terminal _) _, _ => []
  | .node (.nonterminal n) ts, s =>
    scoringsBelow g root path 0 ts s ++
      match searchChildren g root path 0 none ts s with
      | (.error _, _) => []
      | (.ok (.accepted _), _) => []
      | (.ok (.best (some (_, c))), s) => if 0 < c.quality then [] else [⟨root, path, n, s⟩]
      | (.ok (.best none), s) => [⟨root, path, n, s⟩]

/-- The scorings that are made while the children of a node are searched from number `i` on. -/
def scoringsBelow (g : Grammar) (root : NodeId) (path : List Nat) (i : Nat) :
    List Tree → Search σ → List (Scoring σ)
  | [], _ => []
  | t :: ts, s =>
    scoringsIn g root (path ++ [i]) t s ++
      match searchTree g root (path ++ [i]) t s with
      | (.error _, _) => []
      | (.ok none, s) => scoringsBelow g root path (i + 1) ts s
      | (.ok (some c), s) => if c.accepted then [] else scoringsBelow g root path (i + 1) ts s

end

/-- The search goes from one state to another by the scorings, each of a node of the tree at the root. -/
structure Searches (g : Grammar) (t : Tree) (root : NodeId) (scorings : List (Scoring σ)) (s s' : Search σ) :
    Prop where
  /-- The oracle is asked what the scorings ask. -/
  asks : Asks (scorings.flatMap (Scoring.log g)) s.refiner s'.refiner
  /-- The search stays ready. -/
  ready : Ready g t root s'
  /-- The scorings are of nodes of the tree. -/
  isOf : ∀ sc ∈ scorings, sc.root = root ∧ sc.IsOf g t ∧ ∃ asked, Asks asked s.refiner sc.before.refiner

theorem Searches.nil (h : Asks [] s.refiner s'.refiner) (hready : Ready g t root s') :
    Searches g t root [] s s' := ⟨h, hready, nofun⟩

theorem Searches.append {l l' : List (Scoring σ)} (h : Searches g t root l s s')
    (h' : Searches g t root l' s' s'') : Searches g t root (l ++ l') s s'' where
  asks := by
    rw [List.flatMap_append]
    exact h.asks.trans h'.asks
  ready := h'.ready
  isOf := by
    intro sc hsc
    rcases List.mem_append.mp hsc with hsc | hsc
    · exact h.isOf sc hsc
    · obtain ⟨hroot, hof, asked, hasks⟩ := h'.isOf sc hsc
      exact ⟨hroot, hof, _, h.asks.trans hasks⟩

/-- The scoring of a node is a search. -/
theorem refineAlternatives_searches {result : Except Error (Option Candidate)} (hs : Ready g t root s)
    (hu : t.subtreeAt? path = some u) (hn : u.symbol = .nonterminal n)
    (h : refineAlternatives g root path n s = (result, s')) :
    Searches g t root [⟨root, path, n, s⟩] s s' := by
  obtain ⟨hasks, hready⟩ := refineAlternatives_asks hs hu h
  refine ⟨?_, hready, fun sc hsc => ?_⟩
  · rw [List.flatMap_singleton]
    exact hasks
  · obtain rfl := List.mem_singleton.mp hsc
    exact ⟨rfl, ⟨hs, u, hu, hn⟩, [], .refl _⟩

mutual

theorem searchTree_searches {u : Tree} {path : List Nat} {s s' : Search σ}
    {result : Except Error (Option Candidate)} (hs : Ready g t root s) (hu : t.subtreeAt? path = some u)
    (h : searchTree g root path u s = (result, s')) :
    Searches g t root (scoringsIn g root path u s) s s' := by
  match u with
  | .node (.terminal _) _ =>
    obtain ⟨-, rfl⟩ := searchTree_terminal h
    rw [scoringsIn]
    exact .nil (.refl _) hs
  | .node (.nonterminal n) ts =>
    have hchildren : ∀ {offer s₁}, searchChildren g root path 0 none ts s = (offer, s₁) →
        Searches g t root (scoringsBelow g root path 0 ts s) s s₁ :=
      fun hch => searchChildren_searches hs hu List.drop_zero hch
    rw [scoringsIn]
    rcases searchTree_cases h with ⟨e, hch, -⟩ | ⟨c, hch, -⟩ | ⟨i, c, c', s₁, hch, hpos, hp, -⟩ |
      ⟨best, s₁, hch, hzero, halternatives⟩
    · simp only [hch, List.append_nil]
      exact hchildren hch
    · simp only [hch, List.append_nil]
      exact hchildren hch
    · -- the candidate of a child is used in the rule of the node, which asks nothing
      simp only [hch, if_pos hpos]
      rw [refineInParent] at hp
      obtain ⟨hasks, hready⟩ := propose_asks (hchildren hch).ready hp
      exact (hchildren hch).append (.nil hasks hready)
    · have hscored := refineAlternatives_searches (hchildren hch).ready hu rfl halternatives
      rcases best with - | ⟨i, c⟩
      · simp only [hch]
        exact (hchildren hch).append hscored
      · simp only [hch, if_neg (hzero i c rfl)]
        exact (hchildren hch).append hscored

theorem searchChildren_searches {u : Tree} {path : List Nat} {i : Nat} {best : Option (Nat × Candidate)}
    {ts : List Tree} {s s' : Search σ} {result : Except Error Offer} (hs : Ready g t root s)
    (hu : t.subtreeAt? path = some u) (hdrop : u.children.drop i = ts)
    (h : searchChildren g root path i best ts s = (result, s')) :
    Searches g t root (scoringsBelow g root path i ts s) s s' := by
  match ts with
  | [] =>
    obtain ⟨-, rfl⟩ := searchChildren_nil h
    rw [scoringsBelow]
    exact .nil (.refl _) hs
  | t₁ :: ts =>
    -- the first of the children that are left has number `i`, the others follow
    have hchild : t.subtreeAt? (path ++ [i]) = some t₁ := by
      apply Tree.subtreeAt?_child hu
      rw [← List.head?_drop, hdrop]
      rfl
    have hrest : u.children.drop (i + 1) = ts := by
      rw [← List.tail_drop, hdrop]
      rfl
    rw [scoringsBelow]
    rcases searchChildren_cases h with ⟨e, ht, -⟩ | ⟨s₁, ht, hlater⟩ | ⟨c, ht, haccepted, -⟩ |
      ⟨c, s₁, ht, hno, hlater⟩
    · simp only [ht, List.append_nil]
      exact searchTree_searches hs hchild ht
    · have hone := searchTree_searches hs hchild ht
      simp only [ht]
      exact hone.append (searchChildren_searches hone.ready hu hrest hlater)
    · simp only [ht, if_pos haccepted, List.append_nil]
      exact searchTree_searches hs hchild ht
    · have hone := searchTree_searches hs hchild ht
      simp only [ht, hno, Bool.false_eq_true, if_false]
      exact hone.append (searchChildren_searches hone.ready hu hrest hlater)

end

/-! ### Counterexamples -/

/-- The scorings for one input. -/
def scoringsFor (r : Refiner σ) (g : Grammar) (input : String) (seed : Nat) : List (Scoring σ) :=
  match Earley.parse (.ofGrammar g) ∅ input r.parseDeadline with
  | (.noParse, _) => []
  | (.timeout, _) => []
  | (.tree root, arena) => scoringsIn g root [] (arena.treeAt root) ⟨r, .new g r.config.maxDepth seed, arena⟩

/-- The scoring is of a node of the parse tree of the input, and the oracle and the settings are those of `r`. -/
structure Scoring.Concerns (g : Grammar) (r : Refiner σ) (input : String) (sc : Scoring σ) : Prop where
  /-- The node stands in the parse tree. -/
  parse : ∃ arena, Earley.parse (.ofGrammar g) ∅ input r.parseDeadline = (.tree sc.root, arena) ∧
    sc.IsOf g (arena.treeAt sc.root)
  /-- The refiner comes from `r` by asking. -/
  asks : ∃ asked, Asks asked r sc.before.refiner

theorem Scoring.Concerns.of_asks {sc : Scoring σ} {input : String} (h : Asks asked r r')
    (hsc : sc.Concerns g r' input) : sc.Concerns g r input where
  parse := by
    rw [← h.parseDeadline_eq]
    exact hsc.parse
  asks := by
    obtain ⟨asked', hasks⟩ := hsc.asks
    exact ⟨_, h.trans hasks⟩

theorem refineForInput_asks {input : String} {seed : Nat} {result : Except Error (Option Grammar)}
    (h : r.refineForInput g input seed = (result, r')) :
    Asks ((r.scoringsFor g input seed).flatMap (Scoring.log g)) r r' ∧
      ∀ sc ∈ r.scoringsFor g input seed, sc.Concerns g r input := by
  rcases refineForInput_cases h with ⟨hnone, -, rfl⟩ | ⟨root, arena, found, s, hparse, hsearch, -, rfl⟩
  · have hnothing : r'.scoringsFor g input seed = [] := by
      rw [scoringsFor]
      rcases hparse : Earley.parse (.ofGrammar g) ∅ input r'.parseDeadline with ⟨root | - | -, arena⟩
      · exact absurd hparse (hnone root arena)
      · rfl
      · rfl
    rw [hnothing]
    exact ⟨.refl r', fun sc hsc => absurd hsc List.not_mem_nil⟩
  · obtain ⟨t, hstore, -⟩ := Earley.isTree_of_parseFrom hparse
    have hready : Ready g (arena.treeAt root) root ⟨r, .new g r.config.maxDepth seed, arena⟩ := by
      rw [hstore.treeAt_eq]
      exact ⟨Generator.isFor_new g _ seed, hstore⟩
    have hsearches := searchTree_searches hready (Tree.subtreeAt?_nil _) hsearch
    rw [scoringsFor, hparse]
    refine ⟨hsearches.asks, fun sc hsc => ?_⟩
    obtain ⟨rfl, hof, hasks⟩ := hsearches.isOf sc hsc
    exact ⟨⟨arena, hparse, hof⟩, hasks⟩

/-- Both letters are scored, the second one for the tree as it was. -/
example : ((asking "ab").scoringsFor letterPairs "bb" 1).map (fun sc => (sc.path, sc.judged letterPairs)) =
    [([0], [(0, "ab", .accept), (1, "bb", .reject)]), ([1], [(0, "ba", .reject), (1, "bb", .reject)])] := by
  decide +kernel

/-- The scorings for the inputs from number `i` on, each with its input. -/
def scoringsForAll (g : Grammar) (seed : Nat) : Nat → List String → Refiner σ → List (String × Scoring σ)
  | _, [], _ => []
  | i, input :: rest, r =>
    if r.isCancelled then []
    else
      (r.scoringsFor g input ((seed * 31 + i) % UInt64.size)).map (fun sc => (input, sc)) ++
        match r.refineForInput g input ((seed * 31 + i) % UInt64.size) with
        | (.error _, _) => []
        | (.ok none, r) => scoringsForAll g seed (i + 1) rest r
        | (.ok (some refined), r) => if refined.sameEntries g then scoringsForAll g seed (i + 1) rest r else []

/-- The tries go from one refiner to another by the scorings, each of a node of the parse tree of one of the
inputs. -/
structure Tries (g : Grammar) (inputs : List String) (scorings : List (String × Scoring σ)) (r r' : Refiner σ) :
    Prop where
  /-- The oracle is asked what the scorings ask. -/
  asks : Asks (scorings.flatMap fun p => p.2.log g) r r'
  /-- The scorings are of nodes of parse trees. -/
  concerns : ∀ p ∈ scorings, p.1 ∈ inputs ∧ p.2.Concerns g r p.1

theorem Tries.append {input : String} {rest : List String} {l l' : List (String × Scoring σ)}
    (h : Tries g [input] l r r') (h' : Tries g rest l' r' r'') : Tries g (input :: rest) (l ++ l') r r'' where
  asks := by
    rw [List.flatMap_append]
    exact h.asks.trans h'.asks
  concerns := by
    intro p hp
    rcases List.mem_append.mp hp with hp | hp
    · obtain ⟨hinput, hconcerns⟩ := h.concerns p hp
      exact ⟨List.mem_cons.mpr (.inl (List.mem_singleton.mp hinput)), hconcerns⟩
    · obtain ⟨hinput, hconcerns⟩ := h'.concerns p hp
      exact ⟨List.mem_cons_of_mem input hinput, hconcerns.of_asks h.asks⟩

theorem Tries.refl (g : Grammar) (inputs : List String) (r : Refiner σ) : Tries g inputs [] r r := ⟨.refl r, nofun⟩

theorem refineForInput_tries {input : String} {seed : Nat} {result : Except Error (Option Grammar)}
    (h : r.refineForInput g input seed = (result, r')) :
    Tries g [input] ((r.scoringsFor g input seed).map fun sc => (input, sc)) r r' := by
  obtain ⟨hasks, hconcerns⟩ := refineForInput_asks h
  refine ⟨?_, fun p hp => ?_⟩
  · rw [List.flatMap_map]
    exact hasks
  · obtain ⟨sc, hsc, rfl⟩ := List.mem_map.mp hp
    exact ⟨List.mem_singleton_self input, hconcerns sc hsc⟩

theorem firstRefined_tries {seed i : Nat} {inputs : List String} {result : Except Error (Option Grammar)}
    (h : firstRefined g seed i inputs r = (result, r')) :
    Tries g inputs (scoringsForAll g seed i inputs r) r r' := by
  induction inputs generalizing i r with
  | nil =>
    cases h
    exact .refl g [] _
  | cons input rest ih =>
    rw [scoringsForAll]
    rcases firstRefined_cases h with ⟨hcancel, -, rfl⟩ | ⟨hgo, hone⟩
    · rw [if_pos hcancel]
      exact .refl g _ _
    · rw [hgo, if_neg (by decide)]
      rcases hone with ⟨e, hone, -⟩ | ⟨refined, hone, hother, -⟩ | ⟨found, r₁, hone, hsame, hrest⟩
      · simp only [hone]
        exact (refineForInput_tries hone).append (.refl g rest _)
      · -- another grammar was found, so the inputs behind are not tried
        simp only [hone, hother, Bool.false_eq_true, if_false]
        exact (refineForInput_tries hone).append (.refl g rest _)
      · have hall := (refineForInput_tries hone).append (ih hrest)
        rcases found with - | refined
        · simp only [hone]
          exact hall
        · simp only [hone, if_pos (hsame refined rfl)]
          exact hall

/-! ### Rounds -/

namespace Stage

variable {b : Stage σ}

/-- The seed of the round. -/
def seed (b : Stage σ) : Nat := (b.refiner.config.seed + b.refinements) % UInt64.size

/-- What the round samples. -/
def sampling (b : Stage σ) : Except Error Sample × σ :=
  sampleAndClassify b.grammar b.refiner.oracle b.refiner.config b.seed b.refiner.isCancelled b.refiner.oracleState

/-- The scorings of the round, each with the counterexample that it is made for. -/
def scorings (b : Stage σ) : List (String × Scoring σ) :=
  match b.sampling with
  | (.error _, _) => []
  | (.ok sample, s) =>
    match sample.precision with
    | none => []
    | some p =>
      if b.refiner.config.precisionThreshold ≤ p then []
      else
        scoringsForAll b.grammar b.seed 0 (sample.shortestInvalid b.refiner.config.shortestCount)
          (b.refiner.afterSampling sample s)

/-- What the oracle is asked in the round, and what it answers: about the sample, then about the probes. -/
def log (b : Stage σ) : Oracle.Log :=
  sampleLog b.grammar b.refiner.oracle b.refiner.config b.seed b.refiner.isCancelled b.refiner.oracleState ++
    b.scorings.flatMap fun p => (p.2.judged b.grammar).map Prod.snd

/-- A round asks what is in its log, and its scorings are of nodes of parse trees of rejected samples. -/
theorem refineOnce_asks (b : Stage σ) :
    Asks b.log b.refiner (b.refiner.refineOnce b.grammar b.refinements).2 ∧
      ∀ p ∈ b.scorings, (∃ sample s, b.sampling = (.ok sample, s) ∧ p.1 ∈ sample.invalid) ∧
        p.2.Concerns b.grammar b.refiner p.1 := by
  rw [log]
  simp only [Scoring.map_snd_judged]
  rw [scorings, refineOnce, ← seed, ← sampling]
  rcases hsample : b.sampling with ⟨result, s⟩
  obtain ⟨hanswers, -⟩ := sampleAndClassify_log hsample
  rcases result with e | sample
  · refine ⟨⟨rfl, rfl, rfl, ?_⟩, fun p hp => absurd hp List.not_mem_nil⟩
    rw [List.flatMap_nil, List.append_nil]
    exact hanswers
  · have hsampled : Asks (sampleLog b.grammar b.refiner.oracle b.refiner.config b.seed b.refiner.isCancelled
        b.refiner.oracleState) b.refiner (b.refiner.afterSampling sample s) := ⟨rfl, rfl, rfl, hanswers⟩
    simp only
    rw [← afterSampling]
    rcases sample.precision with - | p
    · -- nothing was classified
      refine ⟨?_, fun p hp => absurd hp List.not_mem_nil⟩
      rw [List.flatMap_nil, List.append_nil]
      exact hsampled
    · simp only
      split
      · -- the grammar is precise enough
        refine ⟨?_, fun p hp => absurd hp List.not_mem_nil⟩
        rw [List.flatMap_nil, List.append_nil]
        exact hsampled
      · rcases hfirst : firstRefined b.grammar b.seed 0 (sample.shortestInvalid b.refiner.config.shortestCount)
          (b.refiner.afterSampling sample s) with ⟨found, r₁⟩
        have htries := firstRefined_tries hfirst
        constructor
        · have hall := hsampled.trans htries.asks
          rcases found with e | - | refined <;> exact hall
        · intro p hp
          obtain ⟨hinput, hconcerns⟩ := htries.concerns p hp
          refine ⟨⟨sample, s, rfl, ?_⟩, hconcerns.of_asks hsampled⟩
          exact List.mem_mergeSort.mp (List.mem_of_mem_take hinput)

/-- A round that has a counterexample was not cancelled. -/
theorem isCancelled_eq_of_mem_invalid {b : Stage σ} {sample : Sample} {s : σ} {w : String}
    (h : b.sampling = (.ok sample, s)) (hw : w ∈ sample.invalid) : b.refiner.isCancelled = false := by
  by_contra hno
  rw [sampling, (Bool.not_eq_false _).mp hno, sampleAndClassify_cancelled] at h
  cases h
  exact SortedSet.not_mem_empty w hw

/-- Every question of a round is derived from the grammar of the round. -/
theorem log_derived (b : Stage σ) : ∀ e ∈ b.log, Grammar.InLanguage b.grammar startName e.1.toList := by
  intro e he
  rcases List.mem_append.mp he with he | he
  · obtain ⟨-, hderived, -⟩ := sampleAndClassify_log (rfl : b.sampling = (b.sampling.1, b.sampling.2))
    exact hderived e.1 (List.mem_map_of_mem he)
  · obtain ⟨p, hp, he⟩ := List.mem_flatMap.mp he
    obtain ⟨⟨c, e'⟩, hjudged, rfl⟩ := List.mem_map.mp he
    obtain ⟨-, ⟨⟨arena, hparse, hof⟩, -⟩⟩ := b.refineOnce_asks.2 p hp
    obtain ⟨t, hstore, hder, hroot, -⟩ := Earley.isTree_of_parseFrom hparse
    rw [hstore.treeAt_eq] at hof
    obtain ⟨u, hu, hn⟩ := hof.place
    exact (hof.isProbe hjudged).inLanguage hder hroot hu hn

end Stage

/-! ### Runs -/

theorem save_asks {name : String} (h : r.save name g = .ok r') : Asks [] r r' := by
  rw [save] at h
  split at h
  · cases h
  · cases h
    exact ⟨rfl, rfl, rfl, rfl⟩

theorem conclude_asks {why : Termination} {k : Nat} {history : List Float} {result : Except Error Report}
    (h : r.conclude g why k history = (result, r')) : Asks [] r r' := by
  rw [conclude] at h
  rcases hsave : r.save "refined_grammar_final.json" g with e | r₁
  · rw [hsave] at h
    cases h
    exact .refl r
  · rw [hsave] at h
    cases h
    exact save_asks hsave

/-- The round at a stage asks what is in its log. -/
theorem asks_of_refineOnce {k : Nat} {result : Except Error Round} (h : r.refineOnce g k = (result, r')) :
    Asks (Stage.log ⟨r, g, k⟩) r r' := by
  have hasks := (Stage.refineOnce_asks ⟨r, g, k⟩).1
  rwa [h] at hasks

/-- From one stage to the next, the round of the first is asked. -/
theorem Stage.Next.asks {a b : Stage σ} (h : a.Next b) : Asks a.log a.refiner b.refiner := by
  obtain ⟨-, -, p, r₁, hone, hsave⟩ := h
  have hall := (asks_of_refineOnce hone).trans (save_asks hsave)
  rwa [List.append_nil] at hall

theorem Stage.Reached.asks {b : Stage σ} (h : Stage.Reached r g b) : ∃ asked, Asks asked r b.refiner := by
  induction h with
  | refl => exact ⟨[], .refl r⟩
  | tail _ hnext ih =>
    obtain ⟨asked, hasks⟩ := ih
    exact ⟨_, hasks.trans hnext.asks⟩

/-- A run asks what is in the logs of its rounds, one after the other. -/
theorem refineWithin_asks {left k : Nat} {history : List Float} {result : Except Error Report}
    (hleft : left + k = r.config.maxRefinements) (h : refineWithin left r g k history = (result, r')) :
    ∃ rounds : List (Stage σ),
      (∀ b ∈ rounds, Relation.ReflTransGen Stage.Next ⟨r, g, k⟩ b ∧ b.Starts) ∧
        Asks (rounds.flatMap Stage.log) r r' := by
  induction left generalizing r g k history with
  | zero =>
    obtain ⟨-, why, hconclude⟩ | ⟨-, -, left', hzero, -⟩ := refineWithin_cases h
    · exact ⟨[], nofun, conclude_asks hconclude⟩
    · cases hzero
  | succ left ih =>
    rcases refineWithin_cases h with ⟨-, why, hconclude⟩ | ⟨hcancel, htime, left', hsucc, hround⟩
    · exact ⟨[], nofun, conclude_asks hconclude⟩
    · cases hsucc
      have hstarts : Stage.Starts ⟨r, g, k⟩ := ⟨hcancel, by show k < r.config.maxRefinements; omega, htime⟩
      -- a run that ends with the round at hand asks its log and nothing more
      have hlast : ∀ {r₁ : Refiner σ}, Asks (Stage.log ⟨r, g, k⟩) r r₁ → Asks [] r₁ r' →
          ∃ rounds : List (Stage σ),
            (∀ b ∈ rounds, Relation.ReflTransGen Stage.Next ⟨r, g, k⟩ b ∧ b.Starts) ∧
              Asks (rounds.flatMap Stage.log) r r' := by
        intro r₁ hround hnothing
        refine ⟨[⟨r, g, k⟩], fun b hb => ?_, hround.trans hnothing⟩
        rw [List.mem_singleton.mp hb]
        exact ⟨.refl, hstarts⟩
      rcases hround with ⟨e, hone, -⟩ | ⟨round, r₁, why, history', hone, -, hconclude⟩ | ⟨g', p, r₁, hone, hsaved⟩
      · exact hlast (asks_of_refineOnce hone) (.refl r')
      · exact hlast (asks_of_refineOnce hone) (conclude_asks hconclude)
      · rcases hsaved with ⟨e, -, -, rfl⟩ | ⟨r₂, history', hsave, hrest⟩
        · exact hlast (asks_of_refineOnce hone) (.refl _)
        · have hnext : Stage.Next ⟨r, g, k⟩ ⟨r₂, g', k + 1⟩ := ⟨hstarts, rfl, p, r₁, hone, hsave⟩
          have hconfig : r₂.config = r.config := hnext.asks.config_eq
          obtain ⟨rounds, hrounds, hasks⟩ := ih (by rw [hconfig]; omega) hrest
          refine ⟨⟨r, g, k⟩ :: rounds, List.forall_mem_cons.mpr ⟨⟨.refl, hstarts⟩, fun b hb => ?_⟩,
            hnext.asks.trans hasks⟩
          exact ⟨.head hnext (hrounds b hb).1, (hrounds b hb).2⟩

/-- A counterexample parses, if there is time for it. -/
theorem exists_parse (hr : Patient r) {w : String} (hw : Grammar.InLanguage g startName w.toList) :
    ∃ root arena, Earley.parse (.ofGrammar g) ∅ w r.parseDeadline = (.tree root, arena) ∧
      Earley.IsParse g startName w arena root := by
  obtain ⟨root, arena, hparse, -, htree⟩ := Earley.parseFrom_of_inLanguage hw ∅
  rw [hr.parseDeadline_eq]
  exact ⟨root, arena, hparse, htree.isParse⟩

/-- **Refinement asks about the current grammar.**  With deadlines that never come, whatever the oracle does, a run
asks it exactly what is in the logs of its rounds, in order.  At every stage, all questions of the log are derived
from the grammar of the stage.  Every rejected input of its sample parses.  And every scoring is of a node of the
parse tree of such an input: each input that counts for an alternative is the yield of that tree with the subtree
at the node replaced by a derivation by this alternative, the quality of the alternative is the number of those that
the oracle accepts, and there are no more of them than the settings say. -/
theorem refine_asks_current_grammar (hparse : r.config.parseTimeout ≠ 0) (hgeneration : r.config.generationTimeout ≠ 0) :
    (∃ rounds : List (Stage σ), (∀ b ∈ rounds, Stage.Reached r g b ∧ b.Starts) ∧
      r.oracle.Answers (rounds.flatMap Stage.log) r.oracleState (r.refine g).2.oracleState) ∧
    ∀ b, Stage.Reached r g b →
      (∀ e ∈ b.log, Grammar.InLanguage b.grammar startName e.1.toList) ∧
      (∀ sample s, b.sampling = (.ok sample, s) → ∀ w ∈ sample.invalid, ∃ root arena,
        Earley.parse (.ofGrammar b.grammar) ∅ w b.refiner.parseDeadline = (.tree root, arena) ∧
          Earley.IsParse b.grammar startName w arena root) ∧
      ∀ p ∈ b.scorings, ∃ sample s arena, b.sampling = (.ok sample, s) ∧ p.1 ∈ sample.invalid ∧
        Earley.parse (.ofGrammar b.grammar) ∅ p.1 b.refiner.parseDeadline = (.tree p.2.root, arena) ∧
        p.2.Faithful b.grammar b.refiner.config.probesPerAlternative (arena.treeAt p.2.root) := by
  refine ⟨?_, fun b hb => ?_⟩
  · obtain ⟨rounds, hrounds, hasks⟩ := refineWithin_asks (Nat.add_zero _) (rfl : r.refine g = _)
    exact ⟨rounds, hrounds, hasks.answers⟩
  · obtain ⟨asked, hasks⟩ := hb.asks
    rw [← hasks.config_eq] at hparse hgeneration
    refine ⟨b.log_derived, fun sample s hsample w hw => ?_, fun p hp => ?_⟩
    · have hpatient : Patient b.refiner := ⟨hparse, Stage.isCancelled_eq_of_mem_invalid hsample hw⟩
      exact exists_parse hpatient (sampleAndClassify_spec hsample w (.inr hw))
    · obtain ⟨⟨sample, s, hsample, hw⟩, ⟨arena, htree, hof⟩, asked', hasks'⟩ := b.refineOnce_asks.2 p hp
      obtain ⟨t, hstore, hder, -⟩ := Earley.isTree_of_parseFrom htree
      have hnever : p.2.before.refiner.generationDeadline = .never := by
        rw [hasks'.generationDeadline_eq, generationDeadline, Stage.isCancelled_eq_of_mem_invalid hsample hw,
          Deadline.after, if_neg hgeneration]
        rfl
      have hfaithful := hof.faithful (hstore.treeAt_eq ▸ hder) hnever
      rw [hasks'.config_eq] at hfaithful
      exact ⟨sample, s, arena, hsample, hw, htree, hfaithful⟩

/-- The grammar with a detour is asked about the letter that is sampled and, as the letter is rejected, about the two
probes for the alternatives of its node. -/
theorem questions_of_nested : unknowing.config.parseTimeout ≠ 0 ∧ unknowing.config.generationTimeout ≠ 0 ∧
    Stage.log ⟨unknowing, nested, 0⟩ = [("x", .reject), ("x", .reject), ("(x", .accept)] ∧
    (∀ w ∈ ["x", "(x"], Grammar.InLanguage nested startName w.toList) ∧
    ∃ root arena, Earley.parse (.ofGrammar nested) ∅ "x" unknowing.parseDeadline = (.tree root, arena) ∧
      IsProbe nested (arena.treeAt root) [0] "<a>" 1 "(x" := by
  refine ⟨by decide, by decide, ?_⟩
  obtain ⟨-, hstages⟩ := refine_asks_current_grammar (r := unknowing) (g := nested) (by decide) (by decide)
  obtain ⟨hderived, -, hfaithful⟩ := hstages ⟨unknowing, nested, 0⟩ .refl
  have hsample : Stage.sampling ⟨unknowing, nested, 0⟩ = (.ok letterOnly, ()) := sampleAndClassify_nested
  have hscorings : Stage.scorings ⟨unknowing, nested, 0⟩ =
      scoringsForAll nested (Stage.seed ⟨unknowing, nested, 0⟩) 0
        (letterOnly.shortestInvalid unknowing.config.shortestCount) (unknowing.afterSampling letterOnly ()) := by
    rw [Stage.scorings, hsample]
    simp only [precision_letterOnly, if_neg not_precise_unknowing]
  have hone : (scoringsForAll nested (Stage.seed ⟨unknowing, nested, 0⟩) 0
      (letterOnly.shortestInvalid unknowing.config.shortestCount) (unknowing.afterSampling letterOnly ())).map
        (fun p => (p.1, p.2.path, p.2.name)) = [("x", [0], "<a>")] := by decide +kernel
  have hprobes : (scoringsForAll nested (Stage.seed ⟨unknowing, nested, 0⟩) 0
      (letterOnly.shortestInvalid unknowing.config.shortestCount) (unknowing.afterSampling letterOnly ())).map
        (fun p => p.2.judged nested) = [[(0, "x", .reject), (1, "(x", .accept)]] := by decide +kernel
  have hsampled : sampleLog nested unknowing.oracle unknowing.config (Stage.seed ⟨unknowing, nested, 0⟩)
      unknowing.isCancelled unknowing.oracleState = [("x", .reject)] := by decide +kernel
  rw [← hscorings] at hone hprobes
  obtain ⟨p, hp, heq⟩ := List.map_eq_singleton_iff.mp hone
  obtain ⟨hinput, hpath, hname⟩ : p.1 = "x" ∧ p.2.path = [0] ∧ p.2.name = "<a>" := by simpa using heq
  have hjudged : p.2.judged nested = [(0, "x", .reject), (1, "(x", .accept)] := by
    rw [hp] at hprobes
    exact List.singleton_inj.mp hprobes
  have hlog : Stage.log ⟨unknowing, nested, 0⟩ = [("x", .reject), ("x", .reject), ("(x", .accept)] := by
    rw [Stage.log, hsampled, hp, List.flatMap_singleton, hjudged]
    rfl
  refine ⟨hlog, fun w hw => ?_, ?_⟩
  · rcases List.mem_pair.mp hw with rfl | rfl
    · exact hderived ("x", .reject) (hlog ▸ List.mem_cons_self)
    · exact hderived ("(x", .accept) (hlog ▸ by simp)
  · obtain ⟨sample, s, arena, -, -, hparse, hall⟩ := hfaithful p (hp ▸ List.mem_singleton_self p)
    have hprobe := hall.isProbe 1 "(x" .accept (hjudged ▸ by simp)
    rw [hpath, hname] at hprobe
    rw [hinput] at hparse
    exact ⟨p.2.root, arena, hparse, hprobe⟩

/-- What an oracle that keeps a record has on it behind a run was there before, or is derived from the grammar of a
round of the run. -/
theorem record_of_refine {o : Oracle σ} {x : Refiner (σ × Oracle.Record)} (ho : x.oracle = o.recording) :
    ∀ e ∈ (x.refine g).2.oracleState.2, e ∈ x.oracleState.2 ∨
      ∃ b, Stage.Reached x g b ∧ b.Starts ∧ Grammar.InLanguage b.grammar startName e.1.toList := by
  intro e he
  obtain ⟨rounds, hrounds, hasks⟩ := refineWithin_asks (Nat.add_zero _) (rfl : x.refine g = _)
  have hanswers := hasks.answers
  rw [ho] at hanswers
  have hrecord : (x.refine g).2.oracleState.2 = (rounds.flatMap Stage.log).reverse ++ x.oracleState.2 :=
    hanswers.recording.2
  rw [hrecord, List.mem_append, List.mem_reverse, List.mem_flatMap] at he
  rcases he with ⟨b, hb, he⟩ | he
  · exact .inr ⟨b, (hrounds b hb).1, (hrounds b hb).2, b.log_derived e he⟩
  · exact .inl he

end Refiner

end GrammarInference
