/-
GrammarInference/Proofs/Refinement/Steps.lean

What the functions of a search can do.

Design.  Each function of the search hands on an error, or goes on in one of a few ways, and several things are
proved along all of them: what stays known, what the candidates stand for, what the oracle is asked.  The ways are
listed here once, with everything that decides between them, so that no proof about a search opens a function.
-/
import GrammarInference.Refinement.Refiner

namespace GrammarInference

namespace Refiner

variable {σ : Type} {g : Grammar} {root : NodeId} {path : List Nat} {n : String} {r r' : Refiner σ}
  {s s' : Search σ}

/-! ### Probes -/

/-- An attempt is passed over if no derivation comes of it or the path leaves the tree, it ends the probing with an
error, or it gives an input in front of the others. -/
theorem probe_cases {choice count : Nat} {deadline : Deadline} {result : Except Error (List String)}
    (h : probe root path n choice deadline (count + 1) s = (result, s')) :
    (∃ e a gen, s.generator.generate s.arena n (some choice) deadline = (.error e, a, gen) ∧
      ((e = .interrupted ∨ ∃ m, e = .unproductive m) ∧
          probe root path n choice deadline count ⟨s.refiner, gen, a⟩ = (result, s') ∨
        (∀ m, e ≠ .unproductive m) ∧ result = .error e ∧ s' = ⟨s.refiner, gen, a⟩)) ∨
    ∃ subtree a gen, s.generator.generate s.arena n (some choice) deadline = (.ok subtree, a, gen) ∧
      ((∃ a', a.splice root path subtree = (none, a') ∧
          probe root path n choice deadline count ⟨s.refiner, gen, a'⟩ = (result, s')) ∨
        ∃ spliced a' rest, a.splice root path subtree = (some spliced, a') ∧
          probe root path n choice deadline count ⟨s.refiner, gen, a'⟩ = (rest, s') ∧
          result = rest.map (a'.yieldString spliced :: ·)) := by
  obtain ⟨refiner, generator, arena⟩ := s
  rw [probe] at h
  rcases hgen : generator.generate arena n (some choice) deadline with ⟨e | subtree, a, gen⟩
  · left
    refine ⟨e, a, gen, rfl, ?_⟩
    rw [hgen] at h
    cases e with
    -- these two errors concern the attempt alone
    | interrupted => exact .inl ⟨.inl rfl, h⟩
    | unproductive m => exact .inl ⟨.inr ⟨m, rfl⟩, h⟩
    | _ =>
      cases h
      exact .inr ⟨(fun m hm => by cases hm), rfl, rfl⟩
  · right
    refine ⟨subtree, a, gen, rfl, ?_⟩
    rcases hsplice : a.splice root path subtree with ⟨- | spliced, a'⟩
    · simp only [hgen, hsplice] at h
      exact .inl ⟨a', rfl, h⟩
    · simp only [hgen, hsplice] at h
      rcases hrest : probe root path n choice deadline count ⟨refiner, gen, a'⟩ with ⟨rest, s₁⟩
      rw [hrest] at h
      refine .inr ⟨spliced, a', rest, rfl, ?_⟩
      rcases rest with e | inputs <;> cases h <;> exact ⟨hrest, rfl⟩

/-- Probing changes the generator and the arena only. -/
theorem probe_refiner {choice count : Nat} {deadline : Deadline} {result : Except Error (List String)}
    (h : probe root path n choice deadline count s = (result, s')) : s'.refiner = s.refiner := by
  induction count generalizing s result with
  | zero =>
    cases h
    rfl
  | succ count ih =>
    rcases probe_cases h with ⟨e, a, gen, -, ⟨-, hrest⟩ | ⟨-, -, rfl⟩⟩ |
      ⟨subtree, a, gen, -, ⟨a', -, hrest⟩ | ⟨spliced, a', rest, -, hrest, -⟩⟩
    · exact (ih hrest :)
    · rfl
    · exact (ih hrest :)
    · exact (ih hrest :)

/-- The inputs for one alternative are made up, and then those for the ones behind it. -/
theorem probes_cases {choice count : Nat} {result : Except Error (List (Nat × String))}
    (h : probes root path n (count + 1) choice s = (result, s')) :
    (∃ e, probe root path n choice s.refiner.generationDeadline s.refiner.config.probesPerAlternative s = (.error e, s') ∧
      result = .error e) ∨
    ∃ inputs s₁ rest,
      probe root path n choice s.refiner.generationDeadline s.refiner.config.probesPerAlternative s = (.ok inputs, s₁) ∧
      probes root path n count (choice + 1) s₁ = (rest, s') ∧
      result = rest.map (inputs.map (fun input => (choice, input)) ++ ·) := by
  rw [probes] at h
  rcases hp : probe root path n choice s.refiner.generationDeadline s.refiner.config.probesPerAlternative s with
    ⟨e | inputs, s₁⟩
  · rw [hp] at h
    cases h
    exact .inl ⟨e, rfl, rfl⟩
  · rw [hp] at h
    simp only at h
    rcases hps : probes root path n count (choice + 1) s₁ with ⟨rest, s₂⟩
    rw [hps] at h
    refine .inr ⟨inputs, s₁, rest, rfl, ?_⟩
    rcases rest with e | rest <;> cases h <;> exact ⟨hps, rfl⟩

theorem probes_refiner {choice count : Nat} {result : Except Error (List (Nat × String))}
    (h : probes root path n count choice s = (result, s')) : s'.refiner = s.refiner := by
  induction count generalizing choice s result with
  | zero =>
    cases h
    rfl
  | succ count ih =>
    rcases probes_cases h with ⟨e, hp, -⟩ | ⟨inputs, s₁, rest, hp, hps, -⟩
    · exact probe_refiner hp
    · exact (ih hps).trans (probe_refiner hp)

/-- The inputs cannot be made up, or the oracle is asked about all of them, and the qualities are counted. -/
theorem ruleQualities_cases {count : Nat} {result : Except Error (List Nat)}
    (h : ruleQualities root path n count s = (result, s')) :
    (∃ e, probes root path n count 0 s = (.error e, s') ∧ result = .error e) ∨
      ∃ owned s₁, probes root path n count 0 s = (.ok owned, s₁) ∧
        result = .ok ((List.range count).map fun choice =>
          ((((owned.map Prod.fst).zip (s.refiner.oracle.classifyAll (owned.map Prod.snd) s.refiner.oracleState).1).filter
            fun p => decide (p.2 = .accept)).filter fun p => p.1 == choice).length) ∧
        s' = { s₁ with refiner := { s.refiner with
          oracleState := (s.refiner.oracle.classifyAll (owned.map Prod.snd) s.refiner.oracleState).2 } } := by
  rw [ruleQualities] at h
  rcases hp : probes root path n count 0 s with ⟨e | owned, s₁⟩
  · rw [hp] at h
    cases h
    exact .inl ⟨e, rfl, rfl⟩
  · simp only [hp, probes_refiner hp] at h
    cases h
    exact .inr ⟨owned, s₁, rfl, rfl, rfl⟩

/-! ### Candidates -/

/-- The update is let through, or the fallback is proposed under a fresh name. -/
theorem propose_cases {quality : Nat} {update : Grammar} {fallback : String → Grammar} {c : Candidate}
    (h : propose s g n quality update fallback = (c, s')) :
    (∃ r, s.refiner.isUnderapproximating g update = (false, r) ∧ c = ⟨update, n, quality, true⟩ ∧
        s' = { s with refiner := r }) ∨
      ∃ r, s.refiner.isUnderapproximating g update = (true, r) ∧
        c = ⟨fallback (r.freshName g n).1, (r.freshName g n).1, quality, false⟩ ∧
        s' = { s with refiner := (r.freshName g n).2 } := by
  rw [propose] at h
  rcases hu : s.refiner.isUnderapproximating g update with ⟨- | -, r⟩
  · rw [hu] at h
    cases h
    exact .inl ⟨r, rfl, rfl, rfl⟩
  · rw [hu] at h
    cases h
    exact .inr ⟨r, rfl, rfl, rfl⟩

/-- The alternatives that reach a quality. -/
def reaching (alternatives : List Rule) (qualities : List Nat) (quality : Nat) : List Rule :=
  ((alternatives.zip qualities).filter fun p => decide (p.2 = quality)).map Prod.fst

/-- The alternatives cannot be scored, or nothing comes of it, or the best of them are proposed. -/
theorem refineAlternatives_cases {result : Except Error (Option Candidate)}
    (h : refineAlternatives g root path n s = (result, s')) :
    (∃ e, ruleQualities root path n (g.alternatives n).length s = (.error e, s') ∧ result = .error e) ∨
      ∃ qualities s₁, ruleQualities root path n (g.alternatives n).length s = (.ok qualities, s₁) ∧
        (result = .ok none ∧ s' = s₁ ∨
          ∃ c, propose s₁ g n (qualities.foldl max 0)
              (.ofList [(n, reaching (g.alternatives n) qualities (qualities.foldl max 0))])
              (fun name => .ofList [(name, reaching (g.alternatives n) qualities (qualities.foldl max 0))]) = (c, s') ∧
            result = .ok (some c)) := by
  rw [refineAlternatives] at h
  rcases hq : ruleQualities root path n (g.alternatives n).length s with ⟨e | qualities, s₁⟩
  · rw [hq] at h
    cases h
    exact .inl ⟨e, rfl, rfl⟩
  · refine .inr ⟨qualities, s₁, rfl, ?_⟩
    simp only [hq] at h
    split at h
    · cases h
      exact .inl ⟨rfl, rfl⟩
    · rw [← reaching] at h
      rcases hp : propose s₁ g n (qualities.foldl max 0)
        (.ofList [(n, reaching (g.alternatives n) qualities (qualities.foldl max 0))])
        (fun name => .ofList [(name, reaching (g.alternatives n) qualities (qualities.foldl max 0))]) with ⟨c, s₂⟩
      rw [hp] at h
      cases h
      exact .inr ⟨c, rfl, rfl⟩

/-! ### Trees -/

/-- Nothing is done at a terminal. -/
theorem searchTree_terminal {text : String} {ts : List Tree} {result : Except Error (Option Candidate)}
    (h : searchTree g root path (.node (.terminal text) ts) s = (result, s')) : result = .ok none ∧ s' = s := by
  rw [searchTree] at h
  cases h
  exact ⟨rfl, rfl⟩

/-- At a nonterminal, what the children offer is handed up as it is, or used in the rule of the node, or the
alternatives of the node are scored. -/
theorem searchTree_cases {ts : List Tree} {result : Except Error (Option Candidate)}
    (h : searchTree g root path (.node (.nonterminal n) ts) s = (result, s')) :
    (∃ e, searchChildren g root path 0 none ts s = (.error e, s') ∧ result = .error e) ∨
    (∃ c, searchChildren g root path 0 none ts s = (.ok (.accepted c), s') ∧ result = .ok (some c)) ∨
    (∃ i c c' s₁, searchChildren g root path 0 none ts s = (.ok (.best (some (i, c))), s₁) ∧ 0 < c.quality ∧
      refineInParent s₁ g n (ts.map Tree.symbol) i c = (c', s') ∧ result = .ok (some c')) ∨
    ∃ best s₁, searchChildren g root path 0 none ts s = (.ok (.best best), s₁) ∧
      (∀ i c, best = some (i, c) → ¬0 < c.quality) ∧ refineAlternatives g root path n s₁ = (result, s') := by
  rw [searchTree] at h
  rcases hch : searchChildren g root path 0 none ts s with ⟨e | c | - | ⟨i, c⟩, s₁⟩
  · rw [hch] at h
    cases h
    exact .inl ⟨e, rfl, rfl⟩
  · rw [hch] at h
    cases h
    exact .inr (.inl ⟨c, rfl, rfl⟩)
  · rw [hch] at h
    exact .inr (.inr (.inr ⟨none, s₁, rfl, (fun i c hnone => by cases hnone), h⟩))
  · -- a candidate that no accepted input speaks for counts as none
    simp only [hch] at h
    split at h
    · rename_i hpos
      rcases hp : refineInParent s₁ g n (ts.map Tree.symbol) i c with ⟨c', s₂⟩
      rw [hp] at h
      cases h
      exact .inr (.inr (.inl ⟨i, c, c', s₁, rfl, hpos, hp, rfl⟩))
    · rename_i hzero
      refine .inr (.inr (.inr ⟨some (i, c), s₁, rfl, fun j c' hsome => ?_, h⟩))
      cases hsome
      exact hzero

/-- No children are left, so the best of their candidates is offered. -/
theorem searchChildren_nil {i : Nat} {best : Option (Nat × Candidate)} {result : Except Error Offer}
    (h : searchChildren g root path i best [] s = (result, s')) : result = .ok (.best best) ∧ s' = s := by
  rw [searchChildren] at h
  cases h
  exact ⟨rfl, rfl⟩

/-- A candidate of a child is handed up if it is accepted; otherwise it is kept if it is the best, and the next
child is searched. -/
theorem searchChildren_cases {t : Tree} {ts : List Tree} {i : Nat} {best : Option (Nat × Candidate)}
    {result : Except Error Offer} (h : searchChildren g root path i best (t :: ts) s = (result, s')) :
    (∃ e, searchTree g root (path ++ [i]) t s = (.error e, s') ∧ result = .error e) ∨
    (∃ s₁, searchTree g root (path ++ [i]) t s = (.ok none, s₁) ∧
      searchChildren g root path (i + 1) best ts s₁ = (result, s')) ∨
    (∃ c, searchTree g root (path ++ [i]) t s = (.ok (some c), s') ∧ c.accepted = true ∧
      result = .ok (.accepted c)) ∨
    ∃ c s₁, searchTree g root (path ++ [i]) t s = (.ok (some c), s₁) ∧ c.accepted = false ∧
      searchChildren g root path (i + 1) (better best i c) ts s₁ = (result, s') := by
  rw [searchChildren] at h
  rcases ht : searchTree g root (path ++ [i]) t s with ⟨e | - | c, s₁⟩
  · rw [ht] at h
    cases h
    exact .inl ⟨e, rfl, rfl⟩
  · rw [ht] at h
    exact .inr (.inl ⟨s₁, rfl, h⟩)
  · simp only [ht] at h
    split at h
    · rename_i haccepted
      cases h
      exact .inr (.inr (.inl ⟨c, rfl, haccepted, rfl⟩))
    · rename_i hno
      exact .inr (.inr (.inr ⟨c, s₁, rfl, Bool.eq_false_iff.mpr hno, h⟩))

/-! ### Inputs -/

/-- The grammar that comes of what a search offers. -/
def committed (g : Grammar) : Option Candidate → Option Grammar
  | none => none
  | some c => if c.accepted then some (commit g c.update) else none

/-- Only an accepted candidate is committed. -/
theorem exists_candidate_of_committed {found : Except Error (Option Candidate)} {g' : Grammar}
    (h : found.map (committed g) = .ok (some g')) :
    ∃ c, found = .ok (some c) ∧ c.accepted = true ∧ g' = commit g c.update := by
  rcases found with e | - | c
  · cases h
  · cases h
  · have hsome : (if c.accepted then some (commit g c.update) else none) = some g' := Except.ok.inj h
    split at hsome
    · rename_i haccepted
      cases hsome
      exact ⟨c, rfl, haccepted, rfl⟩
    · cases hsome

/-- The input does not parse in time, or its parse tree is searched. -/
theorem refineForInput_cases {input : String} {seed : Nat} {result : Except Error (Option Grammar)}
    (h : r.refineForInput g input seed = (result, r')) :
    ((∀ root arena, Earley.parse (.ofGrammar g) ∅ input r.parseDeadline ≠ (.tree root, arena)) ∧
        result = .ok none ∧ r' = r) ∨
      ∃ root arena found s, Earley.parse (.ofGrammar g) ∅ input r.parseDeadline = (.tree root, arena) ∧
        searchTree g root [] (arena.treeAt root) ⟨r, .new g r.config.maxDepth seed, arena⟩ = (found, s) ∧
        result = found.map (committed g) ∧ r' = s.refiner := by
  rw [refineForInput] at h
  rcases hparse : Earley.parse (.ofGrammar g) ∅ input r.parseDeadline with ⟨root | - | -, arena⟩
  · simp only [hparse] at h
    rcases hsearch : searchTree g root [] (arena.treeAt root) ⟨r, .new g r.config.maxDepth seed, arena⟩ with
      ⟨found, s⟩
    refine .inr ⟨root, arena, found, s, rfl, hsearch, ?_⟩
    rw [hsearch] at h
    rcases found with e | - | c <;> cases h <;> exact ⟨rfl, rfl⟩
  · rw [hparse] at h
    cases h
    exact .inl ⟨(fun root arena heq => by cases heq), rfl, rfl⟩
  · rw [hparse] at h
    cases h
    exact .inl ⟨(fun root arena heq => by cases heq), rfl, rfl⟩

/-- It was cancelled, or the input is tried; what comes of it is the result if it is an error or another grammar, and
otherwise the next input is tried. -/
theorem firstRefined_cases {seed i : Nat} {input : String} {rest : List String}
    {result : Except Error (Option Grammar)} (h : firstRefined g seed i (input :: rest) r = (result, r')) :
    r.isCancelled = true ∧ result = .ok none ∧ r' = r ∨
      r.isCancelled = false ∧
        ((∃ e, r.refineForInput g input ((seed * 31 + i) % UInt64.size) = (.error e, r') ∧ result = .error e) ∨
          (∃ refined, r.refineForInput g input ((seed * 31 + i) % UInt64.size) = (.ok (some refined), r') ∧
            refined.sameEntries g = false ∧ result = .ok (some refined)) ∨
          ∃ found r₁, r.refineForInput g input ((seed * 31 + i) % UInt64.size) = (.ok found, r₁) ∧
            (∀ refined, found = some refined → refined.sameEntries g = true) ∧
            firstRefined g seed (i + 1) rest r₁ = (result, r')) := by
  rw [firstRefined] at h
  split at h
  · rename_i hcancel
    cases h
    exact .inl ⟨hcancel, rfl, rfl⟩
  · rename_i hgo
    refine .inr ⟨Bool.eq_false_iff.mpr hgo, ?_⟩
    rcases hone : r.refineForInput g input ((seed * 31 + i) % UInt64.size) with ⟨e | - | refined, r₁⟩
    · rw [hone] at h
      cases h
      exact .inl ⟨e, rfl, rfl⟩
    · rw [hone] at h
      exact .inr (.inr ⟨none, r₁, rfl, (fun refined hnone => by cases hnone), h⟩)
    · simp only [hone] at h
      split at h
      · -- a grammar that is equal to the one at hand is no result
        rename_i hsame
        refine .inr (.inr ⟨some refined, r₁, rfl, fun refined' hsome => ?_, h⟩)
        cases hsome
        exact hsame
      · rename_i hother
        cases h
        exact .inr (.inl ⟨refined, rfl, Bool.eq_false_iff.mpr hother, rfl⟩)

end Refiner

end GrammarInference
