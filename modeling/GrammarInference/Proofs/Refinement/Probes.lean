/-
GrammarInference/Proofs/Refinement/Probes.lean

What the alternatives of a node are scored by.

Design.  The search of a parse tree only adds nodes to the arena, so at any moment the tree still stands at its
root, and the generator still offers the alternatives of the grammar (`Ready`).  A probe is then the yield of the
tree with one subtree replaced, and the derivation that replaces it applies the alternative that is scored
(`IsProbe`).  A `Scoring` is the moment at which the alternatives of one node are scored; from it follow the
probes, what the oracle is asked and answers, and the qualities, which count the probes that it accepts.
-/
import GrammarInference.Proofs.Derivation.Depth
import GrammarInference.Proofs.Refinement.Candidates
import GrammarInference.Proofs.Refinement.Log
import GrammarInference.Proofs.Tree.Splice

namespace GrammarInference

namespace Refiner

variable {σ : Type} {g : Grammar} {t u : Tree} {root : NodeId} {path : List Nat} {n : String} {s s' : Search σ}

/-! ### Probes -/

/-- The input is the yield of the tree with the subtree at the path replaced by a derivation of `n` that applies
alternative number `c` at its root. -/
def IsProbe (g : Grammar) (t : Tree) (path : List Nat) (n : String) (c : Nat) (w : String) : Prop :=
  ∃ d : Tree, d.isDerivation g = true ∧ d.symbol = .nonterminal n ∧ (g.alternatives n)[c]? = some d.rule ∧
    w = (t.replaceAt path d).yieldString

/-- A probe at a place where its nonterminal stood is derived from the root. -/
theorem IsProbe.inLanguage {c : Nat} {m w : String} (h : IsProbe g t path n c w) (ht : t.isDerivation g = true)
    (hm : t.symbol = .nonterminal m) (hu : t.subtreeAt? path = some u) (hn : u.symbol = .nonterminal n) :
    Grammar.InLanguage g m w.toList := by
  obtain ⟨d, hd, hdn, -, rfl⟩ := h
  have hsymbol : d.symbol = u.symbol := hdn.trans hn.symm
  rw [Tree.toList_yieldString]
  exact Tree.inLanguage_yield (Tree.isDerivation_replaceAt ht hu hd hsymbol)
    ((Tree.symbol_replaceAt hu hsymbol).trans hm)

/-- The tree stands at the root, and the generator is for the grammar. -/
structure Ready (g : Grammar) (t : Tree) (root : NodeId) (s : Search σ) : Prop where
  /-- The generator is for the grammar. -/
  isFor : s.generator.IsFor g
  /-- The tree stands at the root. -/
  stores : s.arena.Stores t root

theorem Ready.generate {forced : Option Nat} {deadline : Deadline} {result : Except Error NodeId} {a : Arena}
    {gen : Generator} (hs : Ready g t root s)
    (h : s.generator.generate s.arena n forced deadline = (result, a, gen)) :
    Ready g t root ⟨s.refiner, gen, a⟩ := by
  obtain ⟨hext, -⟩ := Generator.generate_spec hs.isFor.offers s.arena n forced deadline
  rw [h] at hext
  rw [Generator.generate] at h
  cases h
  exact ⟨hs.isFor.withRandom _, hs.stores.mono hext⟩

/-- Probing leaves the tree where it is, and gives at most as many inputs as it makes attempts, all of them probes. -/
theorem probe_spec {choice : Nat} {deadline : Deadline} {count : Nat} {result : Except Error (List String)}
    (hs : Ready g t root s) (hu : t.subtreeAt? path = some u)
    (h : probe root path n choice deadline count s = (result, s')) :
    Ready g t root s' ∧
      ∀ inputs, result = .ok inputs → inputs.length ≤ count ∧ ∀ w ∈ inputs, IsProbe g t path n choice w := by
  induction count generalizing s result with
  | zero =>
    cases h
    refine ⟨hs, fun inputs hok => ?_⟩
    cases hok
    exact ⟨Nat.le_refl 0, fun w hw => absurd hw List.not_mem_nil⟩
  | succ count ih =>
    -- an attempt that is passed over uses up one of the attempts
    have hskip : ∀ {x : Search σ}, Ready g t root x → probe root path n choice deadline count x = (result, s') →
        Ready g t root s' ∧ ∀ inputs, result = .ok inputs →
          inputs.length ≤ count + 1 ∧ ∀ w ∈ inputs, IsProbe g t path n choice w := by
      intro x hx hrest
      obtain ⟨hready, hall⟩ := ih hx hrest
      exact ⟨hready, fun inputs hok => (hall inputs hok).imp_left Nat.le_succ_of_le⟩
    rcases probe_cases h with ⟨e, a, gen, hgen, ⟨-, hrest⟩ | ⟨-, rfl, rfl⟩⟩ | ⟨subtree, a, gen, hgen, hspliced⟩
    · exact hskip (hs.generate hgen) hrest
    · exact ⟨hs.generate hgen, fun inputs hok => by cases hok⟩
    · have hs₁ := hs.generate hgen
      obtain ⟨d, hd, hder, hsym, hrule⟩ := Generator.generate_forced hs.isFor hgen
      obtain ⟨new, a₁, hnew, hext, hstore⟩ := hs₁.stores.splice hu hd
      -- the path stays in the tree, so there is an input
      rcases hspliced with ⟨a', hnone, -⟩ | ⟨spliced, a', rest, hsome, hrest, rfl⟩
      · rw [hnew] at hnone
        cases hnone
      · rw [hnew] at hsome
        cases hsome
        have hs₂ : Ready g t root ⟨s.refiner, gen, a₁⟩ := ⟨hs₁.isFor, hs₁.stores.mono hext⟩
        obtain ⟨hready, hall⟩ := ih hs₂ hrest
        refine ⟨hready, fun inputs hok => ?_⟩
        rcases rest with e | inputs'
        · cases hok
        · cases hok
          obtain ⟨hlength, hprobes⟩ := hall inputs' rfl
          refine ⟨Nat.succ_le_succ hlength, List.forall_mem_cons.mpr ⟨?_, hprobes⟩⟩
          exact ⟨d, hder, hsym, hrule, congrArg Tree.yieldString hstore.treeAt_eq⟩

/-- With at most as many inputs for one alternative as are allowed, in front of those for later ones, no alternative
has more than are allowed. -/
theorem countP_owned_le {inputs : List String} {rest : List (Nat × String)} {choice bound : Nat}
    (hlength : inputs.length ≤ bound) (hlater : ∀ p ∈ rest, choice < p.1)
    (hcount : ∀ c, rest.countP (fun p => p.1 == c) ≤ bound) (c : Nat) :
    (inputs.map (fun input => (choice, input)) ++ rest).countP (fun p => p.1 == c) ≤ bound := by
  -- the inputs of one alternative stand together, so each counts in one of the two parts only
  rw [List.countP_append, List.countP_map]
  by_cases hc : choice = c
  · have hnone : rest.countP (fun p => p.1 == c) = 0 := by
      rw [List.countP_eq_zero]
      intro p hp hpc
      have hlt := hlater p hp
      have heq : p.1 = c := beq_iff_eq.mp hpc
      omega
    rw [hnone]
    exact List.countP_le_length.trans hlength
  · have hnone : inputs.countP ((fun p => p.1 == c) ∘ fun input => (choice, input)) = 0 := by
      rw [List.countP_eq_zero]
      exact fun w _ hwc => hc (beq_iff_eq.mp hwc)
    rw [hnone, Nat.zero_add]
    exact hcount c

/-- The inputs are probes for the alternatives that they are listed with, and no alternative has more than the
settings say. -/
theorem probes_spec {choice count : Nat} {result : Except Error (List (Nat × String))} (hs : Ready g t root s)
    (hu : t.subtreeAt? path = some u) (h : probes root path n count choice s = (result, s')) :
    Ready g t root s' ∧ ∀ owned, result = .ok owned →
      (∀ p ∈ owned, choice ≤ p.1 ∧ IsProbe g t path n p.1 p.2) ∧
      ∀ c, owned.countP (fun p => p.1 == c) ≤ s.refiner.config.probesPerAlternative := by
  induction count generalizing choice s result with
  | zero =>
    cases h
    refine ⟨hs, fun owned hok => ?_⟩
    cases hok
    exact ⟨fun p hp => absurd hp List.not_mem_nil, fun c => Nat.zero_le _⟩
  | succ count ih =>
    rcases probes_cases h with ⟨e, hp, rfl⟩ | ⟨inputs, s₁, rest, hp, hps, rfl⟩
    · exact ⟨(probe_spec hs hu hp).1, fun owned hok => by cases hok⟩
    · obtain ⟨hs₁, hall⟩ := probe_spec hs hu hp
      obtain ⟨hlength, hprobes⟩ := hall inputs rfl
      obtain ⟨hs₂, hrest⟩ := ih hs₁ hps
      refine ⟨hs₂, fun owned hok => ?_⟩
      rcases rest with e | rest
      · cases hok
      · cases hok
        obtain ⟨hlater, hcount⟩ := hrest rest rfl
        rw [probe_refiner hp] at hcount
        constructor
        · intro p hp
          rcases List.mem_append.mp hp with hp | hp
          · obtain ⟨w, hw, rfl⟩ := List.mem_map.mp hp
            exact ⟨Nat.le_refl _, hprobes w hw⟩
          · obtain ⟨hle, hprobe⟩ := hlater p hp
            exact ⟨Nat.le_of_succ_le hle, hprobe⟩
        · exact countP_owned_le hlength (fun p hp => (hlater p hp).1) hcount

/-! ### Probes without a deadline -/

open Generator (CanEnd)

/-- Without a deadline, every attempt gives a probe if the alternative derives a string. -/
theorem probe_never (hs : Ready g t root s) (hu : t.subtreeAt? path = some u) (hn : g.contains n = true)
    (choice count : Nat) : ∃ inputs s', probe root path n choice .never count s = (.ok inputs, s') ∧
      (CanEnd g n (some choice) → inputs.length = count) := by
  induction count generalizing s with
  | zero => exact ⟨[], s, rfl, fun _ => rfl⟩
  | succ count ih =>
    obtain ⟨refiner, generator, arena⟩ := s
    by_cases hends : CanEnd g n (some choice)
    · obtain ⟨id, arena₁, generator₁, r, hgen, hfor, hext, -, d, hd, -⟩ :=
        Generator.generate_of_canEnd hs.isFor hn arena hends
      have hstores := hs.stores.mono hext
      obtain ⟨spliced, arena₂, hsplice, hext', -⟩ := hstores.splice hu hd
      obtain ⟨inputs, s', hrest, hlength⟩ :=
        ih (s := ⟨refiner, generator₁, arena₂⟩) ⟨hfor, hstores.mono hext'⟩
      refine ⟨arena₂.yieldString spliced :: inputs, s', ?_, fun _ => congrArg (· + 1) (hlength hends)⟩
      simp only [probe, hgen, hsplice, hrest]
    · obtain ⟨inputs, s', hrest, -⟩ := ih hs
      refine ⟨inputs, s', ?_, fun hend => absurd hend hends⟩
      simp only [probe, Generator.generate_of_not_canEnd hs.isFor hn arena hends, hrest]

/-- Without a deadline, the inputs can be made up, and an alternative that derives a string has as many as the
settings say. -/
theorem probes_never (hs : Ready g t root s) (hu : t.subtreeAt? path = some u) (hn : g.contains n = true)
    (hnever : s.refiner.generationDeadline = .never) (count choice : Nat) :
    ∃ owned s', probes root path n count choice s = (.ok owned, s') ∧
      ∀ c, choice ≤ c → c < choice + count → CanEnd g n (some c) →
        s.refiner.config.probesPerAlternative ≤ owned.countP fun p => p.1 == c := by
  induction count generalizing choice s with
  | zero => exact ⟨[], s, rfl, fun c hle hlt => absurd hle (Nat.not_le_of_lt hlt)⟩
  | succ count ih =>
    obtain ⟨inputs, s₁, hp, hlength⟩ := probe_never hs hu hn choice s.refiner.config.probesPerAlternative
    have hrefiner := probe_refiner hp
    obtain ⟨rest, s₂, hps, hrest⟩ := ih (probe_spec hs hu hp).1 (hrefiner ▸ hnever) (choice + 1)
    rw [hrefiner] at hrest
    refine ⟨inputs.map (fun input => (choice, input)) ++ rest, s₂, ?_, fun c hle hlt hends => ?_⟩
    · simp only [probes, hnever, hp, hps]
    · rw [List.countP_append]
      rcases Nat.eq_or_lt_of_le hle with rfl | hlater
      · have hall : (inputs.map fun input => (choice, input)).countP (fun p => p.1 == choice) = inputs.length := by
          rw [List.countP_map, List.countP_eq_length]
          exact fun w _ => beq_iff_eq.mpr rfl
        rw [hall, hlength hends]
        exact Nat.le_add_right _ _
      · exact (hrest c hlater (by omega) hends).trans (Nat.le_add_left _ _)

/-! ### Scorings -/

/-- The moment at which the alternatives of a node are scored. -/
structure Scoring (σ : Type) where
  /-- The root of the parse tree. -/
  root : NodeId
  /-- The way from the root to the node. -/
  path : List Nat
  /-- The nonterminal at the node. -/
  name : String
  /-- The state of the search before. -/
  before : Search σ

namespace Scoring

variable {sc : Scoring σ}

/-- The inputs that are made up, each with its alternative. -/
def probes (g : Grammar) (sc : Scoring σ) : List (Nat × String) :=
  ((Refiner.probes sc.root sc.path sc.name (g.alternatives sc.name).length 0 sc.before).1.toOption).getD []

/-- What the oracle is asked, and what it answers. -/
def log (g : Grammar) (sc : Scoring σ) : Oracle.Log :=
  sc.before.refiner.oracle.logOf ((sc.probes g).map Prod.snd) sc.before.refiner.oracleState

/-- The entries of the log, each with its alternative. -/
def judged (g : Grammar) (sc : Scoring σ) : List (Nat × String × Verdict) :=
  ((sc.probes g).map Prod.fst).zip (sc.log g)

/-- The number of accepted probes for an alternative. -/
def accepted (g : Grammar) (sc : Scoring σ) (c : Nat) : Nat :=
  (sc.judged g).countP fun e => e.1 == c && decide (e.2.2 = .accept)

/-- The qualities that the alternatives get. -/
def qualities (g : Grammar) (sc : Scoring σ) : Except Error (List Nat) :=
  (ruleQualities sc.root sc.path sc.name (g.alternatives sc.name).length sc.before).1

/-- The node that is scored stands in the tree, and the search is ready. -/
structure IsOf (g : Grammar) (t : Tree) (sc : Scoring σ) : Prop where
  /-- The search is ready. -/
  ready : Ready g t sc.root sc.before
  /-- The node stands in the tree. -/
  place : ∃ u, t.subtreeAt? sc.path = some u ∧ u.symbol = .nonterminal sc.name

theorem map_fst_log (g : Grammar) (sc : Scoring σ) : (sc.log g).map Prod.fst = (sc.probes g).map Prod.snd :=
  Oracle.map_fst_logOf _ _ _

theorem length_log (g : Grammar) (sc : Scoring σ) : (sc.log g).length = (sc.probes g).length := by
  have hsame := congrArg List.length (sc.map_fst_log g)
  rwa [List.length_map, List.length_map] at hsame

theorem map_fst_judged (g : Grammar) (sc : Scoring σ) :
    (sc.judged g).map Prod.fst = (sc.probes g).map Prod.fst := by
  apply List.map_fst_zip
  rw [length_log, List.length_map]

theorem countP_judged (g : Grammar) (sc : Scoring σ) (c : Nat) :
    (sc.judged g).countP (fun e => e.1 == c) = (sc.probes g).countP fun p => p.1 == c := by
  calc (sc.judged g).countP (fun e => e.1 == c)
      = ((sc.judged g).map Prod.fst).countP (· == c) := by rw [List.countP_map]; rfl
    _ = (sc.probes g).countP fun p => p.1 == c := by rw [map_fst_judged, List.countP_map]; rfl

theorem map_snd_judged (g : Grammar) (sc : Scoring σ) : (sc.judged g).map Prod.snd = sc.log g := by
  apply List.map_snd_zip
  rw [length_log, List.length_map]

/-- The probes of a scoring, if they can be made up. -/
theorem probes_of_ok {owned : List (Nat × String)}
    (h : Refiner.probes sc.root sc.path sc.name (g.alternatives sc.name).length 0 sc.before = (.ok owned, s')) :
    sc.probes g = owned := by
  rw [probes, h]
  rfl

theorem probes_of_error {e : Error}
    (h : Refiner.probes sc.root sc.path sc.name (g.alternatives sc.name).length 0 sc.before = (.error e, s')) :
    sc.probes g = [] := by
  rw [probes, h]
  rfl

/-- Every question of a scoring is a probe for the alternative that it is judged with. -/
theorem IsOf.isProbe (h : sc.IsOf g t) {c : Nat} {w : String} {v : Verdict} (he : (c, w, v) ∈ sc.judged g) :
    IsProbe g t sc.path sc.name c w := by
  have hmem : (c, w) ∈ sc.probes g := by
    have hzip : (sc.judged g).map (fun e => (e.1, e.2.1)) = sc.probes g := by
      calc (sc.judged g).map (fun e => (e.1, e.2.1))
          = ((sc.probes g).map Prod.fst).zip ((sc.log g).map Prod.fst) := (List.zip_map_right ..).symm
        _ = ((sc.probes g).map Prod.fst).zip ((sc.probes g).map Prod.snd) := by rw [map_fst_log]
        _ = sc.probes g := (List.zip_of_prod rfl rfl).symm
    rw [← hzip]
    exact List.mem_map_of_mem he
  obtain ⟨u, hu, -⟩ := h.place
  rcases hp : Refiner.probes sc.root sc.path sc.name (g.alternatives sc.name).length 0 sc.before with ⟨e | owned, s₁⟩
  · rw [probes_of_error hp] at hmem
    exact absurd hmem List.not_mem_nil
  · rw [probes_of_ok hp] at hmem
    exact (((probes_spec h.ready hu hp).2 owned rfl).1 _ hmem).2

/-- No alternative has more accepted probes than the settings allow probes. -/
theorem IsOf.accepted_le (h : sc.IsOf g t) (c : Nat) :
    sc.accepted g c ≤ sc.before.refiner.config.probesPerAlternative := by
  obtain ⟨u, hu, -⟩ := h.place
  have hcount : (sc.probes g).countP (fun p => p.1 == c) ≤ sc.before.refiner.config.probesPerAlternative := by
    rcases hp : Refiner.probes sc.root sc.path sc.name (g.alternatives sc.name).length 0 sc.before with
      ⟨e | owned, s₁⟩
    · rw [probes_of_error hp]
      exact Nat.zero_le _
    · rw [probes_of_ok hp]
      exact ((probes_spec h.ready hu hp).2 owned rfl).2 c
  calc sc.accepted g c
      ≤ (sc.judged g).countP fun e => e.1 == c := List.countP_mono_left fun e _ he => (Bool.and_eq_true_iff.mp he).1
    _ = (sc.probes g).countP fun p => p.1 == c := countP_judged g sc c
    _ ≤ sc.before.refiner.config.probesPerAlternative := hcount

/-- If the inputs can be made up, the quality of an alternative is the number of its probes that are accepted. -/
theorem qualities_of_ok {owned : List (Nat × String)}
    (h : Refiner.probes sc.root sc.path sc.name (g.alternatives sc.name).length 0 sc.before = (.ok owned, s')) :
    sc.qualities g = .ok ((List.range (g.alternatives sc.name).length).map (sc.accepted g)) := by
  have hverdicts : (sc.log g).map Prod.snd =
      (sc.before.refiner.oracle.classifyAll (owned.map Prod.snd) sc.before.refiner.oracleState).1 := by
    rw [log, probes_of_ok h, Oracle.map_snd_logOf]
  rw [qualities]
  rcases hq : ruleQualities sc.root sc.path sc.name (g.alternatives sc.name).length sc.before with ⟨result, s₁⟩
  rcases ruleQualities_cases hq with ⟨e, hp, -⟩ | ⟨owned', s₂, hp, rfl, -⟩
  · rw [h] at hp
    cases hp
  · rw [h] at hp
    cases hp
    apply congrArg Except.ok
    apply List.map_congr_left
    intro c _
    rw [accepted, judged, probes_of_ok h, List.filter_filter, ← List.countP_eq_length_filter, ← hverdicts,
      List.zip_map_right, List.countP_map]
    rfl

/-- What is wanted of a scoring at a node of the tree `t`, with a limit on the probes for one alternative. -/
structure Faithful (g : Grammar) (limit : Nat) (t : Tree) (sc : Scoring σ) : Prop where
  /-- The nonterminal stands at the path. -/
  place : ∃ u, t.subtreeAt? sc.path = some u ∧ u.symbol = .nonterminal sc.name
  /-- Every input that counts for an alternative is a probe for it. -/
  isProbe : ∀ c w v, (c, w, v) ∈ sc.judged g → IsProbe g t sc.path sc.name c w
  /-- The quality of an alternative is the number of its probes that are accepted. -/
  qualities_eq : sc.qualities g = .ok ((List.range (g.alternatives sc.name).length).map (sc.accepted g))
  /-- It is within the limit. -/
  accepted_le : ∀ c, sc.accepted g c ≤ limit
  /-- An alternative that derives a string has as many probes as the limit says. -/
  count_eq : ∀ c, CanEnd g sc.name (some c) → (sc.judged g).countP (fun e => e.1 == c) = limit

/-- Without a deadline, a scoring of a node of a derivation tree is what is wanted. -/
theorem IsOf.faithful (h : sc.IsOf g t) (ht : t.isDerivation g = true)
    (hnever : sc.before.refiner.generationDeadline = .never) :
    sc.Faithful g sc.before.refiner.config.probesPerAlternative t := by
  obtain ⟨u, hu, hname⟩ := h.place
  have hdefined : g.contains sc.name = true := by
    have hder := Tree.isDerivation_subtreeAt? ht hu
    cases u with
    | node s ts =>
      obtain rfl : s = .nonterminal sc.name := hname
      exact Grammar.contains_of_mem_alternatives (Tree.isDerivation_nonterminal_iff.mp hder).1
  obtain ⟨owned, s', hp, hmany⟩ := probes_never h.ready hu hdefined hnever (g.alternatives sc.name).length 0
  refine ⟨h.place, fun c w v he => h.isProbe he, qualities_of_ok hp, h.accepted_le, fun c hends => ?_⟩
  have hlt : c < (g.alternatives sc.name).length := by
    obtain ⟨r, hr, -⟩ := hends
    exact (List.getElem?_eq_some_iff.mp hr).1
  have hfew := ((probes_spec h.ready hu hp).2 owned rfl).2 c
  rw [countP_judged, probes_of_ok hp]
  exact Nat.le_antisymm hfew (hmany c (Nat.zero_le c) (by omega) hends)

end Scoring

end Refiner

end GrammarInference
