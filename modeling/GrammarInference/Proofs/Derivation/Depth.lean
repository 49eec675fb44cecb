/-
GrammarInference/Proofs/Derivation/Depth.lean

Random derivations succeed exactly where they can, and end within a known depth.

Design.  Whether a derivation succeeds is decided by the first choice: there is an alternative to take exactly if
some alternative, or the one that is forced, derives a string, and below an alternative that was taken a choice
never fails.  A bound on the depth that is enough for a nonterminal (`Suffices`) is never used up, so a larger one
gives the same tree, and it bounds the nonterminals on every branch of the tree.  All bounds are enough behind the
root that are as large as the depth up to which alternatives are free, with the largest cost added.
-/
import GrammarInference.Proofs.Derivation.Productivity

namespace GrammarInference

/-! ### Branches -/

namespace Tree

/-- `IsBranch t path`: the symbols of `path` stand on the way from the root of `t` down to a leaf. -/
inductive IsBranch : Tree → List Symbol → Prop
  | leaf {s} : IsBranch (.node s []) [s]
  | step {s ts t path} : t ∈ ts → IsBranch t path → IsBranch (.node s ts) (s :: path)

/-- No branch of the tree has more than `k` nonterminals. -/
def WithinLevels (k : Nat) (t : Tree) : Prop :=
  ∀ path, t.IsBranch path → path.countP (fun s => !s.isTerminal) ≤ k

theorem withinLevels_terminal (k : Nat) (text : String) : (node (.terminal text) []).WithinLevels k := by
  intro path h
  cases h with
  | leaf => exact Nat.zero_le k
  | step ht _ => exact absurd ht List.not_mem_nil

/-- A nonterminal adds one level to those of its children. -/
theorem withinLevels_nonterminal {k : Nat} {ts : List Tree} (h : ∀ t ∈ ts, t.WithinLevels k) (n : String) :
    (node (.nonterminal n) ts).WithinLevels (k + 1) := by
  intro path hpath
  cases hpath with
  | leaf => exact Nat.succ_le_succ (Nat.zero_le k)
  | step ht hbranch =>
    rw [List.countP_cons_of_pos rfl]
    exact Nat.succ_le_succ (h _ ht _ hbranch)

theorem WithinLevels.mono {k l : Nat} {t : Tree} (h : t.WithinLevels k) (hle : k ≤ l) : t.WithinLevels l :=
  fun path hpath => (h path hpath).trans hle

end Tree

/-- The node holds a derivation tree of `n` by the alternative `r`, with at most `k` nonterminals on a branch. -/
def Arena.HoldsWithin (g : Grammar) (n : String) (r : Rule) (k : Nat) (a : Arena) (id : NodeId) : Prop :=
  ∃ t, a.Stores t id ∧ t.isDerivation g = true ∧ t.symbol = .nonterminal n ∧ t.rule = r ∧ t.WithinLevels k

namespace Generator

open Grammar (EndsWithin heightIn ruleHeight)

variable {g : Grammar} {gen : Generator} {n : String} {r : Rule} {k depth bound : Nat} {s s₁ : State}
  {forced : Option Nat}

/-! ### Costs -/

theorem IsFor.get?_options (h : IsFor g gen) (n : String) :
    gen.options.get? n = (g.get? n).map fun rs => rs.map fun r => (r, heightOf g r) := by
  obtain ⟨maxDepth, seed, random, rfl⟩ := h
  exact OrderedMap.get?_mapValues (fun _ rs => rs.map fun r => (r, heightOf g r)) g n

theorem IsFor.options_of_contains (h : IsFor g gen) (hn : g.contains n = true) :
    gen.options.get? n = some ((g.alternatives n).map fun r => (r, heightOf g r)) := by
  obtain ⟨rs, hrs⟩ := Option.isSome_iff_exists.mp hn
  rw [h.get?_options, Grammar.alternatives, hrs]
  rfl

/-- The cost of a nonterminal keeps a bound exactly if the nonterminal ends within it. -/
theorem IsFor.atMost_cost_iff (h : IsFor g gen) : (gen.cost n).AtMost k ↔ EndsWithin g k n := by
  have hoptions : (gen.options.get? n).getD [] = (g.alternatives n).map fun r => (r, heightOf g r) := by
    rw [h.get?_options, Grammar.alternatives]
    cases g.get? n <;> rfl
  rw [cost, hoptions, Height.atMost_minimum, List.map_map]
  cases k with
  | zero => simp [EndsWithin, heightOf, Grammar.not_atMost_ruleHeight_zero]
  | succ k => simp [EndsWithin, atMost_heightOf]

/-- A number above all costs is above the largest height. -/
theorem IsFor.largestHeight_le (h : IsFor g gen) {C : Nat} (hC : ∀ m c, gen.cost m = some c → c ≤ C) :
    largestHeight g.heights ≤ C := by
  have hfold : ∀ (l : List Nat) (b : Nat), b ≤ C → (∀ c ∈ l, c ≤ C) → l.foldl max b ≤ C := by
    intro l
    induction l with
    | nil => exact fun b hb _ => hb
    | cons c l ih =>
      intro b hb hl
      obtain ⟨hc, hl⟩ := List.forall_mem_cons.mp hl
      exact ih (max b c) (Nat.max_le.mpr ⟨hb, hc⟩) hl
  refine hfold _ 0 (Nat.zero_le C) fun c hc => ?_
  obtain ⟨x, hx, rfl⟩ := List.mem_map.mp hc
  obtain ⟨⟨m, x⟩, he, rfl⟩ := List.mem_map.mp hx
  cases x with
  | none => exact Nat.zero_le C
  | some a =>
    have hheight : heightIn g.heights m = some a := by
      rw [heightIn, OrderedMap.get?_eq_some_iff.mpr he]
      rfl
    have hends : EndsWithin g a m := Grammar.heightIn_heights_iff.mp ⟨a, hheight, Nat.le_refl a⟩
    -- the cost is at most the height, and the height at most the cost
    obtain ⟨c, hcost, -⟩ := h.atMost_cost_iff.mpr hends
    have hends' : EndsWithin g c m := h.atMost_cost_iff.mp ⟨c, hcost, Nat.le_refl c⟩
    obtain ⟨b, hb, hbc⟩ := Grammar.heightIn_heights_iff.mpr hends'
    rw [hheight] at hb
    cases hb
    exact hbc.trans (hC m c hcost)

theorem exists_heightOf_iff : (∃ a, heightOf g r = some a) ↔ ∃ w, Grammar.Derives g r w := by
  constructor
  · rintro ⟨a, ha⟩
    exact Grammar.exists_derives fun m hm => Grammar.exists_endsWithin_iff.mp (exists_endsWithin_of_heightOf ha hm)
  · rintro ⟨w, hw⟩
    obtain ⟨k, hk⟩ := hw.exists_endsWithin
    obtain ⟨a, ha, -⟩ := atMost_heightOf.mpr hk
    exact ⟨a, ha⟩

/-! ### The first choice -/

/-- There is a string to derive: from `n`, or by the alternative that is forced. -/
def CanEnd (g : Grammar) (n : String) : Option Nat → Prop
  | none => ∃ w, Grammar.InLanguage g n w
  | some i => ∃ r, (g.alternatives n)[i]? = some r ∧ ∃ w, Grammar.Derives g r w

theorem candidates_eq_nil (h : ¬∃ w, Grammar.InLanguage g n w) :
    gen.candidates depth ((g.alternatives n).map fun r => (r, heightOf g r)) = [] := by
  have hnone : ∀ o ∈ (g.alternatives n).map (fun r => (r, heightOf g r)), o.2 = none := by
    intro o ho
    obtain ⟨r, hr, rfl⟩ := List.mem_map.mp ho
    rcases hheight : heightOf g r with - | a
    · rfl
    · obtain ⟨w, hw⟩ := exists_heightOf_iff.mp ⟨a, hheight⟩
      exact absurd ⟨w, r, hr, hw⟩ h
  rw [candidates]
  split
  · rw [List.map_eq_nil_iff, List.filter_eq_nil_iff]
    intro o ho
    simp only [hnone o ho, Bool.and_eq_true, decide_eq_true_eq, not_and]
    intro hsome heq
    rw [← heq] at hsome
    cases hsome
  · rw [List.map_eq_nil_iff, List.filter_eq_nil_iff]
    intro o ho
    rw [hnone o ho]
    exact Bool.false_ne_true

/-- The bound on the depth that is enough behind the root. -/
def belowRoot (g : Grammar) (gen : Generator) : Nat := max gen.maxDepth 1 - 1 + largestHeight g.heights

theorem suffices_belowRoot (gen : Generator) (h : ∃ k, EndsWithin g k n) : Suffices g gen (belowRoot g gen) 1 n where
  deep := fun _ => (endsWithin_largestHeight h).mono (Nat.le_add_left _ _)
  shallow := fun hlt => ⟨h, by rw [belowRoot]; omega⟩

/-- The alternative that was picked belongs to `n`, is the forced one if there is one, and mentions only
nonterminals that end; only the random stream went on. -/
structure Picked (g : Grammar) (n : String) (forced : Option Nat) (s s₁ : State) (r : Rule) : Prop where
  /-- It belongs to `n`. -/
  mem : r ∈ g.alternatives n
  /-- It is the forced one. -/
  forced_eq : ∀ i, forced = some i → (g.alternatives n)[i]? = some r
  /-- Its nonterminals end. -/
  ends : ∀ m, Symbol.nonterminal m ∈ r → ∃ k, EndsWithin g k m
  /-- The nodes are the same. -/
  arena_eq : s₁.arena = s.arena
  /-- The count of expansions is the same. -/
  checkpoint_eq : s₁.checkpoint = s.checkpoint

/-- A forced alternative is taken exactly if it derives a string. -/
theorem pick_forced (gen : Generator) (g : Grammar) (n : String) (depth i : Nat) (s : State) :
    let options := (g.alternatives n).map fun r => (r, heightOf g r)
    (CanEnd g n (some i) → ∃ r, gen.pick n (some i) depth options s = (.ok r, s) ∧ Picked g n (some i) s s r) ∧
      (¬CanEnd g n (some i) → gen.pick n (some i) depth options s = (.error (.unproductive n), s)) := by
  simp only [pick, List.getElem?_map]
  rcases hi : (g.alternatives n)[i]? with - | r
  · refine ⟨?_, fun _ => rfl⟩
    rintro ⟨r, hr, -⟩
    rw [hi] at hr
    cases hr
  · rcases hheight : heightOf g r with - | a
    · refine ⟨?_, fun _ => by simp [hheight]⟩
      rintro ⟨r', hr', hw⟩
      rw [hi] at hr'
      cases hr'
      obtain ⟨a, ha⟩ := exists_heightOf_iff.mpr hw
      rw [hheight] at ha
      cases ha
    · constructor
      · refine fun _ => ⟨r, by simp [hheight], List.mem_of_getElem? hi, ?_, ?_, rfl, rfl⟩
        · rintro j hj
          cases hj
          exact hi
        · exact fun m hm => exists_endsWithin_of_heightOf hheight hm
      · exact fun hno => absurd ⟨r, hi, exists_heightOf_iff.mp ⟨a, hheight⟩⟩ hno

/-- If there are candidates, and their nonterminals end, one of them is picked. -/
theorem exists_pick (hne : gen.candidates depth ((g.alternatives n).map fun r => (r, heightOf g r)) ≠ [])
    (hends : ∀ r ∈ gen.candidates depth ((g.alternatives n).map fun r => (r, heightOf g r)),
      ∀ m, Symbol.nonterminal m ∈ r → ∃ k, EndsWithin g k m) (s : State) :
    let options := (g.alternatives n).map fun r => (r, heightOf g r)
    ∃ r s₁, r ∈ gen.candidates depth options ∧ gen.pick n none depth options s = (.ok r, s₁) ∧
      Picked g n none s s₁ r := by
  obtain ⟨r, random, hchoose⟩ := RandomStream.exists_choose hne s.random
  have hr := RandomStream.mem_of_choose hchoose
  obtain ⟨o, ho, rfl⟩ := mem_of_mem_candidates hr
  obtain ⟨r, hmem, rfl⟩ := List.mem_map.mp ho
  exact ⟨r, { s with random := random }, hr, by rw [pick, hchoose], hmem, nofun, hends r hr, rfl, rfl⟩

/-- An alternative is chosen exactly if the nonterminal derives a string. -/
theorem pick_free (s : State) :
    let options := (g.alternatives n).map fun r => (r, heightOf g r)
    (CanEnd g n none → ∃ r s₁, gen.pick n none depth options s = (.ok r, s₁) ∧ Picked g n none s s₁ r) ∧
      (¬CanEnd g n none → gen.pick n none depth options s = (.error (.unproductive n), s)) := by
  constructor
  · intro hends
    have hends' : ∃ k, EndsWithin g k n := Grammar.exists_endsWithin_iff.mpr hends
    have hcandidates : gen.candidates depth ((g.alternatives n).map fun r => (r, heightOf g r)) ≠ [] ∧
        ∀ r ∈ gen.candidates depth ((g.alternatives n).map fun r => (r, heightOf g r)),
          ∀ m, Symbol.nonterminal m ∈ r → ∃ k, EndsWithin g k m := by
      rcases Nat.lt_or_ge depth gen.maxDepth with hlt | hge
      · exact candidates_of_lt hlt hends'
      · obtain ⟨k, hk⟩ := hends'
        obtain ⟨hne, hall⟩ := candidates_of_le hge hk.succ
        exact ⟨hne, fun r hr m hm => ⟨k, hall r hr m hm⟩⟩
    obtain ⟨r, s₁, -, hpick, hpicked⟩ := exists_pick hcandidates.1 hcandidates.2 s
    exact ⟨r, s₁, hpick, hpicked⟩
  · intro hno
    rw [pick, candidates_eq_nil hno]
    rfl

/-! ### Success -/

/-- The expansions are never interrupted. -/
def State.Patient (s : State) : Prop := s.checkpoint.deadline = .never

theorem State.Patient.tick (h : s.Patient) :
    s.checkpoint.tick.1 = false ∧ s.checkpoint.tick.2.deadline = .never := by
  rw [Checkpoint.tick, h]
  exact ⟨Bool.and_false _, rfl⟩

/-- A tree of `n` was derived, with at most `k` nonterminals on a branch. -/
def Succeeds (g : Grammar) (n : String) (k : Nat) (s : State) (result : Except Error NodeId × State) : Prop :=
  ∃ id s' r, result = (.ok id, s') ∧ s.arena.Extends s'.arena ∧ s'.Patient ∧ s'.arena.HoldsWithin g n r k id

/-- Trees of the symbols of a rule were derived. -/
def SucceedsAll (g : Grammar) (r : Rule) (k : Nat) (s : State) (result : Except Error (List NodeId) × State) :
    Prop :=
  ∃ ids s' ts, result = (.ok ids, s') ∧ s.arena.Extends s'.arena ∧ s'.Patient ∧ s'.arena.StoresAll ts ids ∧
    Tree.areDerivations g ts = true ∧ ts.map Tree.symbol = r ∧ ∀ t ∈ ts, t.WithinLevels k

/-- One more tree in front of those that were derived. -/
theorem SucceedsAll.prepend {t : Tree} {id : NodeId} {result : Except Error (List NodeId) × State}
    (hext : s.arena.Extends s₁.arena) (hstore : s₁.arena.Stores t id) (hder : t.isDerivation g = true)
    (ht : t.WithinLevels k) (h : SucceedsAll g r k s₁ result) :
    SucceedsAll g (t.symbol :: r) k s (Generator.prepend id result) := by
  obtain ⟨ids, s', ts, rfl, hext', hs', hstores, hders, hsyms, hts⟩ := h
  refine ⟨id :: ids, s', t :: ts, rfl, hext.trans hext', hs', ⟨id, ids, rfl, hstore.mono hext', hstores⟩, ?_, ?_, ?_⟩
  · exact Tree.areDerivations_cons_iff.mpr ⟨hder, hders⟩
  · rw [List.map_cons, hsyms]
  · exact List.forall_mem_cons.mpr ⟨ht, hts⟩

theorem expandRule_succeeds {f : String → State → Except Error NodeId × State}
    (hf : ∀ m, Symbol.nonterminal m ∈ r → ∀ s : State, s.Patient → Succeeds g m k s (f m s)) (hs : s.Patient) :
    SucceedsAll g r k s (expandRule f r s) := by
  induction r generalizing s with
  | nil => exact ⟨[], s, [], rfl, .refl _, hs, rfl, rfl, rfl, nofun⟩
  | cons x r ih =>
    have hrest := fun s hs => ih (fun m hm => hf m (List.mem_cons_of_mem x hm)) (s := s) hs
    cases x with
    | terminal text =>
      have hext := Arena.extends_alloc s.arena (.terminal text) []
      have hleaf := Arena.stores_leaf s.arena (.terminal text)
      have hder : (Tree.node (.terminal text) []).isDerivation g = true :=
        Tree.isDerivation_terminal_iff.mpr rfl
      have hlevels := Tree.withinLevels_terminal k text
      exact (hrest (s.alloc (.terminal text) []).2 hs).prepend hext hleaf hder hlevels
    | nonterminal m =>
      obtain ⟨id, s', r', heq, hext, hs', t, hstore, hder, hsym, -, hlevels⟩ := hf m List.mem_cons_self s hs
      rw [expandRule, heq, ← hsym]
      exact (hrest s' hs').prepend hext hstore hder hlevels

/-- Expanding by an alternative whose nonterminals succeed. -/
theorem expand_succeeds_of_picked {options : List (Rule × Height)} (hopt : gen.options.get? n = some options)
    (hs : s.Patient)
    (hpick : gen.pick n forced depth options { s with checkpoint := s.checkpoint.tick.2 } = (.ok r, s₁))
    (hpicked : Picked g n forced { s with checkpoint := s.checkpoint.tick.2 } s₁ r)
    (hr : ∀ m, Symbol.nonterminal m ∈ r → ∀ s : State, s.Patient →
      Succeeds g m k s (gen.expand bound m none (depth + 1) s)) :
    ∃ id s', gen.expand (bound + 1) n forced depth s = (.ok id, s') ∧ s.arena.Extends s'.arena ∧ s'.Patient ∧
      s'.arena.HoldsWithin g n r (k + 1) id := by
  obtain ⟨hgo, hnever⟩ := hs.tick
  have hs₁ : s₁.Patient := by
    rw [State.Patient, hpicked.checkpoint_eq]
    exact hnever
  obtain ⟨ids, s₂, ts, heq, hext, hs₂, hstores, hders, hsyms, hts⟩ := expandRule_succeeds hr hs₁
  refine ⟨(s₂.alloc (.nonterminal n) ids).1, (s₂.alloc (.nonterminal n) ids).2, ?_, ?_, hs₂, ?_⟩
  · rw [expand]
    simp only [hgo, Bool.false_eq_true, if_false, hopt, hpick, heq]
  · have hnode := Arena.extends_alloc s₂.arena (.nonterminal n) ids
    rw [hpicked.arena_eq] at hext
    exact hext.trans hnode
  · refine ⟨.node (.nonterminal n) ts, hstores.alloc _, ?_, rfl, hsyms, ?_⟩
    · exact Tree.isDerivation_nonterminal_iff.mpr ⟨hsyms ▸ hpicked.mem, hders⟩
    · exact Tree.withinLevels_nonterminal hts n

/-- With a bound that is enough, an expansion succeeds within it. -/
theorem expand_succeeds (hgen : IsFor g gen) (h : Suffices g gen bound depth n) (hs : s.Patient) :
    Succeeds g n bound s (gen.expand bound n none depth s) := by
  induction bound generalizing n depth s with
  | zero => exact absurd h.pos (Nat.lt_irrefl 0)
  | succ bound ih =>
    obtain ⟨hne, hall⟩ := h.candidates
    have hn : g.contains n = true := by
      rcases hget : g.get? n with - | rs
      · rw [candidates, Grammar.alternatives, hget] at hne
        simp at hne
      · rw [OrderedMap.contains, hget]
        rfl
    have hends : ∀ r ∈ gen.candidates depth ((g.alternatives n).map fun r => (r, heightOf g r)),
        ∀ m, Symbol.nonterminal m ∈ r → ∃ k, EndsWithin g k m := by
      intro r hr m hm
      rcases Nat.lt_or_ge (depth + 1) gen.maxDepth with hlt | hge
      · exact ((hall r hr m hm).shallow hlt).1
      · exact ⟨bound, (hall r hr m hm).deep hge⟩
    -- the alternative is one of the candidates, so that one less is enough for its nonterminals
    obtain ⟨r, s₁, hr, hpick, hpicked⟩ := exists_pick hne hends { s with checkpoint := s.checkpoint.tick.2 }
    obtain ⟨id, s', hexp, hext, hs', hholds⟩ := expand_succeeds_of_picked (hgen.options_of_contains hn) hs hpick
      hpicked fun m hm s hs => ih (hall r hr m hm) hs
    exact ⟨id, s', r, hexp, hext, hs', hholds⟩

/-! ### Larger bounds -/

theorem expandRule_congr {f f' : String → State → Except Error NodeId × State}
    (h : ∀ m, Symbol.nonterminal m ∈ r → ∀ s, f m s = f' m s) (s : State) : expandRule f r s = expandRule f' r s := by
  induction r generalizing s with
  | nil => rfl
  | cons x r ih =>
    have hrest := ih fun m hm => h m (List.mem_cons_of_mem x hm)
    cases x with
    | terminal text => simp only [expandRule, hrest]
    | nonterminal m => simp only [expandRule, h m List.mem_cons_self, hrest]

/-- A bound that is larger than one that is enough changes nothing. -/
theorem expand_eq_of_le (hgen : IsFor g gen) (h : Suffices g gen bound depth n) {bound' : Nat}
    (hle : bound ≤ bound') (s : State) : gen.expand bound' n none depth s = gen.expand bound n none depth s := by
  induction bound generalizing n depth s bound' with
  | zero => exact absurd h.pos (Nat.lt_irrefl 0)
  | succ bound ih =>
    obtain ⟨bound', rfl⟩ : ∃ b, bound' = b + 1 := ⟨bound' - 1, by omega⟩
    rw [expand, expand]
    rcases s.checkpoint.tick with ⟨stop, cp⟩
    rcases hopt : gen.options.get? n with - | options
    · rfl
    · obtain rfl := hgen.options_eq hopt
      obtain ⟨hne, hall⟩ := h.candidates
      obtain ⟨r, hr, s₁, hpick⟩ := pick_of_candidates_ne_nil (n := n) hne { s with checkpoint := cp }
      have hrule := expandRule_congr (fun m hm s => ih (hall r hr m hm) (Nat.le_of_succ_le_succ hle) s) s₁
      simp only [hpick, hrule]

/-! ### Derivations from a root -/

/-- The bound on the depth never stops a derivation: with any larger one it is the same. -/
def DepthSuffices (gen : Generator) (n : String) (forced : Option Nat) : Prop :=
  ∀ s bound, gen.depthBound ≤ bound →
    gen.expand bound n forced 0 s = gen.expand gen.depthBound n forced 0 s

/-- What the first choice of a derivation comes to, whatever state it starts in. -/
theorem pick_root (gen : Generator) (g : Grammar) (n : String) (forced : Option Nat) (s : State) :
    let options := (g.alternatives n).map fun r => (r, heightOf g r)
    (CanEnd g n forced → ∃ r s₁, gen.pick n forced 0 options s = (.ok r, s₁) ∧ Picked g n forced s s₁ r) ∧
      (¬CanEnd g n forced → gen.pick n forced 0 options s = (.error (.unproductive n), s)) := by
  cases forced with
  | none => exact pick_free s
  | some i =>
    obtain ⟨hok, herror⟩ := pick_forced gen g n 0 i s
    refine ⟨fun h => ?_, herror⟩
    obtain ⟨r, hpick, hpicked⟩ := hok h
    exact ⟨r, s, hpick, hpicked⟩

/-- All bounds behind the root that are enough give the same. -/
theorem expand_root_eq (hgen : IsFor g gen) (hn : g.contains n = true) {bound bound' : Nat}
    (hle : belowRoot g gen ≤ bound) (hle' : belowRoot g gen ≤ bound') (s : State) :
    gen.expand (bound + 1) n forced 0 s = gen.expand (bound' + 1) n forced 0 s := by
  rw [expand, expand]
  rcases s.checkpoint.tick with ⟨stop, cp⟩
  simp only [hgen.options_of_contains hn]
  obtain ⟨hok, herror⟩ := pick_root gen g n forced { s with checkpoint := cp }
  by_cases hends : CanEnd g n forced
  · obtain ⟨r, s₁, hpick, hpicked⟩ := hok hends
    have hbelow : ∀ m, Symbol.nonterminal m ∈ r → ∀ s,
        gen.expand bound m none (0 + 1) s = gen.expand bound' m none (0 + 1) s := by
      intro m hm s
      have hsuffices := suffices_belowRoot gen (hpicked.ends m hm)
      exact (expand_eq_of_le hgen hsuffices hle s).trans (expand_eq_of_le hgen hsuffices hle' s).symm
    have hrule := expandRule_congr hbelow s₁
    simp only [hpick, hrule]
  · simp only [herror hends]

theorem IsFor.depthBound_eq (h : IsFor g gen) : gen.depthBound = belowRoot g gen + 1 + 1 := by
  obtain ⟨maxDepth, seed, random, rfl⟩ := h
  show max maxDepth 1 + largestHeight g.heights + 1 = max maxDepth 1 - 1 + largestHeight g.heights + 1 + 1
  omega

theorem depthSuffices (hgen : IsFor g gen) (hn : g.contains n = true) (forced : Option Nat) :
    gen.DepthSuffices n forced := by
  intro s bound hle
  rw [hgen.depthBound_eq] at hle ⊢
  obtain ⟨bound, rfl⟩ : ∃ b, bound = b + 1 := ⟨bound - 1, by omega⟩
  exact expand_root_eq hgen hn (by omega) (Nat.le_succ _) s

theorem generate_of_not_canEnd (hgen : IsFor g gen) (hn : g.contains n = true) (arena : Arena)
    (h : ¬CanEnd g n forced) : gen.generate arena n forced .never = (.error (.unproductive n), arena, gen) := by
  have hs : State.Patient ⟨gen.random, arena, .start .never period⟩ := rfl
  obtain ⟨hgo, -⟩ := hs.tick
  have hexp : gen.expand gen.depthBound n forced 0 ⟨gen.random, arena, .start .never period⟩ =
      (.error (.unproductive n), ⟨gen.random, arena, (Checkpoint.start .never period).tick.2⟩) := by
    rw [hgen.depthBound_eq, expand]
    simp only [hgo, Bool.false_eq_true, if_false, hgen.options_of_contains hn, (pick_root gen g n forced _).2 h]
  rw [generate, hexp]

theorem generate_of_canEnd (hgen : IsFor g gen) (hn : g.contains n = true) (arena : Arena)
    (h : CanEnd g n forced) : ∃ id arena' gen' r, gen.generate arena n forced .never = (.ok id, arena', gen') ∧
      IsFor g gen' ∧ arena.Extends arena' ∧ (∀ i, forced = some i → (g.alternatives n)[i]? = some r) ∧
      arena'.HoldsWithin g n r (belowRoot g gen + 1) id := by
  have hs : State.Patient ⟨gen.random, arena, .start .never period⟩ := rfl
  obtain ⟨r, s₁, hpick, hpicked⟩ :=
    (pick_root gen g n forced ⟨gen.random, arena, (Checkpoint.start .never period).tick.2⟩).1 h
  obtain ⟨id, s', hexp, hext, -, hholds⟩ := expand_succeeds_of_picked (hgen.options_of_contains hn) hs hpick hpicked
    fun m hm s hs => expand_succeeds hgen (suffices_belowRoot gen (hpicked.ends m hm)) hs
  have hexp' : gen.expand gen.depthBound n forced 0 ⟨gen.random, arena, .start .never period⟩ = (.ok id, s') := by
    rw [hgen.depthBound_eq, expand_root_eq hgen hn (Nat.le_succ _) (Nat.le_refl (belowRoot g gen)), hexp]
  refine ⟨id, s'.arena, { gen with random := s'.random }, r, ?_, hgen.withRandom s'.random, hext,
    hpicked.forced_eq, hholds⟩
  rw [generate, hexp']

theorem IsFor.offers (h : IsFor g gen) : Offers g gen := by
  obtain ⟨maxDepth, seed, random, rfl⟩ := h
  exact offers_new g maxDepth seed

/-- Whatever is left of the time, an expansion for which an alternative is forced applies it at its root. -/
theorem expand_forced (hgen : IsFor g gen) {i : Nat} {id : NodeId} {s' : State}
    (h : gen.expand (bound + 1) n (some i) 0 s = (.ok id, s')) :
    ∃ t, s'.arena.Stores t id ∧ t.isDerivation g = true ∧ t.symbol = .nonterminal n ∧
      (g.alternatives n)[i]? = some t.rule := by
  rw [expand] at h
  rcases htick : s.checkpoint.tick with ⟨- | -, cp⟩
  · simp only [htick, Bool.false_eq_true, if_false] at h
    rcases hopt : gen.options.get? n with - | options
    · simp only [hopt] at h
      cases h
    · obtain rfl := hgen.options_eq hopt
      obtain ⟨hok, herror⟩ := pick_root gen g n (some i) { s with checkpoint := cp }
      by_cases hends : CanEnd g n (some i)
      · obtain ⟨r, s₁, hpick, hpicked⟩ := hok hends
        have hrule := expandRule_spec (fun m s => expand_spec hgen.offers bound m none 1 s) r s₁
        simp only [hopt, hpick, Nat.zero_add] at h
        rcases hr : expandRule (fun m s => gen.expand bound m none 1 s) r s₁ with ⟨e | ids, s₂⟩
        · rw [hr] at h
          cases h
        · rw [hr] at h hrule
          obtain ⟨ts, hstores, hder, rfl⟩ := hrule.2 ids rfl
          cases h
          refine ⟨.node (.nonterminal n) ts, hstores.alloc _, ?_, rfl, hpicked.forced_eq i rfl⟩
          exact Tree.isDerivation_nonterminal_iff.mpr ⟨hpicked.mem, hder⟩
      · simp only [hopt, herror hends] at h
        cases h
  · -- an expansion that is stopped gives no tree
    rw [htick] at h
    cases h

theorem generate_forced (hgen : IsFor g gen) {arena arena' : Arena} {gen' : Generator} {i : Nat}
    {deadline : Deadline} {id : NodeId} (h : gen.generate arena n (some i) deadline = (.ok id, arena', gen')) :
    ∃ t, arena'.Stores t id ∧ t.isDerivation g = true ∧ t.symbol = .nonterminal n ∧
      (g.alternatives n)[i]? = some t.rule := by
  rw [generate, hgen.depthBound_eq] at h
  rcases hexp : gen.expand (belowRoot g gen + 1 + 1) n (some i) 0 ⟨gen.random, arena, .start deadline period⟩ with
    ⟨result, s'⟩
  rw [hexp] at h
  cases h
  exact expand_forced hgen hexp

/-- **A derivation succeeds exactly where there is a string to derive, within a known depth.**  At any point of the
random stream, a derivation from a defined nonterminal fails exactly if the nonterminal, or its forced alternative,
derives no string; it then complains of that nonterminal and leaves everything as it was.  Otherwise it gives a
derivation tree, at its root by the forced alternative, with no more nonterminals on a branch than the depth up to
which alternatives are free and the largest cost.  The bound on the recursion never stops it. -/
theorem generate_succeeds_exactly (hgen : IsFor g gen) (hn : g.contains n = true) (arena : Arena)
    (forced : Option Nat) : gen.DepthSuffices n forced ∧
      (CanEnd g n forced → ∃ id arena' gen' r, gen.generate arena n forced .never = (.ok id, arena', gen') ∧
        IsFor g gen' ∧ arena.Extends arena' ∧ (∀ i, forced = some i → (g.alternatives n)[i]? = some r) ∧
        ∀ C, (∀ m c, gen.cost m = some c → c ≤ C) →
          arena'.HoldsWithin g n r (max gen.maxDepth 1 + C) id) ∧
      (¬CanEnd g n forced → gen.generate arena n forced .never = (.error (.unproductive n), arena, gen)) := by
  refine ⟨depthSuffices hgen hn forced, fun h => ?_, generate_of_not_canEnd hgen hn arena⟩
  obtain ⟨id, arena', gen', r, heq, hgen', hext, hforced, t, hstore, hder, hsym, hrule, hlevels⟩ :=
    generate_of_canEnd hgen hn arena h
  refine ⟨id, arena', gen', r, heq, hgen', hext, hforced, fun C hC => ⟨t, hstore, hder, hsym, hrule, ?_⟩⟩
  have hlargest := hgen.largestHeight_le hC
  exact hlevels.mono (by rw [belowRoot]; omega)

/-- Nested parentheses, with an alternative that never ends. -/
def parentheses : Grammar :=
  .ofList
    [(startName, [[.terminal "(", .nonterminal startName, .terminal ")"], [.terminal "x"], [.nonterminal "<loop>"]]),
     ("<loop>", [[.nonterminal "<loop>"]])]

/-- From the start symbol of the grammar of parentheses a tree is derived, unless the alternative that never ends
is forced. -/
theorem generate_parentheses : IsFor parentheses (new parentheses 4 7) ∧ parentheses.contains startName = true ∧
    (CanEnd parentheses startName none ∧ ∃ id arena' gen' r,
      (new parentheses 4 7).generate ∅ startName none .never = (.ok id, arena', gen') ∧
        arena'.HoldsWithin parentheses startName r (4 + 1) id) ∧
    ¬CanEnd parentheses startName (some 2) ∧ (new parentheses 4 7).generate ∅ startName (some 2) .never =
      (.error (.unproductive startName), ∅, new parentheses 4 7) := by
  have hgen := isFor_new parentheses 4 7
  have hstart : parentheses.contains startName = true := by decide
  have hends : CanEnd parentheses startName none := ⟨_, [.terminal "x"], by decide, .terminal .nil⟩
  have hloop : ¬CanEnd parentheses startName (some 2) := by
    rintro ⟨r, hr, hw⟩
    obtain rfl : r = [.nonterminal "<loop>"] := (Option.some.inj hr).symm
    obtain ⟨a, ha⟩ := exists_heightOf_iff.mpr hw
    have hnone : heightOf parentheses [.nonterminal "<loop>"] = none := by decide
    rw [hnone] at ha
    cases ha
  have hcost : ∀ m c, (new parentheses 4 7).cost m = some c → c ≤ 1 := by
    intro m c hc
    by_cases hm : m ∈ [startName, "<loop>"]
    · have hall : ∀ m ∈ [startName, "<loop>"], ∀ c ∈ (new parentheses 4 7).cost m, c ≤ 1 := by decide +kernel
      exact hall m hm c hc
    · have hundefined : parentheses.get? m = none := by
        rw [← Option.not_isSome_iff_eq_none]
        exact fun h => hm (OrderedMap.contains_iff_mem_keys.mp h)
      rw [cost, hgen.get?_options, hundefined] at hc
      cases hc
  obtain ⟨id, arena', gen', r, heq, -, -, -, hholds⟩ := (generate_succeeds_exactly hgen hstart ∅ none).2.1 hends
  exact ⟨hgen, hstart, ⟨hends, id, arena', gen', r, heq, hholds 1 hcost⟩, hloop,
    (generate_succeeds_exactly hgen hstart ∅ (some 2)).2.2 hloop⟩

end Generator

end GrammarInference
