/-
GrammarInference/Proofs/Deadline/Effect.lean

A deadline decides whether there is a result, and not which one.

Design.  A derivation takes one step for each nonterminal of its tree: a nonterminal is expanded once, and then its
node is added.  So the number of steps is read off the tree that comes out without a deadline
(`Generator.countsTree_expand`), and under a deadline that has passed the same draws are made up to the first look.
With what is known of charts and searches, this settles for each of the three long operations when it is broken off;
and whatever becomes of them, they only add nodes to the arena.
-/
import GrammarInference.Proofs.Deadline.Parsing
import GrammarInference.Proofs.Derivation.Depth
import GrammarInference.Proofs.Tree.History

namespace GrammarInference

open Checkpoint (lasts_add_iff tick_eq lasts_of_never)

/-! ### Nonterminals of a tree -/

namespace Tree

mutual

/-- The number of nodes with a nonterminal. -/
def nonterminals : Tree → Nat
  | .node (.terminal _) ts => nonterminalsAll ts
  | .node (.nonterminal _) ts => nonterminalsAll ts + 1

/-- The same for a list of trees. -/
def nonterminalsAll : List Tree → Nat
  | [] => 0
  | t :: ts => t.nonterminals + nonterminalsAll ts

end

/-- A tree has its root and the nonterminals of its rule at least. -/
theorem countP_rule_lt_nonterminals {t : Tree} {n : String} (h : t.symbol = .nonterminal n) :
    t.rule.countP (fun s => !s.isTerminal) < t.nonterminals := by
  have hall : ∀ ts : List Tree, (ts.map symbol).countP (fun s => !s.isTerminal) ≤ nonterminalsAll ts := by
    intro ts
    induction ts with
    | nil => exact Nat.le_refl 0
    | cons u ts ih =>
      obtain ⟨s, us⟩ := u
      rw [List.map_cons, nonterminalsAll]
      cases s with
      | terminal text =>
        rw [List.countP_cons_of_neg (by exact Bool.false_ne_true)]
        omega
      | nonterminal m =>
        rw [List.countP_cons_of_pos (by rfl), nonterminals]
        omega
  obtain ⟨s, ts⟩ := t
  obtain rfl : s = .nonterminal n := h
  exact Nat.lt_succ_of_le (hall ts)

end Tree

namespace Generator

variable {g : Grammar} {gen : Generator} {n : String} {forced : Option Nat} {s s' : State} {d : Deadline}

/-! ### Derivations -/

/-- The same state under another deadline. -/
def State.under (s : State) (d : Deadline) : State := { s with checkpoint := { s.checkpoint with deadline := d } }

/-- A result that is had without a deadline is had after `count` steps: under any deadline for which these last it is
the same, and under any other the operation is broken off. -/
structure Counted {α : Type} (f : State → Except Error α × State) (s : State) (a : α) (s' : State) (count : Nat) :
    Prop where
  /-- The steps are counted, and there is no deadline. -/
  checkpoint_eq : s'.checkpoint = (s.under .never).checkpoint.later count
  /-- The nodes that were there are there. -/
  kept : s.arena.Extends s'.arena
  /-- If the steps last, the result is the same. -/
  same : ∀ d, (s.under d).checkpoint.Lasts count → f (s.under d) = (.ok a, s'.under d)
  /-- If they do not, there is none. -/
  stopped : ∀ d, ¬(s.under d).checkpoint.Lasts count → (f (s.under d)).1 = .error .interrupted

namespace Counted

variable {α : Type} {f : State → Except Error α × State} {a : α} {count : Nat}

theorem under_never (h : Counted f s a s' count) : s'.under .never = s' := by
  rw [State.under, h.checkpoint_eq]
  show State.mk s'.random s'.arena ((s.under .never).checkpoint.later count) = s'
  rw [← h.checkpoint_eq]

theorem checkpoint_under (h : Counted f s a s' count) (d : Deadline) :
    (s'.under d).checkpoint = (s.under d).checkpoint.later count := by
  show { s'.checkpoint with deadline := d } = _
  rw [h.checkpoint_eq]
  rfl

end Counted

/-- Every derivation that succeeds without a deadline takes as many steps as its tree has nonterminals. -/
def CountsTree (f : State → Except Error NodeId × State) : Prop :=
  ∀ s id s', f (s.under .never) = (.ok id, s') →
    ∃ t, s'.arena.Stores t id ∧ Counted f s id s' t.nonterminals

theorem prepend_eq_ok (id : NodeId) (r : Except Error (List NodeId) × State) {ids : List NodeId}
    (h : prepend id r = (.ok ids, s')) : ∃ rest, r = (.ok rest, s') ∧ ids = id :: rest := by
  obtain ⟨e | rest, s''⟩ := r
  · cases h
  · cases h
    exact ⟨rest, rfl, rfl⟩

theorem prepend_stopped (id : NodeId) {r : Except Error (List NodeId) × State} {e : Error} (h : r.1 = .error e) :
    (prepend id r).1 = .error e := by
  obtain ⟨e' | rest, s''⟩ := r
  · cases h
    rfl
  · cases h

/-- The trees of a rule are derived one after the other. -/
theorem counted_expandRule {f : String → State → Except Error NodeId × State} (hf : ∀ m, CountsTree (f m)) (r : Rule) :
    ∀ s ids s', expandRule f r (s.under .never) = (.ok ids, s') →
      ∃ ts, s'.arena.StoresAll ts ids ∧ Counted (expandRule f r) s ids s' (Tree.nonterminalsAll ts) := by
  induction r with
  | nil =>
    intro s ids s' h
    cases h
    exact ⟨[], rfl, rfl, .refl _, fun _ _ => rfl, fun d h => absurd (Checkpoint.lasts_zero _) h⟩
  | cons x r ih =>
    intro s ids s' h
    cases x with
    | terminal text =>
      obtain ⟨rest, hrest, rfl⟩ := prepend_eq_ok (s.alloc (.terminal text) []).1
        (expandRule f r ((s.alloc (.terminal text) []).2.under .never)) h
      obtain ⟨ts, hstores, hcounted⟩ := ih _ _ _ hrest
      have hleaf := Arena.stores_leaf s.arena (.terminal text)
      have hcount : Tree.nonterminalsAll (.node (.terminal text) [] :: ts) = Tree.nonterminalsAll ts := by
        rw [Tree.nonterminalsAll, Tree.nonterminals, Tree.nonterminalsAll, Nat.zero_add]
      refine ⟨.node (.terminal text) [] :: ts, ⟨_, rest, rfl, hleaf.mono hcounted.kept, hstores⟩, ?_⟩
      rw [hcount]
      refine ⟨hcounted.checkpoint_eq, (Arena.extends_alloc _ _ _).trans hcounted.kept, fun d hd => ?_, fun d hd => ?_⟩
      · exact congrArg (prepend (s.alloc (.terminal text) []).1) (hcounted.same d hd)
      · exact prepend_stopped (s.alloc (.terminal text) []).1 (hcounted.stopped d hd)
    | nonterminal m =>
      rw [expandRule] at h
      rcases hm : f m (s.under .never) with ⟨e | id, s₁⟩
      · rw [hm] at h
        cases h
      · rw [hm] at h
        obtain ⟨t, hstore, hfirst⟩ := hf m s id s₁ hm
        obtain ⟨rest, hrest, rfl⟩ := prepend_eq_ok id (expandRule f r s₁) h
        rw [← hfirst.under_never] at hrest
        obtain ⟨ts, hstores, hothers⟩ := ih _ _ _ hrest
        refine ⟨t :: ts, ⟨id, rest, rfl, hstore.mono hothers.kept, hstores⟩, ?_, hfirst.kept.trans hothers.kept, ?_, ?_⟩
        · rw [hothers.checkpoint_eq, hfirst.checkpoint_under, Checkpoint.later_later, Tree.nonterminalsAll]
        · intro d hd
          rw [Tree.nonterminalsAll, lasts_add_iff, ← hfirst.checkpoint_under] at hd
          rw [expandRule, hfirst.same d hd.1]
          exact congrArg (prepend id) (hothers.same d hd.2)
        · intro d hd
          rw [Tree.nonterminalsAll, lasts_add_iff, ← hfirst.checkpoint_under] at hd
          rw [expandRule]
          by_cases hone : (s.under d).checkpoint.Lasts t.nonterminals
          · rw [hfirst.same d hone]
            exact prepend_stopped id (hothers.stopped d fun hrest => hd ⟨hone, hrest⟩)
          · have hstop := hfirst.stopped d hone
            rcases hrun : f m (s.under d) with ⟨e | id', s₂⟩
            · rw [hrun] at hstop
              cases hstop
              rfl
            · rw [hrun] at hstop
              cases hstop

/-- What is picked does not depend on the count of steps. -/
theorem pick_under (gen : Generator) (n : String) (forced : Option Nat) (depth : Nat) (options : List (Rule × Height))
    (s : State) : (gen.pick n forced depth options s).2.checkpoint = s.checkpoint ∧
      ∀ d, gen.pick n forced depth options (s.under d) =
        ((gen.pick n forced depth options s).1, (gen.pick n forced depth options s).2.under d) := by
  cases forced with
  | some i =>
    simp only [pick]
    rcases options[i]? with - | ⟨r, - | h⟩ <;> exact ⟨rfl, fun d => rfl⟩
  | none =>
    have hrandom : ∀ d, (s.under d).random = s.random := fun d => rfl
    simp only [pick, hrandom]
    rcases s.random.choose (gen.candidates depth options) with ⟨- | r, random⟩ <;> exact ⟨rfl, fun d => rfl⟩

/-- Puts a node of `n` over what was derived for an alternative. -/
def putOver (n : String) : Except Error (List NodeId) × State → Except Error NodeId × State
  | (.error e, s) => (.error e, s)
  | (.ok ids, s) => (.ok (s.alloc (.nonterminal n) ids).1, (s.alloc (.nonterminal n) ids).2)

theorem putOver_eq_ok {r : Except Error (List NodeId) × State} {id : NodeId} (h : putOver n r = (.ok id, s')) :
    ∃ ids s₁, r = (.ok ids, s₁) ∧ (s₁.alloc (.nonterminal n) ids).1 = id ∧ (s₁.alloc (.nonterminal n) ids).2 = s' := by
  obtain ⟨e | ids, s₁⟩ := r
  · cases h
  · cases h
    exact ⟨ids, s₁, rfl, rfl, rfl⟩

theorem putOver_stopped {r : Except Error (List NodeId) × State} {e : Error} (h : r.1 = .error e) :
    (putOver n r).1 = .error e := by
  obtain ⟨e' | ids, s₁⟩ := r
  · cases h
    rfl
  · cases h

/-- What an expansion does once its step is counted. -/
def expandCounted (gen : Generator) (bound : Nat) (n : String) (forced : Option Nat) (depth : Nat) (s : State) :
    Except Error NodeId × State :=
  match gen.options.get? n with
  | none => (.error (.undefinedNonterminal n), s)
  | some options =>
    match gen.pick n forced depth options s with
    | (.error e, s) => (.error e, s)
    | (.ok r, s) => putOver n (expandRule (fun m s => gen.expand bound m none (depth + 1) s) r s)

/-- The same state, one step later. -/
def State.counted (s : State) : State := { s with checkpoint := s.checkpoint.later 1 }

theorem expand_succ (gen : Generator) (bound : Nat) (n : String) (forced : Option Nat) (depth : Nat) (s : State) :
    gen.expand (bound + 1) n forced depth s =
      if s.checkpoint.Lasts 1 then gen.expandCounted bound n forced depth s.counted
      else (.error .interrupted, s.counted) := by
  rw [expand, tick_eq]
  by_cases hone : s.checkpoint.Lasts 1
  · simp only [hone, decide_true, Bool.not_true, Bool.false_eq_true, if_false, if_true]
    rfl
  · simp only [hone, decide_false, Bool.not_false, if_true, if_false]
    rfl

/-- An expansion that succeeds without a deadline derives the same alternative under every deadline. -/
theorem expandCounted_under {bound depth : Nat} {id : NodeId}
    (h : gen.expandCounted bound n forced depth (s.under .never).counted = (.ok id, s')) :
    ∃ (r : Rule) (s₁ : State), s₁.arena = s.arena ∧ s₁.checkpoint = s.checkpoint.later 1 ∧
      ∀ d, gen.expandCounted bound n forced depth (s.under d).counted =
        putOver n (expandRule (fun m s => gen.expand bound m none (depth + 1) s) r (s₁.under d)) := by
  rcases hoptions : gen.options.get? n with - | options
  · simp only [expandCounted, hoptions] at h
    cases h
  · obtain ⟨hcheckpoint, hpick⟩ := gen.pick_under n forced depth options s.counted
    have harena := (gen.pick_spec n forced depth options s.counted).1
    have hunder : ∀ d, gen.pick n forced depth options (s.under d).counted = _ := fun d => hpick d
    simp only [expandCounted, hoptions, hunder] at h ⊢
    rcases hpicked : gen.pick n forced depth options s.counted with ⟨e | r, s₁⟩
    · simp only [hpicked] at h
      cases h
    · rw [hpicked] at hcheckpoint harena
      exact ⟨r, s₁, harena, hcheckpoint, fun d => rfl⟩

/-- An expansion takes one step for each nonterminal of its tree. -/
theorem countsTree_expand (gen : Generator) (bound : Nat) (n : String) (forced : Option Nat) (depth : Nat) :
    CountsTree (gen.expand bound n forced depth) := by
  induction bound generalizing n forced depth with
  | zero =>
    intro s id s' h
    cases h
  | succ bound ih =>
    intro s id s' h
    rw [expand_succ, if_pos (lasts_of_never rfl 1)] at h
    obtain ⟨r, s₁, harena, hcheckpoint, hsame⟩ := expandCounted_under h
    rw [hsame] at h
    obtain ⟨ids, s₂, hrule, rfl, rfl⟩ := putOver_eq_ok h
    obtain ⟨ts, hstores, hcounted⟩ := counted_expandRule (fun m => ih m none (depth + 1)) r s₁ ids s₂ hrule
    -- one step for the expansion itself, and then those of its alternative
    have hsteps : ∀ d, (s₁.under d).checkpoint = (s.under d).checkpoint.later 1 := fun d => by
      show { s₁.checkpoint with deadline := d } = _
      rw [hcheckpoint]
      rfl
    have hcount : (Tree.node (.nonterminal n) ts).nonterminals = 1 + Tree.nonterminalsAll ts := by
      rw [Tree.nonterminals, Nat.add_comm]
    have hkept : s.arena.Extends s₂.arena := by
      have hkept := hcounted.kept
      rwa [harena] at hkept
    refine ⟨.node (.nonterminal n) ts, hstores.alloc _, ?_⟩
    rw [hcount]
    refine ⟨?_, hkept.trans (Arena.extends_alloc _ _ _), fun d hd => ?_, fun d hd => ?_⟩
    · show s₂.checkpoint = _
      rw [hcounted.checkpoint_eq, hsteps, Checkpoint.later_later]
    · rw [lasts_add_iff, ← hsteps] at hd
      rw [expand_succ, if_pos hd.1, hsame, hcounted.same d hd.2]
      rfl
    · rw [lasts_add_iff, ← hsteps] at hd
      rw [expand_succ]
      by_cases hone : (s.under d).checkpoint.Lasts 1
      · rw [if_pos hone, hsame]
        exact putOver_stopped (hcounted.stopped d fun hts => hd ⟨hone, hts⟩)
      · rw [if_neg hone]

/-- Under a deadline that has passed, a derivation that succeeds without one is broken off exactly if its tree has as
many nonterminals as there are steps to the first look, and else it gives the same tree at the same address. -/
theorem generate_of_hasPassed {arena arena' : Arena} {gen' : Generator} {id : NodeId} (hd : d.hasPassed = true)
    (h : gen.generate arena n forced .never = (.ok id, arena', gen')) :
    if period ≤ (arena'.treeAt id).nonterminals then
      (gen.generate arena n forced d).1 = .error .interrupted
    else gen.generate arena n forced d = (.ok id, arena', gen') := by
  rw [generate] at h
  rcases hrun : gen.expand gen.depthBound n forced 0 ⟨gen.random, arena, .start .never period⟩ with ⟨result, s'⟩
  rw [hrun] at h
  cases h
  obtain ⟨t, hstore, hcounted⟩ := countsTree_expand gen gen.depthBound n forced 0
    ⟨gen.random, arena, .start .never period⟩ id s' hrun
  have hlasts : (Checkpoint.start d period).Lasts t.nonterminals ↔ t.nonterminals < period :=
    Checkpoint.lasts_start_iff hd (by decide)
  rw [hstore.treeAt_eq]
  by_cases hle : period ≤ t.nonterminals
  · rw [if_pos hle]
    exact hcounted.stopped d fun hlong => absurd (hlasts.mp hlong) (Nat.not_lt_of_le hle)
  · have hsame : gen.expand gen.depthBound n forced 0 ⟨gen.random, arena, .start d period⟩ = _ :=
      hcounted.same d (hlasts.mpr (Nat.lt_of_not_le hle))
    rw [if_neg hle, generate, hsame]
    rfl

end Generator

/-! ### A wide grammar -/

/-- `k` alternatives of 255 nonterminals or more. -/
@[irreducible] def longRules (k : Nat) : List Rule :=
  (List.range k).map fun i => List.replicate (255 + i) (.nonterminal "<x>")

section Wide

variable {k : Nat}

theorem mem_longRules {r : Rule} :
    r ∈ longRules k ↔ ∃ i, i < k ∧ List.replicate (255 + i) (.nonterminal "<x>") = r := by
  simp only [longRules, List.mem_map, List.mem_range]

theorem length_longRules (k : Nat) : (longRules k).length = k := by
  rw [longRules, List.length_map, List.length_range]

theorem nodup_longRules (k : Nat) : (longRules k).Nodup := by
  rw [longRules]
  refine List.Nodup.map (fun i j heq => ?_) List.nodup_range
  have hlength := congrArg List.length heq
  simp only [List.length_replicate] at hlength
  omega

/-- The grammar with these alternatives. -/
def wide (k : Nat) : Grammar := .ofList [(startName, longRules k), ("<x>", [[.terminal "x"]])]

theorem alternatives_wide (k : Nat) : (wide k).alternatives startName = longRules k := rfl

/-- A chart for the wide grammar begins with an item for each of the alternatives. -/
theorem le_itemCount_wide (k : Nat) (input : String) :
    k ≤ Earley.itemCount (.ofGrammar (wide k)) startName input := by
  have hle := Earley.length_alternatives_le_itemCount (wide k) startName input (nodup_longRules k)
  rwa [alternatives_wide, length_longRules] at hle

theorem canEnd_wide (hk : 0 < k) : Generator.CanEnd (wide k) startName none := by
  have hx : [.terminal "x"] ∈ (wide k).alternatives "<x>" := List.mem_singleton.mpr rfl
  have hderives : ∀ l, ∃ w, (wide k).Derives (List.replicate l (.nonterminal "<x>")) w := by
    intro l
    induction l with
    | zero => exact ⟨_, .nil⟩
    | succ l ih =>
      obtain ⟨w, hw⟩ := ih
      exact ⟨_, .nonterminal hx (.terminal .nil) hw⟩
  obtain ⟨w, hw⟩ := hderives (255 + 0)
  exact ⟨w, _, mem_longRules.mpr ⟨0, hk, rfl⟩, hw⟩

/-- A tree by one of the long alternatives has its root and their nonterminals. -/
theorem le_nonterminals_wide {t : Tree} (ht : t.isDerivation (wide k) = true)
    (hsym : t.symbol = .nonterminal startName) : 256 ≤ t.nonterminals := by
  have hlt := Tree.countP_rule_lt_nonterminals hsym
  obtain ⟨s, ts⟩ := t
  obtain rfl : s = .nonterminal startName := hsym
  obtain ⟨hrule, -⟩ := Tree.isDerivation_nonterminal_iff.mp ht
  obtain ⟨i, -, hi⟩ := mem_longRules.mp hrule
  have hcount : (Tree.node (.nonterminal startName) ts).rule.countP (fun s => !s.isTerminal) = 255 + i := by
    show (ts.map Tree.symbol).countP _ = 255 + i
    rw [← hi, List.countP_replicate]
    rfl
  omega

end Wide

/-! ### The three operations -/

open Generator (parentheses)

theorem Earley.parseFrom_never_ne_timeout (g : Grammar) (arena : Arena) (start input : String) :
    (parseFrom (.ofGrammar g) arena start input .never).1 ≠ .timeout := by
  by_cases hlang : Grammar.InLanguage g start input.toList
  · obtain ⟨root, arena', hparse, -⟩ := parseFrom_of_inLanguage hlang arena
    rw [hparse]
    exact nofun
  · rw [parseFrom_of_not_inLanguage hlang arena]
    exact nofun

theorem Generator.contains_of_canEnd {g : Grammar} {n : String} {forced : Option Nat} (h : CanEnd g n forced) :
    g.contains n = true := by
  rw [OrderedMap.contains]
  rcases hget : g.get? n with - | rs
  · -- a nonterminal without alternatives does not end
    have hnone : g.alternatives n = [] := by rw [Grammar.alternatives, hget, Option.getD_none]
    cases forced with
    | none =>
      obtain ⟨w, r, hr, -⟩ := h
      rw [hnone] at hr
      exact absurd hr List.not_mem_nil
    | some i =>
      obtain ⟨r, hr, -⟩ := h
      rw [hnone] at hr
      cases hr
  · rfl

/-- **A deadline changes whether there is a result, not what it is.**  Under a deadline that has passed, recognition
times out exactly if the complete chart has at least 1024 items, parsing exactly if that holds or the search for a
tree asks for at least 1024 fits, and a derivation from a nonterminal that can end is interrupted exactly if the tree
that it gives without a deadline has at least 256 nonterminals.  Otherwise each of them comes to what it comes to
without a deadline, with the same tree at the same address.  In every case the nodes that were there are kept. -/
theorem deadline_only_breaks_off (g : Grammar) (arena : Arena) (start input : String) {d : Deadline}
    (hd : d.hasPassed = true) :
    (if 1024 ≤ Earley.itemCount (.ofGrammar g) start input then
        Earley.recognizeFrom (.ofGrammar g) start input d = .timeout
      else
        Earley.recognizeFrom (.ofGrammar g) start input d = Earley.recognizeFrom (.ofGrammar g) start input .never ∧
          Earley.recognizeFrom (.ofGrammar g) start input d ≠ .timeout) ∧
    (if 1024 ≤ Earley.itemCount (.ofGrammar g) start input ∨
          1024 ≤ Earley.fitCount (.ofGrammar g) arena start input then
        (Earley.parseFrom (.ofGrammar g) arena start input d).1 = .timeout
      else
        Earley.parseFrom (.ofGrammar g) arena start input d =
            Earley.parseFrom (.ofGrammar g) arena start input .never ∧
          (Earley.parseFrom (.ofGrammar g) arena start input d).1 ≠ .timeout) ∧
    arena.Extends (Earley.parseFrom (.ofGrammar g) arena start input d).2 ∧
    ∀ (gen : Generator) (n : String) (forced : Option Nat), gen.IsFor g → Generator.CanEnd g n forced →
      (∃ id arena' gen', gen.generate arena n forced .never = (.ok id, arena', gen') ∧
        if 256 ≤ (arena'.treeAt id).nonterminals then
          (gen.generate arena n forced d).1 = .error .interrupted
        else gen.generate arena n forced d = (.ok id, arena', gen')) ∧
      arena.Extends (gen.generate arena n forced d).2.1 := by
  refine ⟨?_, ?_, (Earley.allocates_parseFrom _ arena start input d).keeps, ?_⟩
  · rw [Earley.recognizeFrom_of_hasPassed g start input hd]
    by_cases hle : 1024 ≤ Earley.itemCount (.ofGrammar g) start input
    · rw [if_pos hle]
      exact if_pos hle
    · rw [if_neg hle, if_neg (show ¬Earley.Chart.period ≤ _ from hle)]
      obtain ⟨c, -, -, hrec⟩ := Earley.recognizeFrom_never g start input
      refine ⟨rfl, ?_⟩
      rw [hrec]
      split <;> exact nofun
  · have hparse := Earley.parseFrom_of_hasPassed g arena start input hd
    by_cases hle : 1024 ≤ Earley.itemCount (.ofGrammar g) start input ∨
        1024 ≤ Earley.fitCount (.ofGrammar g) arena start input
    · rw [if_pos (show Earley.Chart.period ≤ _ ∨ Earley.Search.period ≤ _ from hle)] at hparse
      rw [if_pos hle]
      exact hparse
    · rw [if_neg (show ¬(Earley.Chart.period ≤ _ ∨ Earley.Search.period ≤ _) from hle)] at hparse
      rw [if_neg hle, hparse]
      exact ⟨rfl, Earley.parseFrom_never_ne_timeout g arena start input⟩
  · intro gen n forced hgen hends
    have hn := Generator.contains_of_canEnd hends
    obtain ⟨id, arena', gen', r, heq, -⟩ := Generator.generate_of_canEnd hgen hn arena hends
    exact ⟨⟨id, arena', gen', heq, Generator.generate_of_hasPassed hd heq⟩,
      (gen.allocates_generate arena n forced d).keeps⟩

/-- For a pair of parentheses nothing lasts long enough for a look at the deadline; in the wide grammar everything
does. -/
theorem deadline_parentheses :
    Deadline.expired.hasPassed = true ∧
      (Earley.recognizeFrom (.ofGrammar parentheses) startName "(x)" .expired = .accepted ∧
        (Earley.parseFrom (.ofGrammar parentheses) ∅ startName "(x)" .expired).1 ≠ .timeout ∧
        Generator.IsFor parentheses (.new parentheses 4 7) ∧ Generator.CanEnd parentheses startName none ∧
        ∃ id arena gen,
          (Generator.new parentheses 4 7).generate ∅ startName none .expired = (.ok id, arena, gen)) ∧
      Earley.recognizeFrom (.ofGrammar (wide 1024)) startName "x" .expired = .timeout ∧
      (Earley.parseFrom (.ofGrammar (wide 1024)) ∅ startName "x" .expired).1 = .timeout ∧
      Generator.IsFor (wide 1024) (.new (wide 1024) 4 7) ∧
      Generator.CanEnd (wide 1024) startName none ∧
      ((Generator.new (wide 1024) 4 7).generate ∅ startName none .expired).1 = .error .interrupted := by
  refine ⟨rfl, ?short, ?long⟩
  case short =>
    have hgen := Generator.isFor_new parentheses 4 7
    have hends : Generator.CanEnd parentheses startName none := ⟨_, [.terminal "x"], by decide, .terminal .nil⟩
    have hitems : ¬1024 ≤ Earley.itemCount (.ofGrammar parentheses) startName "(x)" := by decide +kernel
    have hfits : ¬1024 ≤ Earley.fitCount (.ofGrammar parentheses) ∅ startName "(x)" := by decide +kernel
    have hsmall : (((Generator.new parentheses 4 7).generate ∅ startName none .never).1.toOption.all fun id =>
        decide ((((Generator.new parentheses 4 7).generate ∅ startName none .never).2.1.treeAt id).nonterminals < 256)) =
          true := by decide +kernel
    have hx : [.terminal "x"] ∈ parentheses.alternatives startName := by decide
    have hlang : Grammar.InLanguage parentheses startName "(x)".toList :=
      ⟨[.terminal "(", .nonterminal startName, .terminal ")"], by decide,
        .terminal (.nonterminal hx (.terminal .nil) (.terminal .nil))⟩
    obtain ⟨hrecognize, hparse, -, hgenerate⟩ :=
      deadline_only_breaks_off parentheses ∅ startName "(x)" (d := .expired) rfl
    rw [if_neg hitems] at hrecognize
    rw [if_neg (not_or.mpr ⟨hitems, hfits⟩)] at hparse
    obtain ⟨⟨id, arena, gen, heq, hsame⟩, -⟩ := hgenerate _ startName none hgen hends
    rw [heq] at hsmall
    rw [if_neg (Nat.not_le.mpr (of_decide_eq_true hsmall))] at hsame
    exact ⟨hrecognize.1.trans (Earley.recognizeFrom_never_eq_accepted_iff.mpr hlang), hparse.2, hgen, hends,
      id, arena, gen, hsame⟩
  case long =>
    have hgen := Generator.isFor_new (wide 1024) 4 7
    have hends := canEnd_wide (k := 1024) (by decide)
    have hitems := le_itemCount_wide 1024 "x"
    obtain ⟨hrecognize, hparse, -, hgenerate⟩ :=
      deadline_only_breaks_off (wide 1024) ∅ startName "x" (d := .expired) rfl
    rw [if_pos hitems] at hrecognize
    rw [if_pos (.inl hitems)] at hparse
    obtain ⟨⟨id, arena, gen, heq, hstops⟩, -⟩ := hgenerate _ startName none hgen hends
    -- the tree that comes out without a deadline is one of a long alternative
    obtain ⟨id', arena', gen', r, heq', -, -, -, t, hstores, hder, hsym, -, -⟩ :=
      Generator.generate_of_canEnd hgen (Generator.contains_of_canEnd hends) ∅ hends
    rw [heq] at heq'
    cases heq'
    rw [hstores.treeAt_eq, if_pos (le_nonterminals_wide hder hsym)] at hstops
    exact ⟨hrecognize, hparse, hgen, hends, hstops⟩

end GrammarInference
