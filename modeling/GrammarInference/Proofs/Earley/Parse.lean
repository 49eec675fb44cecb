/-
GrammarInference/Proofs/Earley/Parse.lean

Parsing gives a derivation tree of every input that is recognized.

Design.  When the chart accepts, the question for a tree of the start nonterminal over the whole input is asked
with no other question open, so an answer `absent` would say that nothing derives the input without a
repetition; but every derivation can be made one without repetitions.  The fuel is the product of the bounds on
the two ways in which questions are nested, so more of it would change nothing (`DepthSuffices`).

    parseFrom (.ofGrammar g) arena start input .never = (.tree root, arena')
      ↔  the input is accepted, and then the tree at root is a derivation of it
-/
import GrammarInference.Proofs.Earley.Depth

namespace GrammarInference

namespace Earley

/-- The tree at the address is a derivation of the input from `start`. -/
structure IsParse (g : Grammar) (start input : String) (a : Arena) (root : NodeId) : Prop where
  /-- The root is the start nonterminal. -/
  symbol : a.symbol root = .nonterminal start
  /-- The symbols below every nonterminal are one of its alternatives. -/
  ruleAt_mem : ∀ path id n, a.nodeAt root path = some id → a.symbol id = .nonterminal n →
    a.ruleAt id ∈ g.alternatives n
  /-- The tree is a derivation tree. -/
  isDerivation : (a.treeAt root).isDerivation g = true
  /-- The tree derives the input. -/
  yieldString_eq : a.yieldString root = input

theorem Span.IsTree.isParse {g : Grammar} {start input : String} {a : Arena} {root : NodeId}
    (h : Span.IsTree g input.toList.toArray ⟨0, input.toList.toArray.size, start⟩ root a) :
    IsParse g start input a root := by
  obtain ⟨t, hstore, hder, hsym, hyield⟩ := h
  rw [segment_zero_size, List.toList_toArray] at hyield
  refine ⟨hstore.symbol_eq.trans hsym, fun path id n hid hn => hstore.ruleAt_mem hder hid hn, ?_, ?_⟩
  · rw [hstore.treeAt_eq]
    exact hder
  · rw [← String.toList_inj, hstore.toList_yieldString, hyield]

/-- The search for a tree as it begins when there is no deadline. -/
def Search.begun (arena : Arena) : Search := ⟨arena, [], ∅, 0, .start .never Search.period⟩

/-- The search begins ready, with one level for every question and one more. -/
theorem Search.ready_begun (g : Grammar) (input : Array Char) (arena : Arena) :
    Search.Ready g input ((questions g input).length + 1) (.begun arena) where
  deadline := rfl
  dead := by simp [begun]
  nodup := List.nodup_nil
  known := List.nil_subset _
  lt_left := by simp [begun]

/-- The depth bound is as large as the levels of questions need. -/
theorem Search.le_depthBound (g : Grammar) (input : Array Char) :
    ((questions g input).length + 1) * ((Table.ofGrammar g).dots + 2) ≤
      Search.depthBound (.ofGrammar g) input.size := by
  rw [Search.depthBound, length_questions]
  refine Nat.mul_le_mul_right _ (Nat.add_le_add ?_ (Nat.le_succ 1))
  exact Nat.mul_le_mul_right _ (Nat.le_succ _)

/-- A chart that accepts asks for a tree of the whole input. -/
theorem Chart.Finished.asked_start {g : Grammar} {input : Array Char} {start : String} {c : Chart}
    (h : Chart.Finished g input start c) (hlang : Grammar.InLanguage g start input.toList) :
    Span.Asked g input c ⟨0, input.size, start⟩ := by
  obtain ⟨body, hb, -⟩ := hlang
  obtain ⟨k, p, hp, hlhs, -⟩ := Table.exists_production hb
  exact ⟨Nat.zero_le _, Nat.le_refl _, h.started, k, p, hp, hlhs⟩

/-- The search for a tree of an accepted input gives the same with any bound on the depth that is no smaller. -/
def DepthSuffices (g : Grammar) (arena : Arena) (start : String) (input : Array Char) : Prop :=
  ∀ c bound, Chart.build (.ofGrammar g) input start .never = some c →
    c.accepts (.ofGrammar g) start input.size = true → Search.depthBound (.ofGrammar g) input.size ≤ bound →
    Search.derive (.ofChart g input c) bound ⟨0, input.size, start⟩ (.begun arena) =
      Search.derive (.ofChart g input c) (Search.depthBound (.ofGrammar g) input.size) ⟨0, input.size, start⟩
        (.begun arena)

theorem depthSuffices (g : Grammar) (arena : Arena) (start : String) (input : Array Char) :
    DepthSuffices g arena start input := by
  intro c bound hbuild haccepts hle
  obtain ⟨c', hbuild', hfin⟩ := Chart.build_never g input start
  obtain rfl : c' = c := Option.some.inj (hbuild'.symm.trans hbuild)
  have hasked := hfin.asked_start (hfin.accepts_iff.mp haccepts)
  exact Search.derive_eq_of_le hfin (Search.ready_begun g input arena) hasked (Search.le_depthBound g input) hle

/-- Without a deadline, an input that is derived gets a tree, and the nodes that were there are kept. -/
theorem parseFrom_of_inLanguage {g : Grammar} {start input : String}
    (hlang : Grammar.InLanguage g start input.toList) (arena : Arena) :
    ∃ root arena', parseFrom (.ofGrammar g) arena start input .never = (.tree root, arena') ∧
      arena.Extends arena' ∧
      Span.IsTree g input.toList.toArray ⟨0, input.toList.toArray.size, start⟩ root arena' := by
  obtain ⟨c, hbuild, hfin, -⟩ := recognizeFrom_never g start input
  have haccepts : c.accepts (.ofGrammar g) start input.toList.toArray.size = true := hfin.accepts_iff.mpr hlang
  -- an answer `absent` would contradict this, and no other failure is possible
  have hfree : Span.Free g input.toList.toArray [] ⟨0, input.toList.toArray.size, start⟩ := by
    refine Span.free_of_inLanguage (Nat.zero_le _) (Nat.le_refl _) ?_
    rw [segment_zero_size]
    exact hlang
  have hreply := (Search.derive_and_fit_reply hfin _).1 _ _ _ (Search.ready_begun g _ arena)
    (hfin.asked_start hlang) (Search.le_depthBound g _)
  rw [parseFrom, hbuild]
  simp only [haccepts, Bool.not_true, Bool.false_eq_true, if_false]
  change Search.Reply _ _ _ _ _ _ _ (Search.derive ⟨_, _, _⟩ _ _ _) at hreply
  rw [Search.begun] at hreply
  generalize Search.derive _ _ _ _ = r at hreply ⊢
  cases hreply with
  | found hleads hfound => exact ⟨_, _, rfl, hleads.arena, hfound⟩
  | absent _ hnot _ => exact absurd hfree hnot

/-- Without a deadline, an input that is not derived gets no tree, and no node is added. -/
theorem parseFrom_of_not_inLanguage {g : Grammar} {start input : String}
    (hlang : ¬ Grammar.InLanguage g start input.toList) (arena : Arena) :
    parseFrom (.ofGrammar g) arena start input .never = (.noParse, arena) := by
  obtain ⟨c, hbuild, hfin, -⟩ := recognizeFrom_never g start input
  have hrejects : c.accepts (.ofGrammar g) start input.toList.toArray.size = false :=
    Bool.eq_false_iff.mpr fun haccepts => hlang (hfin.accepts_iff.mp haccepts)
  rw [parseFrom, hbuild]
  simp only [hrejects, Bool.not_false, if_true]

/-- **Extraction is complete and sound.**  With a deadline that never comes, an accepted input gets a tree, which
is a derivation of it, and a rejected one gets none.  The nodes that were there are kept.  The bound on the depth
of the search never stops it. -/
theorem parseFrom_complete_and_sound (g : Grammar) (arena : Arena) (start input : String) :
    arena.Extends (parseFrom (.ofGrammar g) arena start input .never).2 ∧
      DepthSuffices g arena start input.toList.toArray ∧
      match (parseFrom (.ofGrammar g) arena start input .never).1 with
      | .tree root => recognizeFrom (.ofGrammar g) start input .never = .accepted ∧
          IsParse g start input (parseFrom (.ofGrammar g) arena start input .never).2 root
      | .noParse => recognizeFrom (.ofGrammar g) start input .never = .rejected
      | .timeout => False := by
  have hdepth := depthSuffices g arena start input.toList.toArray
  by_cases hlang : Grammar.InLanguage g start input.toList
  · obtain ⟨root, arena', hparse, hext, htree⟩ := parseFrom_of_inLanguage hlang arena
    rw [hparse]
    exact ⟨hext, hdepth, recognizeFrom_never_eq_accepted_iff.mpr hlang, htree.isParse⟩
  · rw [parseFrom_of_not_inLanguage hlang arena]
    refine ⟨.refl arena, hdepth, ?_⟩
    -- the recognizer has no third answer
    obtain ⟨c, -, hfin, hrec⟩ := recognizeFrom_never g start input
    rw [if_neg fun haccepts => hlang (hfin.accepts_iff.mp haccepts)] at hrec
    exact hrec

end Earley

end GrammarInference
