/-
GrammarInference/Proofs/Derivation/Generator.lean

Random derivations are derivations.

Design.  A generator `Offers` what a grammar has if its options are alternatives of that grammar; this does not
change while it is used.  Whatever is drawn, and wherever a derivation is broken off, the nodes of the arena are
kept, and a node that is returned holds a derivation tree of the nonterminal that was asked for
(`expand_spec`).  Nothing is said about how likely a tree is.
-/
import GrammarInference.Derivation.Generator
import GrammarInference.Proofs.Tree.Stored

namespace GrammarInference

/-! ### Choices -/

theorem RandomStream.mem_of_choose {α : Type} {r r' : RandomStream} {l : List α} {a : α}
    (h : r.choose l = (some a, r')) : a ∈ l := by
  cases l with
  | nil => cases h
  | cons b rest =>
    rw [choose] at h
    generalize r.below (rest.length + 1) = drawn at h
    obtain ⟨i, r''⟩ := drawn
    simp only [Prod.mk.injEq, Option.some.injEq] at h
    rcases hget : (b :: rest)[i]? with - | c
    · rw [hget, Option.getD_none] at h
      exact h.1 ▸ List.mem_cons_self
    · rw [hget, Option.getD_some] at h
      exact h.1 ▸ List.mem_of_getElem? hget

/-- The node holds a derivation tree of `n`. -/
def Arena.HoldsDerivation (g : Grammar) (n : String) (a : Arena) (id : NodeId) : Prop :=
  ∃ t, a.Stores t id ∧ t.isDerivation g = true ∧ t.symbol = .nonterminal n

namespace Generator

variable {g : Grammar} {gen : Generator} {n : String}

/-- The options are alternatives of the grammar. -/
def Offers (g : Grammar) (gen : Generator) : Prop :=
  ∀ (n : String) (options : List (Rule × Height)), gen.options.get? n = some options →
    ∀ o ∈ options, o.1 ∈ g.alternatives n

theorem offers_new (g : Grammar) (maxDepth seed : Nat) : Offers g (.new g maxDepth seed) := by
  intro n options hget o ho
  rw [new, OrderedMap.get?_mapValues, Option.map_eq_some_iff] at hget
  obtain ⟨rs, hrs, rfl⟩ := hget
  obtain ⟨r, hr, rfl⟩ := List.mem_map.mp ho
  rw [Grammar.alternatives, hrs]
  exact hr

theorem mem_of_mem_candidates {depth : Nat} {options : List (Rule × Height)} {r : Rule}
    (h : r ∈ gen.candidates depth options) : ∃ o ∈ options, o.1 = r := by
  rw [candidates] at h
  split at h
  · obtain ⟨o, ho, rfl⟩ := List.mem_map.mp h
    exact ⟨o, (List.mem_filter.mp ho).1, rfl⟩
  · obtain ⟨o, ho, rfl⟩ := List.mem_map.mp h
    exact ⟨o, (List.mem_filter.mp ho).1, rfl⟩

/-- Picking draws from the stream and takes one of the options. -/
theorem pick_spec (gen : Generator) (n : String) (forced : Option Nat) (depth : Nat)
    (options : List (Rule × Height)) (s : State) :
    (gen.pick n forced depth options s).2.arena = s.arena ∧
      ∀ r, (gen.pick n forced depth options s).1 = .ok r → ∃ o ∈ options, o.1 = r := by
  cases forced with
  | some i =>
    rw [pick]
    rcases hi : options[i]? with - | ⟨r, - | h⟩
    · exact ⟨rfl, fun r hr => by cases hr⟩
    · exact ⟨rfl, fun r hr => by cases hr⟩
    · refine ⟨rfl, fun r' hr => ?_⟩
      cases hr
      exact ⟨_, List.mem_of_getElem? hi, rfl⟩
  | none =>
    rw [pick]
    rcases hc : s.random.choose (gen.candidates depth options) with ⟨- | r, random⟩
    · exact ⟨rfl, fun r hr => by cases hr⟩
    · refine ⟨rfl, fun r' hr => ?_⟩
      cases hr
      exact mem_of_mem_candidates (RandomStream.mem_of_choose hc)

/-! ### Expansions -/

/-- The nodes are kept, and the node that is returned holds a derivation tree of `n`. -/
def Derived (g : Grammar) (n : String) (s : State) (r : Except Error NodeId × State) : Prop :=
  s.arena.Extends r.2.arena ∧ ∀ id, r.1 = .ok id → r.2.arena.HoldsDerivation g n id

/-- The nodes are kept, and the nodes that are returned hold derivation trees of the symbols. -/
def DerivedAll (g : Grammar) (symbols : Rule) (s : State) (r : Except Error (List NodeId) × State) : Prop :=
  s.arena.Extends r.2.arena ∧ ∀ ids, r.1 = .ok ids → ∃ ts, r.2.arena.StoresAll ts ids ∧
    Tree.areDerivations g ts = true ∧ ts.map Tree.symbol = symbols

/-- The node of the first symbol of a rule before those of the other ones. -/
def prepend (id : NodeId) : Except Error (List NodeId) × State → Except Error (List NodeId) × State
  | (.ok ids, s) => (.ok (id :: ids), s)
  | (.error e, s) => (.error e, s)

theorem DerivedAll.prepend {s s' : State} {t : Tree} {id : NodeId} {r : Rule}
    {rest : Except Error (List NodeId) × State} (hext : s.arena.Extends s'.arena)
    (ht : s'.arena.Stores t id) (hder : t.isDerivation g = true) (hrest : DerivedAll g r s' rest) :
    DerivedAll g (t.symbol :: r) s (Generator.prepend id rest) := by
  rcases rest with ⟨e | ids, s''⟩
  · exact ⟨hext.trans hrest.1, fun ids hids => nomatch hids⟩
  · refine ⟨hext.trans hrest.1, fun ids' hids => ?_⟩
    obtain ⟨ts, hstores, hders, hsyms⟩ := hrest.2 ids rfl
    cases hids
    refine ⟨t :: ts, ⟨id, ids, rfl, ht.mono hrest.1, hstores⟩, ?_, ?_⟩
    · exact Tree.areDerivations_cons_iff.mpr ⟨hder, hders⟩
    · rw [List.map_cons, hsyms]

theorem expandRule_spec {f : String → State → Except Error NodeId × State} (hf : ∀ m s, Derived g m s (f m s))
    (r : Rule) (s : State) : DerivedAll g r s (expandRule f r s) := by
  induction r generalizing s with
  | nil =>
    refine ⟨.refl _, fun ids hids => ?_⟩
    cases hids
    exact ⟨[], rfl, rfl, rfl⟩
  | cons x r ih =>
    cases x with
    | terminal text =>
      have hext := Arena.extends_alloc s.arena (.terminal text) []
      have hleaf := Arena.stores_leaf s.arena (.terminal text)
      have hder : (Tree.node (.terminal text) []).isDerivation g = true :=
        Tree.isDerivation_terminal_iff.mpr rfl
      exact (ih (s.alloc (.terminal text) []).2).prepend hext hleaf hder
    | nonterminal m =>
      obtain ⟨hext, hid⟩ := hf m s
      rw [expandRule]
      rcases hm : f m s with ⟨e | id, s'⟩
      · rw [hm] at hext
        exact ⟨hext, fun ids hids => nomatch hids⟩
      · rw [hm] at hext hid
        obtain ⟨t, hstore, hder, hsym⟩ := hid id rfl
        rw [← hsym]
        exact (ih s').prepend hext hstore hder

/-- An expansion is a derivation by one of the options. -/
theorem expand_spec (hgen : Offers g gen) (bound : Nat) (n : String) (forced : Option Nat) (depth : Nat)
    (s : State) : Derived g n s (gen.expand bound n forced depth s) := by
  induction bound generalizing n forced depth s with
  | zero => exact ⟨.refl _, fun id hid => by cases hid⟩
  | succ bound ih =>
    rw [expand]
    rcases htick : s.checkpoint.tick with ⟨stop, cp⟩
    cases stop with
    | true => exact ⟨.refl _, fun id hid => by cases hid⟩
    | false =>
      rcases hopt : gen.options.get? n with - | options
      · exact ⟨.refl _, fun id hid => by cases hid⟩
      · have hpick := gen.pick_spec n forced depth options { s with checkpoint := cp }
        rcases hp : gen.pick n forced depth options { s with checkpoint := cp } with ⟨e | r, s₁⟩
        · rw [hp] at hpick
          simp only [hp, Bool.false_eq_true, if_false]
          rw [Derived, hpick.1]
          exact ⟨.refl _, fun id hid => by cases hid⟩
        · rw [hp] at hpick
          obtain ⟨harena, hmem⟩ := hpick
          obtain ⟨o, ho, rfl⟩ := hmem r rfl
          have hrule := expandRule_spec (fun m s => ih m none (depth + 1) s) o.1 s₁
          simp only [hp, Bool.false_eq_true, if_false]
          have hstart : s.arena.Extends s₁.arena := by
            rw [harena]
            exact .refl _
          rcases hr : expandRule (fun m s => gen.expand bound m none (depth + 1) s) o.1 s₁ with ⟨e | ids, s₂⟩
          · rw [hr] at hrule
            exact ⟨hstart.trans hrule.1, fun id hid => by cases hid⟩
          · -- the new node stands above trees for an alternative of `n`
            rw [hr] at hrule
            obtain ⟨ts, hstores, hder, hsym⟩ := hrule.2 ids rfl
            have hext := Arena.extends_alloc s₂.arena (.nonterminal n) ids
            refine ⟨(hstart.trans hrule.1).trans hext, fun id hid => ?_⟩
            cases hid
            refine ⟨.node (.nonterminal n) ts, hstores.alloc _, ?_, rfl⟩
            exact Tree.isDerivation_nonterminal_iff.mpr ⟨hsym ▸ hgen n options hopt o ho, hder⟩

/-! ### Generated trees and strings -/

/-- A generated tree is a derivation tree, and the older nodes are kept. -/
theorem generate_spec (hgen : Offers g gen) (arena : Arena) (start : String) (forced : Option Nat)
    (deadline : Deadline) :
    arena.Extends (gen.generate arena start forced deadline).2.1 ∧
      Offers g (gen.generate arena start forced deadline).2.2 ∧
      ∀ id, (gen.generate arena start forced deadline).1 = .ok id →
        (gen.generate arena start forced deadline).2.1.HoldsDerivation g start id := by
  obtain ⟨hext, hid⟩ := expand_spec hgen gen.depthBound start forced 0 ⟨gen.random, arena, .start deadline period⟩
  exact ⟨hext, hgen, hid⟩

/-- A generated string is derived. -/
theorem generateString_spec (hgen : Offers g gen) (start : String) (deadline : Deadline) :
    Offers g (gen.generateString start deadline).2 ∧
      ∀ w, (gen.generateString start deadline).1 = .ok w → Grammar.InLanguage g start w.toList := by
  obtain ⟨-, hoffers, hid⟩ := generate_spec hgen ∅ start none deadline
  rw [generateString]
  rcases hgenerate : gen.generate ∅ start none deadline with ⟨e | id, arena, gen'⟩
  · rw [hgenerate] at hoffers
    exact ⟨hoffers, fun w hw => by cases hw⟩
  · rw [hgenerate] at hoffers hid
    refine ⟨hoffers, fun w hw => ?_⟩
    cases hw
    obtain ⟨t, hstore, hder, hsym⟩ := hid id rfl
    rw [hstore.toList_yieldString]
    exact Tree.inLanguage_yield hder hsym

end Generator

end GrammarInference
