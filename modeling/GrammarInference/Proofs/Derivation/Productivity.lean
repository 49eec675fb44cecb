/-
GrammarInference/Proofs/Derivation/Productivity.lean

Derivations from a nonterminal that derives a string do not fail for want of one.

Design.  An expansion at a depth is given a bound on the depth of what is below.  As long as alternatives are
chosen freely, the bound is large enough to reach the depth from which the cheapest ones are taken, and from
there on for any nonterminal that ends at all; behind that depth every choice uses up one level of the bound and
one of the levels within which the nonterminal ends.  So there is always an alternative to choose from, and the
bound is never used up.
-/
import GrammarInference.Proofs.Derivation.Generator
import GrammarInference.Proofs.Derivation.Heights

namespace GrammarInference

/-- The result is not the complaint that a nonterminal derives no finite string. -/
def NoComplaint {α : Type} (result : Except Error α) : Prop := ∀ m, result ≠ .error (.unproductive m)

theorem noComplaint_ok {α : Type} (a : α) : NoComplaint (.ok a) := fun _ h => by cases h

/-- An error that is handed on makes no other complaint than before. -/
theorem NoComplaint.error {α β : Type} {e : Error} (h : NoComplaint (.error e : Except Error α)) :
    NoComplaint (.error e : Except Error β) := by
  intro m heq
  cases heq
  exact h m rfl

theorem RandomStream.exists_choose {α : Type} {l : List α} (h : l ≠ []) (r : RandomStream) :
    ∃ a r', r.choose l = (some a, r') := by
  cases l with
  | nil => exact absurd rfl h
  | cons a rest =>
    rw [choose]
    generalize r.below (rest.length + 1) = drawn
    obtain ⟨i, r'⟩ := drawn
    exact ⟨_, r', rfl⟩

namespace Generator

open Grammar (EndsWithin heightIn ruleHeight)

variable {g : Grammar} {gen : Generator} {n : String} {r : Rule} {k depth : Nat}

/-! ### Options and their heights -/

/-- A source of derivations of `g`, at some point of its random stream. -/
def IsFor (g : Grammar) (gen : Generator) : Prop :=
  ∃ maxDepth seed random, gen = { new g maxDepth seed with random := random }

theorem isFor_new (g : Grammar) (maxDepth seed : Nat) : IsFor g (new g maxDepth seed) := ⟨maxDepth, seed, _, rfl⟩

theorem IsFor.withRandom (h : IsFor g gen) (random : RandomStream) : IsFor g { gen with random := random } := by
  obtain ⟨maxDepth, seed, random', rfl⟩ := h
  exact ⟨maxDepth, seed, random, rfl⟩

/-- The height of an alternative. -/
def heightOf (g : Grammar) (r : Rule) : Height := ruleHeight (heightIn g.heights) r

theorem IsFor.options_eq (h : IsFor g gen) {options : List (Rule × Height)}
    (hget : gen.options.get? n = some options) : options = (g.alternatives n).map fun r => (r, heightOf g r) := by
  obtain ⟨maxDepth, seed, random, rfl⟩ := h
  have hget' : (g.get? n).map (fun rs => rs.map fun r => (r, heightOf g r)) = some options := by
    rw [← hget]
    exact (OrderedMap.get?_mapValues (fun _ rs => rs.map fun r => (r, heightOf g r)) g n).symm
  obtain ⟨rs, hrs, rfl⟩ := Option.map_eq_some_iff.mp hget'
  rw [Grammar.alternatives, hrs, Option.getD_some]

theorem atMost_heightOf : (heightOf g r).AtMost (k + 1) ↔ ∀ m, Symbol.nonterminal m ∈ r → EndsWithin g k m := by
  rw [heightOf, Grammar.atMost_ruleHeight]
  exact forall₂_congr fun m _ => Grammar.heightIn_heights_iff

/-- An alternative that has a height mentions nonterminals that end. -/
theorem exists_endsWithin_of_heightOf {a : Nat} (h : heightOf g r = some a) {m : String}
    (hm : Symbol.nonterminal m ∈ r) : ∃ k, EndsWithin g k m := by
  have hbound : (heightOf g r).AtMost a := ⟨a, h, Nat.le_refl a⟩
  cases a with
  | zero => exact absurd hbound Grammar.not_atMost_ruleHeight_zero
  | succ a => exact ⟨a, atMost_heightOf.mp hbound m hm⟩

/-- Some height of a list that has a least one is the least. -/
theorem exists_eq_minimum {l : List Height} (h : (Height.minimum l).AtMost k) :
    ∃ a ≤ k, Height.minimum l = some a ∧ some a ∈ l := by
  obtain ⟨a, ha, hak⟩ := h
  refine ⟨a, hak, ha, ?_⟩
  obtain ⟨x, hx, b, rfl, hba⟩ := Height.atMost_minimum.mp ⟨a, ha, Nat.le_refl a⟩
  obtain ⟨c, hc, hcb⟩ := Height.atMost_minimum.mpr ⟨some b, hx, b, rfl, Nat.le_refl b⟩
  rw [ha] at hc
  cases hc
  obtain rfl : b = a := Nat.le_antisymm hba hcb
  exact hx

/-! ### Choices -/

/-- From the given depth on, there is an alternative to choose, and each uses up one level. -/
theorem candidates_of_le (hdepth : gen.maxDepth ≤ depth) (hn : EndsWithin g (k + 1) n) :
    gen.candidates depth ((g.alternatives n).map fun r => (r, heightOf g r)) ≠ [] ∧
      ∀ r ∈ gen.candidates depth ((g.alternatives n).map fun r => (r, heightOf g r)),
        ∀ m, Symbol.nonterminal m ∈ r → EndsWithin g k m := by
  obtain ⟨r, hr, hends⟩ := hn
  have hleast : (Height.minimum (((g.alternatives n).map fun r => (r, heightOf g r)).map Prod.snd)).AtMost (k + 1) := by
    rw [Height.atMost_minimum, List.map_map]
    exact ⟨_, List.mem_map_of_mem hr, atMost_heightOf.mpr hends⟩
  obtain ⟨a, hak, hmin, ha⟩ := exists_eq_minimum hleast
  rw [candidates, if_pos hdepth]
  simp only [hmin, Option.isSome_some, Bool.true_and]
  constructor
  · obtain ⟨o, ho, hoa⟩ := List.mem_map.mp ha
    apply List.ne_nil_of_mem (a := o.1)
    exact List.mem_map_of_mem (List.mem_filter.mpr ⟨ho, decide_eq_true hoa⟩)
  · intro r' hr' m hm
    obtain ⟨o, ho, rfl⟩ := List.mem_map.mp hr'
    obtain ⟨ho, hoa⟩ := List.mem_filter.mp ho
    obtain ⟨b, hb, rfl⟩ := List.mem_map.mp ho
    have hbound : (heightOf g b).AtMost (k + 1) := ⟨a, of_decide_eq_true hoa, hak⟩
    exact atMost_heightOf.mp hbound m hm

/-- Before that depth, there is an alternative to choose, and the nonterminals of each of them end. -/
theorem candidates_of_lt (hdepth : depth < gen.maxDepth) (hn : ∃ k, EndsWithin g k n) :
    gen.candidates depth ((g.alternatives n).map fun r => (r, heightOf g r)) ≠ [] ∧
      ∀ r ∈ gen.candidates depth ((g.alternatives n).map fun r => (r, heightOf g r)),
        ∀ m, Symbol.nonterminal m ∈ r → ∃ k, EndsWithin g k m := by
  rw [candidates, if_neg (Nat.not_le_of_lt hdepth)]
  constructor
  · obtain ⟨k, hk⟩ := hn
    cases k with
    | zero => exact absurd hk id
    | succ k =>
      obtain ⟨r, hr, hends⟩ := hk
      obtain ⟨a, ha, -⟩ := atMost_heightOf.mpr hends
      apply List.ne_nil_of_mem (a := r)
      refine List.mem_map_of_mem (f := Prod.fst) (a := (r, heightOf g r)) (List.mem_filter.mpr ⟨?_, ?_⟩)
      · exact List.mem_map_of_mem hr
      · rw [ha]
        rfl
  · intro r' hr' m hm
    obtain ⟨o, ho, rfl⟩ := List.mem_map.mp hr'
    obtain ⟨ho, hsome⟩ := List.mem_filter.mp ho
    obtain ⟨b, hb, rfl⟩ := List.mem_map.mp ho
    obtain ⟨a, ha⟩ := Option.isSome_iff_exists.mp hsome
    exact exists_endsWithin_of_heightOf ha hm

theorem pick_of_candidates_ne_nil {options : List (Rule × Height)} (h : gen.candidates depth options ≠ [])
    (s : State) : ∃ r ∈ gen.candidates depth options, ∃ s', gen.pick n none depth options s = (.ok r, s') := by
  obtain ⟨r, random, hchoose⟩ := RandomStream.exists_choose h s.random
  refine ⟨r, RandomStream.mem_of_choose hchoose, { s with random := random }, ?_⟩
  rw [pick, hchoose]

/-! ### Expansions -/

theorem expandRule_noComplaint {f : String → State → Except Error NodeId × State}
    (hf : ∀ m, Symbol.nonterminal m ∈ r → ∀ s, NoComplaint (f m s).1) (s : State) :
    NoComplaint (expandRule f r s).1 := by
  induction r generalizing s with
  | nil => exact noComplaint_ok _
  | cons x r ih =>
    have hrest := ih fun m hm => hf m (List.mem_cons_of_mem x hm)
    cases x with
    | terminal text =>
      have hs := hrest (s.alloc (.terminal text) []).2
      rw [expandRule]
      simp only
      rcases h : expandRule f r (s.alloc (.terminal text) []).2 with ⟨e | ids, s'⟩
      · rw [h] at hs
        exact hs.error
      · exact noComplaint_ok _
    | nonterminal n =>
      have hn := hf n List.mem_cons_self s
      rw [expandRule]
      rcases hname : f n s with ⟨e | id, s'⟩
      · rw [hname] at hn
        exact hn.error
      · have hs := hrest s'
        simp only
        rcases h : expandRule f r s' with ⟨e | ids, s''⟩
        · rw [h] at hs
          exact hs.error
        · exact noComplaint_ok _

theorem le_largestHeight {known : Grammar.Heights} {a : Nat} (h : heightIn known n = some a) :
    a ≤ largestHeight known := by
  have hfold : ∀ (l : List Nat) (b c : Nat), c = b ∨ c ∈ l → c ≤ l.foldl max b := by
    intro l
    induction l with
    | nil =>
      intro b c hc
      exact Nat.le_of_eq (hc.resolve_right List.not_mem_nil)
    | cons d l ih =>
      intro b c hc
      rw [List.foldl_cons]
      rcases hc with rfl | hc
      · exact (Nat.le_max_left c d).trans (ih _ _ (.inl rfl))
      · rcases List.mem_cons.mp hc with rfl | hc
        · exact (Nat.le_max_right b c).trans (ih _ _ (.inl rfl))
        · exact ih _ _ (.inr hc)
  apply hfold
  right
  rcases hget : known.get? n with - | x
  · rw [heightIn, hget] at h
    cases h
  · rw [heightIn, hget] at h
    have hmem : x ∈ known.values := List.mem_map_of_mem (f := Prod.snd) (OrderedMap.get?_eq_some_iff.mp hget)
    obtain rfl : x = some a := h
    exact List.mem_map_of_mem (f := fun h => h.getD 0) hmem

/-- Any nonterminal that ends does so within the largest height. -/
theorem endsWithin_largestHeight (h : ∃ k, EndsWithin g k n) : EndsWithin g (largestHeight g.heights) n := by
  obtain ⟨k, hk⟩ := h
  obtain ⟨a, ha, -⟩ := Grammar.heightIn_heights_iff.mpr hk
  exact Grammar.heightIn_heights_iff.mp ⟨a, ha, le_largestHeight ha⟩

/-- The bound is enough for `n`: behind the given depth, `n` ends within it; before, it reaches that depth, and
from there any nonterminal ends within what is left. -/
structure Suffices (g : Grammar) (gen : Generator) (bound depth : Nat) (n : String) : Prop where
  /-- Behind the given depth. -/
  deep : gen.maxDepth ≤ depth → EndsWithin g bound n
  /-- Before it. -/
  shallow : depth < gen.maxDepth → (∃ k, EndsWithin g k n) ∧
    gen.maxDepth - depth + largestHeight g.heights ≤ bound

/-- With a bound that is enough, there is an alternative to choose, and one less is enough for its nonterminals. -/
theorem Suffices.candidates {bound : Nat} (h : Suffices g gen (bound + 1) depth n) :
    gen.candidates depth ((g.alternatives n).map fun r => (r, heightOf g r)) ≠ [] ∧
      ∀ r ∈ gen.candidates depth ((g.alternatives n).map fun r => (r, heightOf g r)),
        ∀ m, Symbol.nonterminal m ∈ r → Suffices g gen bound (depth + 1) m := by
  rcases Nat.lt_or_ge depth gen.maxDepth with hlt | hge
  · obtain ⟨hends, hbound⟩ := h.shallow hlt
    obtain ⟨hne, hall⟩ := candidates_of_lt hlt hends
    -- the last free choice leaves a bound that covers the largest height
    refine ⟨hne, fun r hr m hm => ⟨fun _ => ?_, fun _ => ⟨hall r hr m hm, by omega⟩⟩⟩
    exact (endsWithin_largestHeight (hall r hr m hm)).mono (by omega)
  · obtain ⟨hne, hall⟩ := candidates_of_le hge (h.deep hge)
    exact ⟨hne, fun r hr m hm => ⟨fun _ => hall r hr m hm, fun hlt => by omega⟩⟩

theorem Suffices.pos {bound : Nat} (h : Suffices g gen bound depth n) : 0 < bound := by
  rcases Nat.lt_or_ge depth gen.maxDepth with hlt | hge
  · have hbound := (h.shallow hlt).2
    omega
  · have hends := h.deep hge
    cases bound with
    | zero => exact absurd hends id
    | succ bound => exact Nat.succ_pos bound

theorem expand_noComplaint (hgen : IsFor g gen) {bound : Nat} (h : Suffices g gen bound depth n) (s : State) :
    NoComplaint (gen.expand bound n none depth s).1 := by
  induction bound generalizing n depth s with
  | zero => exact absurd h.pos (Nat.lt_irrefl 0)
  | succ bound ih =>
    rw [expand]
    rcases htick : s.checkpoint.tick with ⟨stop, cp⟩
    cases stop with
    | true => exact fun m heq => by cases heq
    | false =>
      rcases hopt : gen.options.get? n with - | options
      · exact fun m heq => by cases heq
      · obtain rfl := hgen.options_eq hopt
        obtain ⟨hne, hall⟩ := h.candidates
        -- whatever alternative is drawn, its nonterminals have a bound that is enough
        obtain ⟨r, hr, s₁, hpick⟩ := pick_of_candidates_ne_nil (n := n) hne { s with checkpoint := cp }
        have hrule : NoComplaint (expandRule (fun m s => gen.expand bound m none (depth + 1) s) r s₁).1 :=
          expandRule_noComplaint (fun m hm s => ih (hall r hr m hm) s) s₁
        simp only [hpick, Bool.false_eq_true, if_false]
        rcases hexp : expandRule (fun m s => gen.expand bound m none (depth + 1) s) r s₁ with ⟨e | ids, s₂⟩
        · rw [hexp] at hrule
          exact hrule.error
        · exact noComplaint_ok _

/-- A string is drawn, or the draw is interrupted, but it is not found that there is none. -/
theorem generateString_noComplaint (hgen : IsFor g gen) (hn : ∃ w, Grammar.InLanguage g n w) (deadline : Deadline) :
    NoComplaint (gen.generateString n deadline).1 ∧ IsFor g (gen.generateString n deadline).2 := by
  have hends := Grammar.exists_endsWithin_iff.mpr hn
  have hsuffices : Suffices g gen gen.depthBound 0 n := by
    obtain ⟨maxDepth, seed, random, rfl⟩ := hgen
    constructor
    · exact fun _ => (endsWithin_largestHeight hends).mono (Nat.le_succ_of_le (Nat.le_add_left _ _))
    · intro hlt
      refine ⟨hends, ?_⟩
      show maxDepth - 0 + largestHeight g.heights ≤ max maxDepth 1 + largestHeight g.heights + 1
      omega
  have hexp := expand_noComplaint hgen hsuffices ⟨gen.random, ∅, .start deadline period⟩
  rw [generateString, generate]
  rcases h : gen.expand gen.depthBound n none 0 ⟨gen.random, ∅, .start deadline period⟩ with ⟨e | id, s⟩
  · rw [h] at hexp
    exact ⟨hexp.error, hgen.withRandom s.random⟩
  · exact ⟨noComplaint_ok _, hgen.withRandom s.random⟩

end Generator

end GrammarInference
