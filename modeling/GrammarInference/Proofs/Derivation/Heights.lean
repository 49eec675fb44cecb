/-
GrammarInference/Proofs/Derivation/Heights.lean

The heights that are computed are the least heights of derivations.

Design.  A height is described by the bounds that it keeps (`AtMost`), since least and greatest heights are easy
to state that way.  After `j` rounds of improvement a nonterminal is known to keep the bound `k` exactly if it
ends within `k` and within `j` levels (`heightIn_round_iff`).  A round that changes nothing shows that no
nonterminal needs one level more, and then none needs more levels than that.  As long as some nonterminal does,
each round makes one more known, so the rounds suffice.

    (heightIn g.heights n).AtMost k  ↔  EndsWithin g k n
-/
import GrammarInference.Derivation.Cost
import GrammarInference.Proofs.Grammar.Reachable
import Mathlib.Data.Finset.Card
import Mathlib.Logic.Function.Iterate

namespace GrammarInference

namespace Height

variable {h h' : Height} {k : Nat}

/-! ### Bounds on heights -/

/-- The height is known and at most `k`. -/
def AtMost (h : Height) (k : Nat) : Prop := ∃ a, h = some a ∧ a ≤ k

@[simp] theorem atMost_none : ¬AtMost none k := by
  rintro ⟨a, ha, -⟩
  cases ha

@[simp] theorem atMost_some {a : Nat} : AtMost (some a) k ↔ a ≤ k := by simp [AtMost]

theorem atMost_min : (min h h').AtMost k ↔ h.AtMost k ∨ h'.AtMost k := by
  cases h with
  | none => simp [min]
  | some a =>
    cases h' with
    | none => simp [min]
    | some b =>
      simp only [min, atMost_some]
      exact min_le_iff

/-- The least of some heights keeps a bound exactly if one of them does. -/
theorem atMost_minimum {l : List Height} : (minimum l).AtMost k ↔ ∃ h ∈ l, h.AtMost k := by
  have hfold : ∀ (l : List Height) (h : Height), (l.foldl min h).AtMost k ↔ h.AtMost k ∨ ∃ h ∈ l, h.AtMost k := by
    intro l
    induction l with
    | nil => simp
    | cons x l ih =>
      intro h
      rw [List.foldl_cons, ih, atMost_min, or_assoc]
      simp
  rw [minimum, hfold]
  simp

end Height

namespace Grammar

variable {g : Grammar} {n m : String} {r : Rule} {j k : Nat}

/-! ### Levels -/

/-- The nonterminal `n` ends within `k` levels: it has a derivation tree with at most `k` nonterminals on any
path. -/
def EndsWithin (g : Grammar) : Nat → String → Prop
  | 0, _ => False
  | k + 1, n => ∃ r ∈ g.alternatives n, ∀ m, Symbol.nonterminal m ∈ r → EndsWithin g k m

theorem EndsWithin.succ (h : EndsWithin g k n) : EndsWithin g (k + 1) n := by
  induction k generalizing n with
  | zero => exact absurd h id
  | succ k ih =>
    obtain ⟨r, hr, hall⟩ := h
    exact ⟨r, hr, fun m hm => ih (hall m hm)⟩

theorem EndsWithin.mono (h : EndsWithin g j n) (hle : j ≤ k) : EndsWithin g k n := by
  induction hle with
  | refl => exact h
  | step _ ih => exact ih.succ

/-- If the nonterminals of a rule derive strings, then so does the rule. -/
theorem exists_derives (h : ∀ m, Symbol.nonterminal m ∈ r → ∃ w, InLanguage g m w) : ∃ w, Derives g r w := by
  induction r with
  | nil => exact ⟨[], .nil⟩
  | cons x r ih =>
    obtain ⟨v, hv⟩ := ih fun m hm => h m (List.mem_cons_of_mem x hm)
    cases x with
    | terminal t => exact ⟨t.toList ++ v, .terminal hv⟩
    | nonterminal m =>
      obtain ⟨u, body, hb, hu⟩ := h m List.mem_cons_self
      exact ⟨u ++ v, .nonterminal hb hu hv⟩

/-- A derived rule mentions nonterminals that end, all of them within some number of levels. -/
theorem Derives.exists_endsWithin {w : List Char} (h : Derives g r w) :
    ∃ k, ∀ m, Symbol.nonterminal m ∈ r → EndsWithin g k m := by
  induction h with
  | nil => exact ⟨0, fun m hm => absurd hm List.not_mem_nil⟩
  | terminal _ ih =>
    obtain ⟨k, hk⟩ := ih
    refine ⟨k, fun m hm => hk m ?_⟩
    simpa using hm
  | nonterminal hb _ _ ihBody ih =>
    obtain ⟨k, hk⟩ := ihBody
    obtain ⟨l, hl⟩ := ih
    refine ⟨max (k + 1) l, fun m hm => ?_⟩
    rcases List.mem_cons.mp hm with heq | hm
    · obtain rfl := Symbol.nonterminal.inj heq
      have hends : EndsWithin g (k + 1) m := ⟨_, hb, hk⟩
      exact hends.mono (Nat.le_max_left _ _)
    · exact (hl m hm).mono (Nat.le_max_right _ _)

/-- A nonterminal ends within some number of levels exactly if it derives a string. -/
theorem exists_endsWithin_iff : (∃ k, EndsWithin g k n) ↔ ∃ w, InLanguage g n w := by
  constructor
  · rintro ⟨k, h⟩
    induction k generalizing n with
    | zero => exact absurd h id
    | succ k ih =>
      obtain ⟨r, hr, hall⟩ := h
      obtain ⟨w, hw⟩ := exists_derives fun m hm => ih (hall m hm)
      exact ⟨w, r, hr, hw⟩
  · rintro ⟨w, body, hb, hd⟩
    obtain ⟨k, hk⟩ := hd.exists_endsWithin
    exact ⟨k + 1, body, hb, hk⟩

/-! ### Rounds of improvement -/

/-- The height of an alternative of which the first symbols have the height `h`, with one more nonterminal. -/
def raised (height : String → Height) (h : Height) (n : String) : Height :=
  match h, height n with
  | some a, some b => some (max a (b + 1))
  | _, _ => none

theorem ruleHeight_eq (height : String → Height) (r : Rule) :
    ruleHeight height r = r.names.foldl (raised height) (some 1) := rfl

theorem atMost_raised {height : String → Height} {h : Height} :
    (raised height h n).AtMost (k + 1) ↔ h.AtMost (k + 1) ∧ (height n).AtMost k := by
  rcases h with - | a
  · simp [raised]
  · rcases hn : height n with - | b <;> simp [raised, hn]

/-- The height of an alternative keeps a bound exactly if its nonterminals keep the next smaller one. -/
theorem atMost_ruleHeight {height : String → Height} : (ruleHeight height r).AtMost (k + 1) ↔
    ∀ m, Symbol.nonterminal m ∈ r → (height m).AtMost k := by
  have hfold : ∀ (l : List String) (h : Height),
      (l.foldl (raised height) h).AtMost (k + 1) ↔ h.AtMost (k + 1) ∧ ∀ m ∈ l, (height m).AtMost k := by
    intro l
    induction l with
    | nil => simp
    | cons x l ih =>
      intro h
      rw [List.foldl_cons, ih, atMost_raised, List.forall_mem_cons, and_assoc]
  rw [ruleHeight_eq, hfold]
  simp [mem_names_iff]

theorem not_atMost_ruleHeight_zero {height : String → Height} : ¬(ruleHeight height r).AtMost 0 := by
  have hfold : ∀ (l : List String) (h : Height), (l.foldl (raised height) h).AtMost 0 → h.AtMost 0 := by
    intro l
    induction l with
    | nil => exact fun _ h => h
    | cons x l ih =>
      intro h hl
      have hx := ih _ hl
      rcases h with - | a
      · simp [raised] at hx
      · rcases hn : height x with - | b <;> simp [raised, hn] at hx
  intro h
  simpa using hfold _ _ h

theorem heightIn_improveHeights (g : Grammar) (known : Heights) (n : String) :
    heightIn (g.improveHeights known) n =
      Height.minimum ((g.alternatives n).map (ruleHeight (heightIn known))) := by
  rw [heightIn, improveHeights, OrderedMap.get?_mapValues, alternatives]
  cases g.get? n <;> rfl

/-- What is known after `j` rounds. -/
def round (g : Grammar) (j : Nat) : Heights := g.improveHeights^[j] (g.mapValues fun _ _ => none)

/-- After `j` rounds the heights up to `j` are known. -/
theorem heightIn_round_iff : (heightIn (g.round j) n).AtMost k ↔ EndsWithin g (min j k) n := by
  induction j generalizing n k with
  | zero =>
    have hnone : heightIn (g.round 0) n = none := by
      show heightIn (g.mapValues fun _ _ => none) n = none
      rw [heightIn, OrderedMap.get?_mapValues]
      cases g.get? n <;> rfl
    rw [hnone, Nat.zero_min]
    simp [EndsWithin]
  | succ j ih =>
    rw [round, Function.iterate_succ_apply', heightIn_improveHeights, Height.atMost_minimum]
    cases k with
    | zero =>
      rw [Nat.min_zero]
      simp [EndsWithin, not_atMost_ruleHeight_zero]
    | succ k =>
      rw [Nat.add_min_add_right, EndsWithin]
      simp only [List.mem_map, exists_exists_and_eq_and, atMost_ruleHeight]
      exact exists_congr fun r => and_congr_right fun _ => forall₂_congr fun m _ => ih

/-! ### The last round -/

/-- No nonterminal needs `j + 1` levels. -/
def LevelsEnd (g : Grammar) (j : Nat) : Prop := ∀ n, EndsWithin g (j + 1) n → EndsWithin g j n

/-- Then none needs more levels than `j`. -/
theorem LevelsEnd.endsWithin (h : LevelsEnd g j) (hn : EndsWithin g k n) : EndsWithin g j n := by
  induction k generalizing n with
  | zero => exact absurd hn id
  | succ k ih =>
    obtain ⟨r, hr, hall⟩ := hn
    exact h n ⟨r, hr, fun m hm => ih (hall m hm)⟩

theorem levelsEnd_of_round_eq (h : g.round (j + 1) = g.round j) : LevelsEnd g j := by
  intro n hn
  have hnext : (heightIn (g.round (j + 1)) n).AtMost (j + 1) :=
    heightIn_round_iff.mpr (by rwa [Nat.min_self])
  rw [h, heightIn_round_iff] at hnext
  exact hnext.mono (Nat.min_le_left _ _)

open Classical in
/-- The nonterminals that end within `j` levels. -/
noncomputable def ending (g : Grammar) (j : Nat) : Finset String := g.keys.toFinset.filter fun n => EndsWithin g j n

open Classical in
theorem mem_ending_iff : n ∈ g.ending j ↔ EndsWithin g j n := by
  rw [ending, Finset.mem_filter, List.mem_toFinset, and_iff_right_iff_imp]
  intro h
  cases j with
  | zero => exact absurd h id
  | succ j =>
    obtain ⟨r, hr, -⟩ := h
    exact OrderedMap.contains_iff_mem_keys.mp (contains_of_mem_alternatives hr)

open Classical in
theorem card_ending_le (g : Grammar) (j : Nat) : (g.ending j).card ≤ g.size := by
  have hkeys : g.keys.length = g.size := List.length_map _
  rw [← hkeys]
  refine (Finset.card_le_card ?_).trans (List.toFinset_card_le g.keys)
  exact Finset.filter_subset _ _

/-- There are no more levels than definitions. -/
theorem exists_levelsEnd (g : Grammar) : ∃ j ≤ g.size, LevelsEnd g j := by
  by_contra hno
  -- otherwise each level has a nonterminal that did not end before
  have hgrow : ∀ j ≤ g.size + 1, j ≤ (g.ending j).card := by
    intro j
    induction j with
    | zero => exact fun _ => Nat.zero_le _
    | succ j ih =>
      intro hj
      have hmore : ¬LevelsEnd g j := fun h => hno ⟨j, by omega, h⟩
      rw [LevelsEnd, not_forall] at hmore
      obtain ⟨n, hn⟩ := hmore
      rw [Classical.not_imp] at hn
      have hsub : g.ending j ⊆ g.ending (j + 1) := fun m hm => mem_ending_iff.mpr (mem_ending_iff.mp hm).succ
      have hlt : (g.ending j).card < (g.ending (j + 1)).card := by
        apply Finset.card_lt_card
        rw [Finset.ssubset_iff_of_subset hsub]
        exact ⟨n, mem_ending_iff.mpr hn.1, fun h => hn.2 (mem_ending_iff.mp h)⟩
      exact Nat.succ_le_of_lt ((ih (by omega)).trans_lt hlt)
  have hall := hgrow (g.size + 1) (Nat.le_refl _)
  have hle := g.card_ending_le (g.size + 1)
  omega

theorem improveWithin_eq_round (g : Grammar) (rounds j : Nat) :
    ∃ i, g.improveWithin rounds (g.round j) = g.round i ∧
      (i = j + rounds ∨ g.round (i + 1) = g.round i) := by
  induction rounds generalizing j with
  | zero => exact ⟨j, rfl, .inl rfl⟩
  | succ rounds ih =>
    have hnext : g.improveHeights (g.round j) = g.round (j + 1) := (Function.iterate_succ_apply' _ _ _).symm
    rw [improveWithin, hnext]
    split
    · rename_i hsame
      exact ⟨j, rfl, .inr hsame⟩
    · obtain ⟨i, heq, hor⟩ := ih (j + 1)
      exact ⟨i, heq, hor.imp_left fun h => by omega⟩

/-- The heights that are computed are the least numbers of levels. -/
theorem heightIn_heights_iff : (heightIn g.heights n).AtMost k ↔ EndsWithin g k n := by
  obtain ⟨i, heq, hor⟩ := improveWithin_eq_round g (g.size + 1) 0
  have hend : ∀ m, EndsWithin g k m → EndsWithin g i m := by
    intro m hm
    -- the rounds were used up, and there are no more levels than rounds; or the last round changed nothing
    rcases hor with rfl | hsame
    · obtain ⟨j, hj, hlevels⟩ := g.exists_levelsEnd
      exact (hlevels.endsWithin hm).mono (by omega)
    · exact (levelsEnd_of_round_eq hsame).endsWithin hm
  have hheights : g.heights = g.round i := heq
  rw [hheights, heightIn_round_iff]
  constructor
  · intro h
    exact h.mono (Nat.min_le_right _ _)
  · intro h
    rcases Nat.le_total i k with hik | hki
    · rw [Nat.min_eq_left hik]
      exact hend n h
    · rwa [Nat.min_eq_right hki]

end Grammar

end GrammarInference
