/-
GrammarInference/Proofs/Earley/Table.lean

What a prepared grammar says about the grammar it was made from.

Design.  A production is an alternative in another spelling: `Production.rule` reads it back, and the
productions of the table are exactly the alternatives of the grammar (`mem_productionList_iff`).  The nullable
nonterminals are found by repeating a monotone step.  A list that the step enlarges gets longer, and it never
holds more than the nonterminals of the productions, so the bound on the rounds is never what stops the
iteration (`nullableStep_nullableWithin_subset`); hence the list is exact (`mem_nullable_iff`).
-/
import GrammarInference.Earley.Table
import GrammarInference.Proofs.Grammar.Derivation
import Mathlib.Data.List.Perm.Subperm

namespace GrammarInference

namespace Earley

/-! ### Productions as rules -/

/-- The symbol for a part. -/
def Part.symbol : Part → Symbol
  | .text w => .terminal (String.ofList w)
  | .name n => .nonterminal n

@[simp] theorem Part.symbol_ofSymbol (x : Symbol) : (Part.ofSymbol x).symbol = x := by
  cases x with
  | terminal t => rw [Part.ofSymbol, Part.symbol, String.ofList_toList]
  | nonterminal n => rfl

@[simp] theorem Part.ofSymbol_symbol (x : Part) : Part.ofSymbol x.symbol = x := by
  cases x with
  | text w => rw [Part.symbol, Part.ofSymbol, String.toList_ofList]
  | name n => rfl

/-- The alternative that a production stands for. -/
def Production.rule (p : Production) : Rule := p.parts.toList.map Part.symbol

@[simp] theorem Production.length_rule (p : Production) : p.rule.length = p.parts.size := by
  simp [Production.rule]

theorem Production.getElem?_rule (p : Production) (k : Nat) : p.rule[k]? = p.parts[k]?.map Part.symbol := by
  simp [Production.rule]

namespace Table

variable {g : Grammar}

/-- The productions are the alternatives. -/
theorem mem_productionList_iff {p : Production} : p ∈ productionList g ↔ p.rule ∈ g.alternatives p.lhs := by
  rw [productionList, List.mem_flatMap]
  constructor
  · rintro ⟨⟨n, rs⟩, he, hp⟩
    obtain ⟨r, hr, rfl⟩ := List.mem_map.mp hp
    have hget : g.get? n = some rs := OrderedMap.get?_eq_some_iff.mpr he
    have hrule : Production.rule ⟨n, (r.map Part.ofSymbol).toArray⟩ = r := by
      simp [Production.rule, Function.comp_def]
    rw [hrule, Grammar.alternatives, hget]
    exact hr
  · intro h
    rw [Grammar.alternatives] at h
    rcases hget : g.get? p.lhs with - | rs
    · rw [hget] at h
      exact absurd h List.not_mem_nil
    · rw [hget] at h
      refine ⟨(p.lhs, rs), OrderedMap.get?_eq_some_iff.mp hget, List.mem_map.mpr ⟨p.rule, h, ?_⟩⟩
      have hparts : ((p.rule.map Part.ofSymbol).toArray : Array Part) = p.parts := by
        simp [Production.rule, Function.comp_def]
      rw [hparts]

theorem productions_ofGrammar_eq_some {k : Nat} {p : Production} :
    (ofGrammar g).productions[k]? = some p ↔ (productionList g)[k]? = some p := by
  simp [ofGrammar]

theorem rule_mem_alternatives {k : Nat} {p : Production} (h : (ofGrammar g).productions[k]? = some p) :
    p.rule ∈ g.alternatives p.lhs :=
  mem_productionList_iff.mp (List.mem_of_getElem? (productions_ofGrammar_eq_some.mp h))

/-- Every alternative stands somewhere in the table. -/
theorem exists_production {n : String} {r : Rule} (h : r ∈ g.alternatives n) :
    ∃ (k : Nat) (p : Production), (ofGrammar g).productions[k]? = some p ∧ p.lhs = n ∧ p.rule = r := by
  have hrule : Production.rule ⟨n, (r.map Part.ofSymbol).toArray⟩ = r := by
    simp [Production.rule, Function.comp_def]
  have hmem : (⟨n, (r.map Part.ofSymbol).toArray⟩ : Production) ∈ productionList g :=
    mem_productionList_iff.mpr (hrule.symm ▸ h)
  obtain ⟨k, hk⟩ := List.getElem?_of_mem hmem
  exact ⟨k, _, productions_ofGrammar_eq_some.mpr hk, rfl, hrule⟩

theorem mem_placesOf_iff {ps : List Production} {n : String} {k : Nat} :
    k ∈ placesOf ps n ↔ ∃ p, ps[k]? = some p ∧ p.lhs = n := by
  rw [placesOf, List.mem_map]
  constructor
  · rintro ⟨⟨p, i⟩, hp, rfl⟩
    obtain ⟨hz, hn⟩ := List.mem_filter.mp hp
    exact ⟨p, List.mem_zipIdx_iff_getElem?.mp hz, of_decide_eq_true hn⟩
  · rintro ⟨p, hp, hn⟩
    exact ⟨(p, k), List.mem_filter.mpr ⟨List.mem_zipIdx_iff_getElem?.mpr hp, decide_eq_true hn⟩, rfl⟩

/-- A look-up in a table that is filled key by key. -/
theorem get?_foldl_insert (f : String → List Nat) (keys : List String) (m : Std.TreeMap String (List Nat))
    (n : String) :
    (keys.foldl (fun m k => m.insert k (f k)) m).get? n = if n ∈ keys then some (f n) else m.get? n := by
  induction keys generalizing m with
  | nil => simp
  | cons k keys ih =>
    rw [List.foldl_cons, ih]
    by_cases hn : n ∈ keys
    · simp [hn]
    · by_cases hk : k = n
      · subst hk
        simp [hn, Std.TreeMap.get?_eq_getElem?]
      · have hk' : ¬ n = k := fun e => hk e.symm
        simp [hn, hk, hk', Std.TreeMap.get?_eq_getElem?, Std.TreeMap.getElem?_insert]

/-- The places of a nonterminal are those of its productions. -/
theorem mem_alternatives_iff {n : String} {k : Nat} :
    k ∈ (ofGrammar g).alternatives n ↔ ∃ p, (ofGrammar g).productions[k]? = some p ∧ p.lhs = n := by
  have hget := get?_foldl_insert (placesOf (productionList g)) g.keys ∅ n
  have hplaces : (ofGrammar g).places =
      g.keys.foldl (fun m n => m.insert n (placesOf (productionList g) n)) ∅ := rfl
  simp only [productions_ofGrammar_eq_some]
  rw [alternatives, hplaces, hget]
  by_cases hn : n ∈ g.keys
  · rw [if_pos hn, Option.getD_some]
    exact mem_placesOf_iff
  · rw [if_neg hn]
    constructor
    · intro h
      simp [Std.TreeMap.get?_eq_getElem?] at h
    · rintro ⟨p, hp, rfl⟩
      -- a production belongs to a defined nonterminal
      have hr := mem_productionList_iff.mp (List.mem_of_getElem? hp)
      have hnone : g.get? p.lhs = none := by
        rw [Grammar.get?_eq_none_iff, ← Bool.not_eq_true]
        exact fun h => hn (OrderedMap.contains_iff_mem_keys.mp h)
      rw [Grammar.alternatives, hnone] at hr
      exact absurd hr List.not_mem_nil

variable {t : Table}

theorem part?_eq_some_iff {k dot : Nat} {x : Part} :
    t.part? k dot = some x ↔ ∃ p, t.productions[k]? = some p ∧ p.parts[dot]? = some x := by
  rw [part?]
  rcases h : t.productions[k]? with - | p <;> simp

theorem part?_of_production {k dot : Nat} {p : Production} (h : t.productions[k]? = some p) :
    t.part? k dot = p.parts[dot]? := by
  rw [part?, h]

theorem lhs_of_production {k : Nat} {p : Production} (h : t.productions[k]? = some p) : t.lhs k = p.lhs := by
  rw [lhs, h]
  rfl

/-! ### Nullable nonterminals -/

section

variable {ps : List Production}

theorem isNullablePart_mono {known more : List String} (h : known ⊆ more) {x : Part}
    (hx : isNullablePart known x = true) : isNullablePart more x = true := by
  cases x with
  | text w => exact hx
  | name n => exact List.contains_iff_mem.mpr (h (List.contains_iff_mem.mp hx))

theorem mem_nullableStep_iff {known : List String} {n : String} :
    n ∈ nullableStep ps known ↔
      ∃ p ∈ ps, p.lhs = n ∧ ∀ x ∈ p.parts.toList, isNullablePart known x = true := by
  rw [nullableStep, mem_distinct, List.mem_map]
  constructor
  · rintro ⟨p, hp, rfl⟩
    obtain ⟨hmem, hall⟩ := List.mem_filter.mp hp
    exact ⟨p, hmem, rfl, List.all_eq_true.mp hall⟩
  · rintro ⟨p, hmem, rfl, hall⟩
    exact ⟨p, List.mem_filter.mpr ⟨hmem, List.all_eq_true.mpr hall⟩, rfl⟩

theorem nullableStep_mono {known more : List String} (h : known ⊆ more) :
    nullableStep ps known ⊆ nullableStep ps more := by
  intro n hn
  obtain ⟨p, hp, hlhs, hall⟩ := mem_nullableStep_iff.mp hn
  exact mem_nullableStep_iff.mpr ⟨p, hp, hlhs, fun x hx => isNullablePart_mono h (hall x hx)⟩

theorem nullableStep_subset_lhs (known : List String) : nullableStep ps known ⊆ ps.map Production.lhs := by
  intro n hn
  obtain ⟨p, hp, hlhs, -⟩ := mem_nullableStep_iff.mp hn
  exact List.mem_map.mpr ⟨p, hp, hlhs⟩

/-- The iteration ends with a list that the step does not enlarge. -/
theorem nullableStep_nullableWithin_subset {rounds : Nat} {known : List String}
    (hsub : known ⊆ nullableStep ps known) (hnodup : known.Nodup) (hrounds : ps.length < rounds + known.length) :
    nullableStep ps (nullableWithin ps rounds known) ⊆ nullableWithin ps rounds known := by
  induction rounds generalizing known with
  | zero =>
    -- nullable nonterminals have productions, so there cannot be more of them than productions
    have hle : known.length ≤ (ps.map Production.lhs).length :=
      (hnodup.subperm fun n hn => nullableStep_subset_lhs known (hsub hn)).length_le
    rw [List.length_map] at hle
    omega
  | succ rounds ih =>
    have hperm : known.Subperm (nullableStep ps known) := hnodup.subperm hsub
    rw [nullableWithin]
    by_cases hlen : (nullableStep ps known).length = known.length
    · rw [if_pos hlen]
      intro n hn
      exact (hperm.perm_of_length_le (Nat.le_of_eq hlen)).mem_iff.mpr hn
    · rw [if_neg hlen]
      have hle := hperm.length_le
      exact ih (nullableStep_mono hsub) (nodup_distinct _) (by omega)

/-- Whatever the step keeps holds of the nonterminals that are found. -/
theorem nullableWithin_induction {P : String → Prop}
    (hstep : ∀ known, (∀ n ∈ known, P n) → ∀ n ∈ nullableStep ps known, P n)
    {rounds : Nat} {known : List String} (h : ∀ n ∈ known, P n) :
    ∀ n ∈ nullableWithin ps rounds known, P n := by
  induction rounds generalizing known with
  | zero => exact h
  | succ rounds ih =>
    rw [nullableWithin]
    split
    · exact h
    · exact ih (hstep known h)

end

theorem derives_nil_of_parts {known : List String} (h : ∀ n ∈ known, Grammar.InLanguage g n []) {xs : List Part}
    (hxs : ∀ x ∈ xs, isNullablePart known x = true) : Grammar.Derives g (xs.map Part.symbol) [] := by
  induction xs with
  | nil => exact .nil
  | cons x xs ih =>
    obtain ⟨hx, hrest⟩ := List.forall_mem_cons.mp hxs
    rw [List.map_cons, Grammar.derives_cons_iff]
    refine ⟨[], [], rfl, ?_, ih hrest⟩
    cases x with
    | text w =>
      rw [Part.symbol, Grammar.derives_terminal_iff, String.toList_ofList]
      exact (List.isEmpty_iff.mp hx).symm
    | name n => exact Grammar.derives_singleton_iff.mpr (h n (List.contains_iff_mem.mp hx))

/-- A list that the step does not enlarge holds every nonterminal that derives the empty string. -/
theorem isNullablePart_of_derives_nil {known : List String}
    (hclosed : nullableStep (productionList g) known ⊆ known) {r : Rule} (h : Grammar.Derives g r []) :
    ∀ x ∈ r, isNullablePart known (Part.ofSymbol x) = true := by
  have hpieces : Grammar.Pieces (fun x u => u = [] → isNullablePart known (Part.ofSymbol x) = true) r [] := by
    refine h.pieces (fun t ht => List.isEmpty_iff.mpr ht) ?_
    rintro n body w hb hw rfl
    obtain ⟨k, p, hp, hlhs, hrule⟩ := exists_production hb
    have hall : ∀ x ∈ p.parts.toList, isNullablePart known x = true := by
      intro x hx
      have hx' : x.symbol ∈ body := hrule ▸ List.mem_map_of_mem hx
      have hnull := hw.forall_of_nil _ hx' rfl
      rwa [Part.ofSymbol_symbol] at hnull
    have hmem : p ∈ productionList g := List.mem_of_getElem? (productions_ofGrammar_eq_some.mp hp)
    exact List.contains_iff_mem.mpr (hclosed (mem_nullableStep_iff.mpr ⟨p, hmem, hlhs, hall⟩))
  exact fun x hx => hpieces.forall_of_nil x hx rfl

/-- The nullable nonterminals are those that derive the empty string. -/
theorem mem_nullable_iff {n : String} : n ∈ (ofGrammar g).nullable ↔ Grammar.InLanguage g n [] := by
  have hclosed : nullableStep (productionList g) (ofGrammar g).nullable ⊆ (ofGrammar g).nullable :=
    nullableStep_nullableWithin_subset (List.nil_subset _) List.nodup_nil (by simp)
  constructor
  · intro h
    refine nullableWithin_induction (P := fun n => Grammar.InLanguage g n []) ?_ ?_ n h
    · intro known hknown m hm
      obtain ⟨p, hp, rfl, hall⟩ := mem_nullableStep_iff.mp hm
      exact ⟨p.rule, mem_productionList_iff.mp hp, derives_nil_of_parts hknown hall⟩
    · exact fun m hm => absurd hm List.not_mem_nil
  · intro h
    have hall := isNullablePart_of_derives_nil hclosed (Grammar.derives_singleton_iff.mpr h)
    exact List.contains_iff_mem.mp (hall (.nonterminal n) (List.mem_singleton_self _))

end Table

end Earley

end GrammarInference
