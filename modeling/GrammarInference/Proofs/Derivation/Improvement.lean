/-
GrammarInference/Proofs/Derivation/Improvement.lean

Heights may be improved one by one, in any order.

Design.  What is known of the heights is a number, or nothing, for each alternative (`Estimates`).  An improvement
computes the height of one alternative from what is known by then, and keeps it if it is smaller than what is known
of it.  A number can become smaller only so often, and nothing becomes a number only once, so improvements end in
whatever order they are made (`improves_wf`).  Whatever is known on the way is realized by a derivation
(`Realized.improveAt`), and where nothing can be improved any more, all that is realized is known.  So every order
ends with the heights that rounds of simultaneous improvement end with, and sweeps through the grammar do.
-/
import GrammarInference.Proofs.Derivation.Productivity
import Mathlib.Data.DFinsupp.WellFounded
import Mathlib.Order.WithBot

namespace GrammarInference

namespace Height

variable {h h' : Height}

/-- Heights that keep the same bounds are equal. -/
theorem eq_of_atMost_iff (heq : ∀ k, h.AtMost k ↔ h'.AtMost k) : h = h' := by
  cases h with
  | none =>
    cases h' with
    | none => rfl
    | some b => exact absurd ((heq b).mpr ⟨b, rfl, Nat.le_refl b⟩) atMost_none
  | some a =>
    obtain ⟨b, rfl, hba⟩ := (heq a).mp ⟨a, rfl, Nat.le_refl a⟩
    have hab := atMost_some.mp ((heq b).mpr ⟨b, rfl, Nat.le_refl b⟩)
    rw [Nat.le_antisymm hab hba]

/-- A height as a number that may be infinite. -/
def toWithTop (h : Height) : WithTop Nat := h

theorem toWithTop_le (hle : ∀ k, h.AtMost k → h'.AtMost k) : h'.toWithTop ≤ h.toWithTop := by
  cases h with
  | none => exact le_top
  | some a =>
    obtain ⟨b, rfl, hba⟩ := hle a ⟨a, rfl, Nat.le_refl a⟩
    exact WithTop.coe_le_coe.mpr hba

end Height

namespace Grammar

variable {g : Grammar} {n : String} {i k : Nat} {r : Rule}

/-! ### One improvement -/

/-- What is known of the height of each alternative, by its nonterminal and its place. -/
abbrev Estimates := String → Nat → Height

variable {known better : Estimates}

/-- The least height that is known of an alternative of `n`. -/
def leastKnown (g : Grammar) (known : Estimates) (n : String) : Height :=
  Height.minimum ((List.range (g.alternatives n).length).map (known n))

/-- The alternatives in order, each with its nonterminal and its place. -/
def places (g : Grammar) : List (String × Nat × Rule) :=
  g.entries.flatMap fun e => e.2.zipIdx.map fun a => (e.1, a.2, a.1)

theorem mem_places_iff : (n, i, r) ∈ g.places ↔ (g.alternatives n)[i]? = some r := by
  rw [places, List.mem_flatMap]
  constructor
  · rintro ⟨⟨m, rs⟩, he, hmem⟩
    obtain ⟨⟨r', j⟩, ha, heq⟩ := List.mem_map.mp hmem
    cases heq
    rw [alternatives, OrderedMap.get?_eq_some_iff.mpr he]
    exact List.mem_zipIdx_iff_getElem?.mp ha
  · intro h
    rcases hget : g.get? n with - | rs
    · rw [alternatives, hget] at h
      cases h
    · rw [alternatives, hget] at h
      refine ⟨(n, rs), OrderedMap.get?_eq_some_iff.mp hget, ?_⟩
      exact List.mem_map.mpr ⟨(r, i), List.mem_zipIdx_iff_getElem?.mpr h, rfl⟩

/-- Computes the height of one alternative from what is known, and keeps the smaller one. -/
def improveAt (g : Grammar) (known : Estimates) : String × Nat × Rule → String → Nat → Height
  | (n, i, r), m, j =>
    if m = n ∧ j = i then Height.min (known n i) (ruleHeight (g.leastKnown known) r) else known m j

theorem atMost_improveAt {m : String} {j : Nat} : (g.improveAt known (n, i, r) m j).AtMost k ↔
    (known m j).AtMost k ∨ (m = n ∧ j = i) ∧ (ruleHeight (g.leastKnown known) r).AtMost k := by
  rw [improveAt]
  split
  · rename_i heq
    obtain ⟨rfl, rfl⟩ := heq
    rw [Height.atMost_min]
    simp
  · rename_i hne
    simp [hne]

/-- Something is improved at one alternative. -/
def Improves (g : Grammar) (known better : Estimates) : Prop :=
  better ≠ known ∧ ∃ s ∈ g.places, better = g.improveAt known s

/-- What is known at the places of a grammar, as numbers that may be infinite. -/
def measureOf (g : Grammar) (known : Estimates) (x : Fin g.places.length) : WithTop Nat :=
  (known g.places[x].1 g.places[x].2.1).toWithTop

theorem Improves.measureOf_lt (h : Improves g known better) : g.measureOf better < g.measureOf known := by
  obtain ⟨hne, ⟨n, i, r⟩, hs, rfl⟩ := h
  refine lt_of_le_of_ne (fun x => Height.toWithTop_le fun k hk => atMost_improveAt.mpr (.inl hk)) fun heq => hne ?_
  obtain ⟨x, hx, hget⟩ := List.getElem_of_mem hs
  have hplace := congrFun heq ⟨x, hx⟩
  simp only [measureOf, Fin.getElem_fin, hget] at hplace
  funext m j
  by_cases hmj : m = n ∧ j = i
  · obtain ⟨rfl, rfl⟩ := hmj
    exact hplace
  · rw [improveAt, if_neg hmj]

/-- **Improvements end**, in whatever order they are made. -/
theorem improves_wf (g : Grammar) : WellFounded (Function.swap (Improves g)) :=
  Subrelation.wf (fun h => h.measureOf_lt) (InvImage.wf g.measureOf wellFounded_lt)

/-! ### Sweeps -/

/-- Every alternative is improved in its turn, with what is known by then. -/
def sweep (g : Grammar) (known : Estimates) : Estimates := g.places.foldl g.improveAt known

/-- A turn improves something, or changes nothing. -/
theorem improveAt_cases {s : String × Nat × Rule} (hs : s ∈ g.places) (known : Estimates) :
    g.improveAt known s = known ∨ Improves g known (g.improveAt known s) := by
  by_cases heq : g.improveAt known s = known
  · exact .inl heq
  · exact .inr ⟨heq, s, hs, rfl⟩

theorem foldl_improveAt_improves {l : List (String × Nat × Rule)} (hl : l ⊆ g.places) (known : Estimates) :
    Relation.ReflTransGen (Improves g) known (l.foldl g.improveAt known) := by
  induction l generalizing known with
  | nil => exact .refl
  | cons s l ih =>
    obtain ⟨hs, hl⟩ := List.cons_subset.mp hl
    have hrest := ih hl (g.improveAt known s)
    rcases improveAt_cases hs known with heq | himp
    · rw [heq] at hrest
      rwa [List.foldl_cons, heq]
    · exact .head himp hrest

theorem iterate_sweep_improves (g : Grammar) (j : Nat) (known : Estimates) :
    Relation.ReflTransGen (Improves g) known (g.sweep^[j] known) := by
  induction j generalizing known with
  | zero => exact .refl
  | succ j ih => exact (foldl_improveAt_improves (List.Subset.refl g.places) known).trans (ih (g.sweep known))

/-- Improvements do not lead back. -/
theorem not_improves_back (himp : Improves g known better) (hback : Relation.ReflTransGen (Improves g) better known) :
    False :=
  (improves_wf g).transGen.irrefl.irrefl known (Relation.transGen_swap.mpr (.head' himp hback))

/-- A sweep that changes nothing shows that nothing can be improved. -/
theorem not_improves_of_sweep_eq (h : g.sweep known = known) : ¬Improves g known better := by
  have hfold : ∀ l ⊆ g.places, l.foldl g.improveAt known = known → ∀ s ∈ l, g.improveAt known s = known := by
    intro l
    induction l with
    | nil => exact fun _ _ s hs => absurd hs List.not_mem_nil
    | cons s l ih =>
      intro hl heq
      obtain ⟨hs, hl⟩ := List.cons_subset.mp hl
      rcases improveAt_cases hs known with hsame | himp
      · rw [List.foldl_cons, hsame] at heq
        exact List.forall_mem_cons.mpr ⟨hsame, ih hl heq⟩
      · have hback := foldl_improveAt_improves hl (g.improveAt known s)
        rw [← List.foldl_cons, heq] at hback
        exact absurd hback (not_improves_back himp)
  rintro ⟨hne, s, hs, rfl⟩
  exact hne (hfold g.places (List.Subset.refl _) h s hs)

/-- **Sweeps end**: after some of them, one more changes nothing. -/
theorem exists_sweep_eq (g : Grammar) (known : Estimates) : ∃ j, g.sweep (g.sweep^[j] known) = g.sweep^[j] known := by
  induction known using (improves_wf g).transGen.induction with
  | h known ih =>
    rcases Relation.reflTransGen_iff_eq_or_transGen.mp (foldl_improveAt_improves (List.Subset.refl g.places) known) with
      hsame | himp
    · exact ⟨0, hsame⟩
    · obtain ⟨j, hj⟩ := ih (g.sweep known) (Relation.transGen_swap.mpr himp)
      exact ⟨j + 1, hj⟩

/-! ### Where improvements end -/

/-- Whatever is known is realized: the alternative has a derivation within the height. -/
def Realized (g : Grammar) (known : Estimates) : Prop :=
  ∀ n i r k, (g.alternatives n)[i]? = some r → (known n i).AtMost k → (Generator.heightOf g r).AtMost k

theorem Realized.endsWithin (h : Realized g known) (hk : (g.leastKnown known n).AtMost k) : EndsWithin g k n := by
  obtain ⟨a, ha, hak⟩ := Height.atMost_minimum.mp hk
  obtain ⟨i, hi, rfl⟩ := List.mem_map.mp ha
  have hget := List.getElem?_eq_getElem (List.mem_range.mp hi)
  have hheight := h n i _ k hget hak
  cases k with
  | zero => exact absurd hheight not_atMost_ruleHeight_zero
  | succ k => exact ⟨_, List.mem_of_getElem? hget, Generator.atMost_heightOf.mp hheight⟩

theorem Realized.improveAt (h : Realized g known) {s : String × Nat × Rule} (hs : s ∈ g.places) :
    Realized g (g.improveAt known s) := by
  obtain ⟨n, i, r⟩ := s
  intro m j r' k hr' hk
  rcases atMost_improveAt.mp hk with hold | ⟨⟨rfl, rfl⟩, hnew⟩
  · exact h m j r' k hr' hold
  · obtain rfl : r = r' := Option.some.inj ((mem_places_iff.mp hs).symm.trans hr')
    cases k with
    | zero => exact absurd hnew not_atMost_ruleHeight_zero
    | succ k => exact Generator.atMost_heightOf.mpr fun m hm => h.endsWithin (atMost_ruleHeight.mp hnew m hm)

theorem Realized.of_improves (h : Realized g known) (himp : Relation.ReflTransGen (Improves g) known better) :
    Realized g better := by
  induction himp with
  | refl => exact h
  | tail _ hstep ih =>
    obtain ⟨-, s, hs, rfl⟩ := hstep
    exact ih.improveAt hs

/-- Where nothing can be improved, all that is realized is known. -/
theorem atMost_of_not_improves (hend : ∀ better, ¬Improves g known better) (hr : (g.alternatives n)[i]? = some r)
    (hk : (Generator.heightOf g r).AtMost k) : (known n i).AtMost k := by
  induction k generalizing n i r with
  | zero => exact absurd hk not_atMost_ruleHeight_zero
  | succ k ih =>
    have hleast : ∀ m, Symbol.nonterminal m ∈ r → (g.leastKnown known m).AtMost k := by
      intro m hm
      have hends := Generator.atMost_heightOf.mp hk m hm
      cases k with
      | zero => exact absurd hends id
      | succ k =>
        obtain ⟨r', hr', hends⟩ := hends
        obtain ⟨j, hj⟩ := List.getElem?_of_mem hr'
        have hknown := ih hj (Generator.atMost_heightOf.mpr hends)
        have hplace := List.mem_range.mpr (List.getElem?_eq_some_iff.mp hj).1
        exact Height.atMost_minimum.mpr ⟨known m j, List.mem_map_of_mem hplace, hknown⟩
    -- so the height of the alternative is known, or could be improved
    have himproved : (g.improveAt known (n, i, r) n i).AtMost (k + 1) :=
      atMost_improveAt.mpr (.inr ⟨⟨rfl, rfl⟩, atMost_ruleHeight.mpr hleast⟩)
    rcases improveAt_cases (mem_places_iff.mpr hr) known with heq | himp
    · rwa [heq] at himproved
    · exact absurd himp (hend _)

/-- **Every order of improvements ends in the same heights**: those that simultaneous rounds end in. -/
theorem eq_heightOf_of_not_improves
    (himp : Relation.ReflTransGen (Improves g) (fun _ _ => none) known) (hend : ∀ better, ¬Improves g known better)
    (hr : (g.alternatives n)[i]? = some r) : known n i = Generator.heightOf g r := by
  have hnothing : Realized g fun _ _ => none := fun _ _ _ _ _ hk => absurd hk Height.atMost_none
  exact Height.eq_of_atMost_iff fun k =>
    ⟨(hnothing.of_improves himp) n i r k hr, atMost_of_not_improves hend hr⟩

end Grammar

end GrammarInference
