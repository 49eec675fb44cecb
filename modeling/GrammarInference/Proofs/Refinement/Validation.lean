/-
GrammarInference/Proofs/Refinement/Validation.lean

The validation of an update is exact, and remembers why an update was refused.

Design.  A check reads the remembered inputs before the confirmed ones, which only makes it faster: as long as every
remembered input is confirmed, all that is checked is confirmed and everything confirmed is checked, so the verdict
does not depend on what is remembered.  Without a deadline a check names the first input that is not derived
(`checkInputs_first`).  If that is a remembered one, then nothing changes; otherwise all remembered inputs are derived,
the input is a shortest one of the confirmed inputs that are lost, and it is remembered.
-/
import GrammarInference.Proofs.Refinement.Candidates

namespace GrammarInference

namespace Refiner

variable {σ : Type} {r : Refiner σ} {g update : Grammar}

/-- The input is not derived by the grammar with the update merged in. -/
def Loses (g update : Grammar) (w : String) : Prop := ¬Grammar.InLanguage (g.overlay update) startName w.toList

/-! ### The order of inputs -/

/-- In a list that is put in the order of lengths, what stands before an input is no longer. -/
theorem length_le_of_byLength {l before rest : List String} {w : String} (h : Sample.byLength l = before ++ w :: rest) :
    ∀ v ∈ l, v ∈ before ∨ w.length ≤ v.length := by
  have hsorted : (Sample.byLength l).Pairwise fun a b => a.length ≤ b.length := pairwise_mergeSort_key String.length l
  intro v hv
  have hv : v ∈ Sample.byLength l := List.mem_mergeSort.mpr hv
  rw [h] at hsorted hv
  obtain ⟨-, hrest, -⟩ := List.pairwise_append.mp hsorted
  rcases List.mem_append.mp hv with hv | hv
  · exact .inl hv
  · rcases List.mem_cons.mp hv with rfl | hv
    · exact .inr (Nat.le_refl _)
    · exact .inr ((List.pairwise_cons.mp hrest).1 v hv)

/-! ### What a check changes -/

/-- The input is lost, and it is remembered, perhaps since before; if it is new, then no remembered input is lost, and
no shorter confirmed one. -/
structure Remembers (r : Refiner σ) (g update : Grammar) (w : String) (r' : Refiner σ) : Prop where
  /-- The input is lost. -/
  loses : Loses g update w
  /-- The input is confirmed, or it was remembered before. -/
  knows : r.Knows w
  /-- It is remembered, and nothing else changes. -/
  eq : r' = { r with discriminating := r.discriminating.insert w }
  /-- A new entry is a shortest one, and it was needed. -/
  needed : w ∉ r.discriminating → ∀ v, r.Knows v → Loses g update v → v ∉ r.discriminating ∧ w.length ≤ v.length

/-- Without a deadline an update is let through if it loses no known input, and nothing changes; or else one that is
lost is remembered. -/
theorem isUnderapproximating_cases (hdeadline : r.parseDeadline = .never) (g update : Grammar) :
    r.isUnderapproximating g update = (false, r) ∧ (∀ w, r.Knows w → ¬Loses g update w) ∨
      ∃ w r', r.isUnderapproximating g update = (true, r') ∧ r.Remembers g update w r' := by
  rw [isUnderapproximating, hdeadline]
  rcases checkInputs_first (g.overlay update) (max r.config.stopAfterTimeouts 1) 0 r.checklist with
    ⟨hfind, hall⟩ | ⟨before, w, rest, hlist, hfind, hout, hbefore⟩
  · left
    simp only [hfind, true_and]
    exact fun w hw => not_not_intro (hall w (mem_checklist_iff.mpr hw))
  · right
    simp only [hfind]
    have hknows : r.Knows w := mem_checklist_iff.mp (hlist ▸ List.mem_append_right _ List.mem_cons_self)
    refine ⟨w, _, rfl, hout, hknows, rfl, fun hnew v hv hlost => ?_⟩
    have hv' : v ∉ before := fun hmem => hlost (hbefore v hmem)
    -- the input is new, so it stands in the second part of the list, behind all that were remembered
    rcases List.append_eq_append_iff.mp hlist with ⟨front, rfl, hconfirmed⟩ | ⟨back, hremembered, hback⟩
    · have hnot : v ∉ r.discriminating := fun hmem => hv' (List.mem_append_left _ hmem)
      refine ⟨hnot, (length_le_of_byLength hconfirmed v (hv.resolve_left hnot)).resolve_left fun hmem => ?_⟩
      exact hv' (List.mem_append_right _ hmem)
    · cases back with
      | nil =>
        rw [List.append_nil] at hremembered
        have hnot : v ∉ r.discriminating := fun hmem => hv' (hremembered ▸ hmem)
        have hfirst : Sample.byLength r.confirmed.toList = [] ++ w :: rest := hback.symm
        exact ⟨hnot, (length_le_of_byLength hfirst v (hv.resolve_left hnot)).resolve_left List.not_mem_nil⟩
      | cons a back =>
        obtain ⟨rfl, -⟩ := List.cons.inj hback
        have hold : w ∈ r.discriminating.toList := hremembered ▸ List.mem_append_right _ List.mem_cons_self
        exact absurd hold hnew

/-- **Validation is exact, and remembers its witness.**  Let no parse run out of time, and let all remembered inputs be
confirmed ones.  An update is refused exactly if the grammar with the update merged in does not derive some confirmed
input, whatever inputs are remembered and in whatever order.  If it is let through, nothing changes.  If it is refused,
then an input that is not derived is remembered, and at most this one entry is new; an entry is only added if all
remembered inputs are derived, and it is a shortest confirmed one that is not.  Nothing else about the refiner
changes, so that all remembered inputs are again confirmed ones. -/
theorem validation_exact (hdeadline : r.parseDeadline = .never) (hcache : ∀ w ∈ r.discriminating, w ∈ r.confirmed)
    (g update : Grammar) : ∃ refused r', r.isUnderapproximating g update = (refused, r') ∧
      (refused = true ↔ ∃ w ∈ r.confirmed, ¬Grammar.InLanguage (g.overlay update) startName w.toList) ∧
      (∀ cache : OrderedSet String, (∀ w ∈ cache, w ∈ r.confirmed) →
        ({ r with discriminating := cache }.isUnderapproximating g update).1 = refused) ∧
      (refused = false → r' = r) ∧
      (refused = true → ∃ w ∈ r'.discriminating, ¬Grammar.InLanguage (g.overlay update) startName w.toList ∧
        (r' = r ∨
          w ∉ r.discriminating ∧ r'.discriminating.toList = r.discriminating.toList ++ [w] ∧
            r' = { r with discriminating := r'.discriminating } ∧
            (∀ v ∈ r.discriminating, Grammar.InLanguage (g.overlay update) startName v.toList) ∧
            ∀ v ∈ r.confirmed, v.length < w.length → Grammar.InLanguage (g.overlay update) startName v.toList)) ∧
      r'.confirmed = r.confirmed ∧ ∀ w ∈ r'.discriminating, w ∈ r'.confirmed := by
  -- the verdict of a check, whatever is remembered
  have hverdict : ∀ cache : OrderedSet String, (∀ w ∈ cache, w ∈ r.confirmed) →
      (({ r with discriminating := cache }.isUnderapproximating g update).1 = true ↔
        ∃ w ∈ r.confirmed, Loses g update w) := by
    intro cache hcache
    have hdeadline' : { r with discriminating := cache }.parseDeadline = .never := hdeadline
    rcases isUnderapproximating_cases hdeadline' g update with ⟨heq, hnone⟩ | ⟨w, r', heq, hw⟩
    · rw [heq]
      exact ⟨nofun, fun ⟨w, hw, hlost⟩ => absurd hlost (hnone w (.inr hw))⟩
    · rw [heq]
      exact ⟨fun _ => ⟨w, hw.knows.elim (hcache w) id, hw.loses⟩, fun _ => rfl⟩
  have hexact : (r.isUnderapproximating g update).1 = true ↔ ∃ w ∈ r.confirmed, Loses g update w :=
    hverdict r.discriminating hcache
  have hindependent : ∀ cache : OrderedSet String, (∀ w ∈ cache, w ∈ r.confirmed) →
      ({ r with discriminating := cache }.isUnderapproximating g update).1 = (r.isUnderapproximating g update).1 :=
    fun cache hcache' => Bool.eq_iff_iff.mpr ((hverdict cache hcache').trans hexact.symm)
  rcases isUnderapproximating_cases hdeadline g update with ⟨heq, -⟩ | ⟨w, r', heq, hw⟩
  · rw [heq] at hexact hindependent
    exact ⟨false, r, heq, hexact, hindependent, fun _ => rfl, nofun, rfl, hcache⟩
  · rw [heq] at hexact hindependent
    obtain ⟨hlost, hknows, rfl, hneeded⟩ := hw
    have hconfirmed : w ∈ r.confirmed := hknows.elim (hcache w) id
    have hmem : w ∈ r.discriminating.insert w := OrderedSet.mem_insert.mpr (.inr rfl)
    refine ⟨true, _, heq, hexact, hindependent, nofun, fun _ => ⟨w, hmem, hlost, ?_⟩, rfl, fun v hv => ?_⟩
    · by_cases hold : w ∈ r.discriminating
      · exact .inl (by rw [OrderedSet.insert_of_mem hold])
      · refine .inr ⟨hold, OrderedSet.toList_insert_of_not_mem hold, rfl, fun v hv => ?_, fun v hv hlt => ?_⟩
        · exact not_not.mp fun hlost' => (hneeded hold v (.inl hv) hlost').1 hv
        · exact not_not.mp fun hlost' => Nat.not_le_of_lt hlt (hneeded hold v (.inr hv) hlost').2
    · rcases OrderedSet.mem_insert.mp hv with hv | rfl
      · exact hcache v hv
      · exact hconfirmed

/-- A refiner that knows two valid inputs, and remembers neither of them. -/
def twoKnown : Refiner Unit := addValid (new (.ofFunction fun _ => .accept) () {} false []) ["b", "aab"]

/-- Words over two letters. -/
def twoLetters : Grammar :=
  .ofList [(startName, [[.nonterminal "<x>", .nonterminal startName], [.nonterminal "<x>"]]),
    ("<x>", [[.terminal "a"], [.terminal "b"]])]

/-- An update that leaves out a letter is refused, and the shorter input that shows it is remembered. -/
theorem validation_of_twoLetters : twoKnown.parseDeadline = .never ∧
    (∀ w ∈ twoKnown.discriminating, w ∈ twoKnown.confirmed) ∧
    ∃ r', twoKnown.isUnderapproximating twoLetters (.ofList [("<x>", [[.terminal "a"]])]) = (true, r') ∧
      r'.discriminating.toList = ["b"] ∧ ∃ w ∈ r'.confirmed, w ∈ r'.discriminating := by
  have hcache : ∀ w ∈ twoKnown.discriminating, w ∈ twoKnown.confirmed := nofun
  have hshorter : "b".length < "aab".length := by decide
  have hsorted : Sample.byLength ["aab", "b"] = ["b", "aab"] := by
    simp [Sample.byLength, List.mergeSort, hshorter]
  have hlist : twoKnown.checklist = ["b", "aab"] := hsorted
  have hfind : checkInputs (.ofGrammar (twoLetters.overlay (.ofList [("<x>", [[.terminal "a"]])]))) .never 1 0
      ["b", "aab"] = .rejects "b" := by decide +kernel
  have hrun : twoKnown.isUnderapproximating twoLetters (.ofList [("<x>", [[.terminal "a"]])]) =
      (true, { twoKnown with discriminating := twoKnown.discriminating.insert "b" }) := by
    rw [isUnderapproximating, hlist]
    simp only [show twoKnown.parseDeadline = .never from rfl, show max twoKnown.config.stopAfterTimeouts 1 = 1 from rfl,
      hfind]
  obtain ⟨refused, r', heq, -, -, -, hrefused, -, hconfirmed⟩ :=
    validation_exact (r := twoKnown) rfl hcache twoLetters (.ofList [("<x>", [[.terminal "a"]])])
  obtain ⟨rfl, rfl⟩ := Prod.mk.inj (heq.symm.trans hrun)
  obtain ⟨w, hw, -⟩ := hrefused rfl
  exact ⟨rfl, hcache, _, heq, rfl, w, hconfirmed w hw, hw⟩

end Refiner

end GrammarInference
