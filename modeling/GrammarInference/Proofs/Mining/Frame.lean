/-
GrammarInference/Proofs/Mining/Frame.lean

What generalization does to a grammar that was mined.

Design.  Generalization keeps what it found as long as no name of the grammar is one that it creates, and the names that
are created begin with a small letter and have no at sign.  The label of a step has an at sign, also where it was made
the name of a part of a loop, the label of a bucket begins with underscores and the start symbol is none of the names
of the library, so an extracted grammar has no such name.  The names of tokens begin with a capital letter, those for
their samples with underscores.  So both kinds of grammars come through generalization as they should.
-/
import GrammarInference.Proofs.Generalization.Frame
import GrammarInference.Proofs.Mining.Loops
import GrammarInference.Proofs.Mining.Run
import GrammarInference.Proofs.Mining.TokenFile

namespace GrammarInference

open Grammar

variable {n : String}

/-! ### Extracted grammars -/

theorem PathElement.at_mem_label (e : PathElement) : '@' ∈ e.label.toList := by
  cases e <;> simp [label, loopText, callText, String.toList_append]

/-- The name of a part of a loop has the characters of the label, up to the bracket. -/
theorem PathElement.at_mem_part (e : PathElement) :
    '@' ∈ (continueName e.label).toList ∧ '@' ∈ (exitName e.label).toList := by
  obtain ⟨u, hu⟩ := e.exists_toList_label
  have hmem : '@' ∈ e.label.toList.dropLast := by
    have hlabel := e.at_mem_label
    rw [hu, List.mem_append, List.mem_singleton] at hlabel
    rw [hu, List.dropLast_concat]
    exact hlabel.resolve_right (by decide)
  rw [toList_continueName, toList_exitName]
  exact ⟨List.mem_append_left _ hmem, List.mem_append_left _ hmem⟩

theorem not_isCreated_bucketLabel (k : Nat) : ¬IsCreated (bucketLabel k) := by
  refine not_isCreated_of_initial (c := '_') (l := "_T".toList ++ (toString k).toList ++ ['>']) ?_ (by decide)
  simp [bucketLabel, String.toList_append]

/-- No node adds to a name that is created. -/
theorem ExecutionTree.Grown.not_isCreated {P : String → Prop} {t : ExecutionTree} {a : Addition} (h : t.Grown P)
    (ha : a ∈ additions t) : ¬IsCreated a.1 := by
  rcases fst_of_mem_additions ha with hlabel | ⟨hloop, hpart⟩
  · rw [hlabel]
    cases h with
    | bucket k values => exact not_isCreated_bucketLabel k
    | step _ _ _ _ _ => exact not_isCreated_of_mem (PathElement.at_mem_label _)
  · cases h with
    | bucket k values => cases hloop
    | @step e ts _ _ _ _ _ =>
      rcases hpart with hpart | hpart
      · exact hpart ▸ not_isCreated_of_mem e.at_mem_part.1
      · exact hpart ▸ not_isCreated_of_mem e.at_mem_part.2

theorem Miner.Run.not_isCreated {config : MinerConfig} {events : List (Trace × Option ExecutionTree)} {mined : Miner}
    (hrun : Run (new config none) events mined) (hn : mined.grammar.contains n = true) : ¬IsCreated n := by
  obtain ⟨a, ha, rfl⟩ := List.mem_map.mp (((hrun.mines rfl looped_empty).contains_iff n).mp hn)
  obtain ⟨e, he, ha⟩ := List.mem_flatMap.mp ha
  obtain ⟨root, hroot, ha⟩ := List.mem_flatMap.mp ha
  obtain ⟨hgrown, -⟩ := hrun.grown rfl e he root (Option.mem_toList.mp hroot)
  rcases List.mem_cons.mp ha with rfl | ha
  · exact not_isCreated_startName
  · obtain ⟨t, ht, ha⟩ := List.mem_flatMap.mp ha
    exact (hgrown.of_mem_levels ht).not_isCreated ha

/-! ### Token grammars -/

theorem TokenMiner.not_isCreated {m : TokenMiner} (hn : m.rawGrammar.contains n = true) : ¬IsCreated n := by
  obtain ⟨e, he, rfl⟩ := List.mem_map.mp (OrderedMap.contains_iff_mem_keys.mp hn)
  obtain ⟨id, -, hmem⟩ := List.mem_flatMap.mp (OrderedMap.mem_of_mem_entries_ofList he)
  rcases List.mem_pair.mp hmem with rfl | rfl
  · refine not_isCreated_of_initial (c := '_') (l := "_external_".toList ++ id.toList ++ ['>']) ?_ (by decide)
    simp [externalName, String.toList_append]
  · refine not_isCreated_of_initial (c := 'T') (l := "OK_".toList ++ id.toList ++ ['>']) ?_ (by decide)
    simp [tokenName, String.toList_append]

/-! ### Generalization -/

namespace Generalizer

/-- **Generalization touches tokens only.**  Let none of the names of a grammar be one that the library or the
generalizer creates, and let the grammar be generalized, from whatever state.  Every name that is no token keeps its
definition, all tokens are defined, and all other names are created.  If no name was undefined, none is.  The result is
laid together from one part for each entry; no part changes a definition that it is laid over, for any number of
tokens, and all definitions of all parts are found in the result.  Extracted grammars have none of these names, with
their loops mended or not, and neither have the grammars of samples of tokens. -/
theorem generalize_touches_tokens :
    (∀ (gen : Generalizer) (g g' : Grammar) (alphabets : OrderedMap String (SortedSet Char)),
      (∀ n, g.contains n = true → ¬IsCreated n) → gen.generalize g alphabets = .ok g' →
      (∀ n, g.contains n = true → isExternal n = false → g'.get? n = g.get? n) ∧
      (∀ n, g.contains n = true → isExternal n = true → g'.contains n = true) ∧
      (∀ n, g'.contains n = true → g.contains n = true ∨ IsCreated n) ∧
      (g.undefinedNames.isEmpty = true → g'.undefinedNames.isEmpty = true) ∧
      ∃ gs, gen.parts g alphabets = .ok gs ∧ g' = overlayAll gs ∧
        (∀ earlier part later, gs = earlier ++ part :: later → ∀ n rs, (overlayAll earlier).get? n = some rs →
          ((overlayAll earlier).overlay part).get? n = some rs) ∧
        ∀ part ∈ gs, ∀ n rs, part.get? n = some rs → g'.get? n = some rs) ∧
    (∀ config events mined, Miner.Run (Miner.new config none) events mined →
      (∀ n, mined.grammar.contains n = true → ¬IsCreated n) ∧
      ∀ n, (fixLoops mined.grammar).1.contains n = true → ¬IsCreated n) ∧
    ∀ (m : TokenMiner) n, m.rawGrammar.contains n = true → ¬IsCreated n := by
  refine ⟨fun gen g g' alphabets hfree h => ⟨?_, ?_, ?_, ?_, ?_⟩, fun config events mined hrun => ⟨?_, ?_⟩, ?_⟩
  · exact fun n => get?_generalize hfree h
  · exact fun n hn _ => contains_generalize h hn
  · exact fun n => isCreated_of_contains_generalize h
  · exact isEmpty_undefinedNames_generalize h
  · obtain ⟨gs, hgs, hresult⟩ := exists_parts h
    refine ⟨gs, hgs, hresult, fun earlier part later hsplit n rs => ?_, fun part hpart n rs => ?_⟩
    · exact get?_overlay_part hfree (hsplit ▸ hgs)
    · exact get?_generalize_part hfree h hgs hpart
  · exact fun n => hrun.not_isCreated
  · have hlooped : Looped mined.grammar := (hrun.mines rfl looped_empty).looped looped_empty
    exact fun n hn => hrun.not_isCreated ((fixLoops_spec hlooped).2 n hn)
  · exact fun m n => TokenMiner.not_isCreated

/-- A text of two tokens, with all digits. -/
def digitTokens : Grammar := .ofList
  [("<start>", [[.nonterminal "<__external_1>", .nonterminal "<__external_2>"]]),
   ("<__external_1>", [[.terminal "0123456789"]]), ("<__external_2>", [[.terminal "9876543210"]])]

/-- Settings by which a single sample is replaced by a pattern. -/
def eachSample : GeneralizeConfig := { samples := 1, thresholdGeneralization := 0 }

/-- Both tokens become runs of digits, which their fragments define alike. -/
theorem generalize_touches_digitTokens :
    (∀ n, digitTokens.contains n = true → ¬IsCreated n) ∧ digitTokens.undefinedNames.isEmpty = true ∧
    ∃ g', (new eachSample).generalize digitTokens ∅ = .ok g' ∧ g'.get? "<start>" = digitTokens.get? "<start>" ∧
      g'.contains "<__external_1>" = true ∧ g'.contains "<__external_2>" = true ∧
      g'.undefinedNames.isEmpty = true ∧
      ∃ gs, (new eachSample).parts digitTokens ∅ = .ok gs ∧
        gs.map (fun part => part.contains "<digits>") = [false, true, true] ∧
        ∀ part ∈ gs, ∀ n rs, part.get? n = some rs → g'.get? n = some rs := by
  have hfree : ∀ n, digitTokens.contains n = true → ¬IsCreated n := by
    intro n hn
    have hkeys : n ∈ ["<start>", "<__external_1>", "<__external_2>"] := OrderedMap.contains_iff_mem_keys.mp hn
    simp only [List.mem_cons, List.not_mem_nil, or_false] at hkeys
    rcases hkeys with rfl | rfl | rfl
    · exact not_isCreated_startName
    · exact not_isCreated_of_initial (c := '_') rfl (by decide)
    · exact not_isCreated_of_initial (c := '_') rfl (by decide)
  have hdefined : digitTokens.undefinedNames.isEmpty = true := by decide +kernel
  have hshared : ((new eachSample).parts digitTokens ∅).toOption.map
      (fun gs => gs.map fun part => part.contains "<digits>") = some [false, true, true] := by decide +kernel
  rcases hparts : (new eachSample).parts digitTokens ∅ with e | gs
  · rw [hparts] at hshared
    cases hshared
  · rw [hparts] at hshared
    have hresult : (new eachSample).generalize digitTokens ∅ = .ok (overlayAll gs) := by
      rw [generalize_eq, hparts]
      rfl
    obtain ⟨hkept, htokens, -, hundefined, gs', hgs', -, -, hfound⟩ :=
      generalize_touches_tokens.1 _ _ _ _ hfree hresult
    obtain rfl : gs = gs' := Except.ok.inj (hparts.symm.trans hgs')
    exact ⟨hfree, hdefined, overlayAll gs, hresult, hkept "<start>" (by decide) (by decide),
      htokens "<__external_1>" (by decide) (by decide), htokens "<__external_2>" (by decide) (by decide),
      hundefined hdefined, gs, rfl, Option.some.inj hshared, hfound⟩

end Generalizer

end GrammarInference
