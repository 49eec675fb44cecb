/-
GrammarInference/Proofs/Mining/Finish.lean

Mining establishes what the final check asks for.

Design.  Every stage takes over from the one before that nothing is left undefined, that no alternative is listed
twice and that the start symbol is defined, so the check at the end cannot fail; it is made because a token grammar
could bring in anything, and the statements are about miners of bytes.  What is left are failures of another kind:
a file cannot be written, a token derives no string, or tidying is cut off (`Finishes`).

    traces  →  raw grammar  →  loops mended  →  tokens generalized  →  tidied  →  pruned  →  checked
-/
import GrammarInference.Proofs.Generalization.Complete
import GrammarInference.Proofs.Grammar.Merging
import GrammarInference.Proofs.Mining.Complete
import GrammarInference.Proofs.Mining.Miner

namespace GrammarInference

open Grammar ExecutionTree

variable {g : Grammar} {root : ExecutionTree}

/-- The errors about a grammar, or an expression of a pattern, that is not well formed. -/
def Error.IsMalformed : Error → Prop
  | .missingStart | .danglingNonterminals _ | .duplicateAlternative _ | .malformedRegex => True
  | _ => False

namespace Miner

variable {mined : Miner} {config : MinerConfig} {events : List (Trace × Option ExecutionTree)} {t : Trace}

/-- Tokens are generalized to a complete grammar with a start symbol, or one of them derives no string. -/
theorem Run.withTokens (hrun : Run (new config none) events mined) (hroot : (t, some root) ∈ events) :
    (∃ g, mined.withTokens (fixLoops mined.grammar).1 = .ok g ∧ g.Complete ∧ g.contains startName = true) ∨
      ∃ n, mined.withTokens (fixLoops mined.grammar).1 = .error (.unproductive n) := by
  have hlooped : Looped mined.grammar := (hrun.mines rfl looped_empty).looped looped_empty
  have hfixed := (hrun.mendable hroot).fixLoops hlooped
  have hbytes : mined.tokens? = none := hrun.tokens? rfl
  have hgeneralizes := Generalizer.generalize_complete hfixed.complete (.new mined.config.generalize) ∅
  rw [Miner.withTokens, hbytes]
  rcases hresult : (Generalizer.new mined.config.generalize).generalize (fixLoops mined.grammar).1 ∅ with e | g
  · rw [hresult] at hgeneralizes
    obtain ⟨n, rfl⟩ := hgeneralizes
    exact .inr ⟨n, rfl⟩
  · rw [hresult] at hgeneralizes
    exact .inl ⟨g, rfl, hgeneralizes.1, hgeneralizes.2 startName hfixed.start⟩

/-- A complete grammar with a start symbol passes the check when it is pruned, tidied or not. -/
theorem validate_pruneUnreachable (hg : g.Complete) (hs : g.contains startName = true) :
    (g.pruneUnreachable startName).validate = .ok () ∧ ∀ passes rounds g', tidyWithin passes rounds g = some g' →
      (Grammar.pruneUnreachable g' startName).validate = .ok () := by
  constructor
  · exact validate_eq_ok_iff.mpr (hg.valid hs).pruneUnreachable
  · intro passes rounds g' htidy
    exact validate_eq_ok_iff.mpr (hg.valid_tidyWithin hs htidy).pruneUnreachable

/-- A grammar that passes the check, or an error that speaks of no grammar and no expression. -/
def Finishes : Except Error Grammar → Prop
  | .ok g => g.validate = .ok ()
  | .error e => e = .unwritable ∨ (∃ n, e = .unproductive n) ∨ e = .unsettledTidying

theorem polish_finishes (m : Miner) (hg : g.Complete) (hs : g.contains startName = true) : Finishes (m.polish g) := by
  obtain ⟨hplain, htidied⟩ := validate_pruneUnreachable hg hs
  rw [polish]
  rcases htidy : (if m.config.simplify then Grammar.tidy g else some g) with - | g₁
  · exact .inr (.inr rfl)
  · have hvalid : (Grammar.pruneUnreachable g₁ startName).validate = .ok () := by
      split at htidy
      · exact htidied _ _ g₁ htidy
      · cases htidy
        exact hplain
    simp only [hvalid]
    exact hvalid

/-- Finishing fails only where a file cannot be written, where a token derives no string, or where tidying is cut
off. -/
theorem Run.finishes (hrun : Run (new config none) events mined) (hroot : (t, some root) ∈ events)
    (directories : List String) : Finishes (mined.finish directories).1 := by
  have hunwritable : ∀ {s : Snapshots} {name : String} {g : Grammar} {e : Error}, s.save name g = .error e →
      Finishes (.error e) := fun h => .inl ((Snapshots.save_eq_error_iff _ _ _ _).mp h).2
  rw [finish, if_neg ?_]
  · rcases hraw : (mined.snapshots directories).save "raw_grammar.json" mined.grammar with e | s
    · exact hunwritable hraw
    · rcases hfixed : s.save "loop_fixed_grammar.json" (fixLoops mined.grammar).1 with e | s'
      · simp only [Except.bind, hfixed]
        exact hunwritable hfixed
      · simp only [Except.bind, hfixed]
        rcases hrun.withTokens hroot with ⟨g, hg, hcomplete, hstart⟩ | ⟨n, hn⟩
        · simp only [hg]
          rcases hsave : s'.save "generalized_grammar.json" g with e | s''
          · exact hunwritable hsave
          · exact mined.polish_finishes hcomplete hstart
        · simp only [hn]
          exact .inr (.inl ⟨n, rfl⟩)
  · -- a tree was extracted, so the start symbol is defined
    rw [OrderedMap.isEmpty, List.isEmpty_iff]
    intro hempty
    have hkey := OrderedMap.contains_iff_mem_keys.mp (hrun.contains_startName hroot)
    rw [OrderedMap.keys, hempty] at hkey
    exact absurd hkey List.not_mem_nil

/-- **Mining establishes well-formedness by itself.**  After any run of calls that succeed and of which one gave a
tree, finishing never complains of a missing start symbol, of an undefined nonterminal, of a repeated alternative or
of an expression, and a grammar that it gives passes the check.  Already the generalized grammar passes it, pruned
as it is or tidied first, whatever the numbers of passes and rounds after which tidying would be cut off. -/
theorem finish_wellFormed (hrun : Run (new config none) events mined) (hroot : (t, some root) ∈ events) :
    (∀ directories e files, mined.finish directories = (.error e, files) → ¬e.IsMalformed) ∧
    (∀ directories g files, mined.finish directories = (.ok g, files) → g.validate = .ok ()) ∧
    ∀ g, mined.withTokens (fixLoops mined.grammar).1 = .ok g →
      (g.pruneUnreachable startName).validate = .ok () ∧ ∀ passes rounds g', tidyWithin passes rounds g = some g' →
        (Grammar.pruneUnreachable g' startName).validate = .ok () := by
  refine ⟨fun directories e files h => ?_, fun directories g files h => ?_, fun g hg => ?_⟩
  · have hfinishes := hrun.finishes hroot directories
    rw [h] at hfinishes
    rcases hfinishes with rfl | ⟨n, rfl⟩ | rfl <;> exact id
  · have hfinishes := hrun.finishes hroot directories
    rw [h] at hfinishes
    exact hfinishes
  · rcases hrun.withTokens hroot with ⟨g', hg', hcomplete, hstart⟩ | ⟨n, hn⟩
    · rw [hg] at hg'
      cases hg'
      exact validate_pruneUnreachable hcomplete hstart
    · rw [hg] at hn
      cases hn

/-- A trace in which two letters are read by a function that was not observed. -/
def externalLetters : Trace where
  positions :=
    [⟨[1], [[⟨"main", "0", []⟩, ⟨"__external_token", "1", []⟩]], [97, 98]⟩,
     ⟨[2], [[⟨"main", "0", [⟨"loop", 0⟩]⟩]], [99]⟩]
  nonempty := List.cons_ne_nil _ _
  consistent := by simp [PositionRecord.Consistent]
  size_le := by decide

/-- The letters are sampled and listed, and the grammar passes the check. -/
theorem finish_externalLetters : ∃ root mined g files,
    Run (new { generalize := { samples := 2 } } none) [(externalLetters, some root)] mined ∧
      mined.finish [] = (.ok g, files) ∧ g.validate = .ok () := by
  have hgives : gives [[97, 98], [99]] ((new { generalize := { samples := 2 } } none).addTrace externalLetters) =
      true := by decide +kernel
  obtain ⟨root, mined, g, files, hadd, -, hfinish⟩ := exists_of_gives hgives
  have hrun : Run (new { generalize := { samples := 2 } } none) [(externalLetters, some root)] mined := .add hadd .nil
  obtain ⟨-, hvalid, -⟩ := finish_wellFormed hrun (List.mem_singleton_self _)
  exact ⟨root, mined, g, files, hrun, hfinish, hvalid [] g files hfinish⟩

end Miner

end GrammarInference
