/-
GrammarInference/Grammar/Snapshot.lean

Grammars that are kept as files between the stages of a run.

Design.  A run can be told a directory for the grammars that it passes through.  The directory has to be there
already: a run that is told a missing one goes on until it first wants to keep a grammar, and fails then.  A
file that is written again is replaced.
-/
import GrammarInference.Grammar.Json

namespace GrammarInference

/-- A file: its name and its text. -/
abbrev File := String × String

/-- Where the grammars of a run are kept. -/
inductive Snapshots where
  /-- They are not wanted. -/
  | unwanted
  /-- The directory for them is missing. -/
  | missing
  /-- The directory is there, with these texts of files by their names. -/
  | kept (texts : OrderedMap String String)

namespace Snapshots

/-- No grammar is kept so far; `directories` are the ones in which files can be written. -/
def inDirectory (directories : List String) : Option String → Snapshots
  | none => unwanted
  | some d => if d ∈ directories then kept ∅ else missing

/-- Keeps a grammar in the file `name`. -/
def save (s : Snapshots) (name : String) (g : Grammar) : Except Error Snapshots :=
  match s with
  | unwanted => .ok unwanted
  | missing => .error .unwritable
  | kept texts => .ok (kept (texts.insert name g.toJsonText))

/-- The files, in the order in which they were first written. -/
def files : Snapshots → List File
  | unwanted | missing => []
  | kept texts => texts.entries

/-- A grammar cannot be kept exactly if the directory is missing. -/
theorem save_eq_error_iff (s : Snapshots) (name : String) (g : Grammar) (e : Error) :
    s.save name g = .error e ↔ s = missing ∧ e = .unwritable := by
  cases s <;> simp [save, eq_comm]

end Snapshots

end GrammarInference
