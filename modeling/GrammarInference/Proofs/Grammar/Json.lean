/-
GrammarInference/Proofs/Grammar/Json.lean

Grammars survive being written to a text and read again.

Design.  Whatever grammar is written, the text reads back as a grammar with the same names in the same order, and
with the same texts in the same places; only the kind of a symbol is told from its text again (`reread`).  So a
grammar comes back as it was exactly if its symbols follow the naming convention, and the symbols that were read
from a text always do.

    ofJsonText g.toJsonText  =  .ok g.reread
-/
import GrammarInference.Grammar.Json
import GrammarInference.Proofs.Grammar.Symbols
import GrammarInference.Proofs.Json.RoundTrip

namespace GrammarInference

/-! ### Lists -/

section

variable {α β : Type} {f : α → Option β} {l : List α}

theorem map_eq_self_iff {k : α → α} : l.map k = l ↔ ∀ a ∈ l, k a = a := by
  have hid : l.map k = l.map id ↔ ∀ a ∈ l, k a = id a := List.map_inj_left
  rwa [List.map_id] at hid

/-- What succeeds for every element of a list succeeds for the list. -/
theorem mapM_eq_some_map {k : α → β} (h : ∀ a ∈ l, f a = some (k a)) : l.mapM f = some (l.map k) := by
  induction l with
  | nil => rfl
  | cons a l ih =>
    obtain ⟨ha, hl⟩ := List.forall_mem_cons.mp h
    rw [List.mapM_cons, ha, ih hl]
    rfl

/-- What holds for every result holds for all results of a list. -/
theorem forall_mem_of_mapM {P : β → Prop} (hf : ∀ a b, f a = some b → P b) {bs : List β} (h : l.mapM f = some bs) :
    ∀ b ∈ bs, P b := by
  induction l generalizing bs with
  | nil =>
    cases h
    exact fun b hb => absurd hb List.not_mem_nil
  | cons a l ih =>
    rw [List.mapM_cons] at h
    obtain ⟨b, hb, h⟩ := Option.bind_eq_some_iff.mp h
    obtain ⟨bs', hbs, h⟩ := Option.bind_eq_some_iff.mp h
    cases h
    exact List.forall_mem_cons.mpr ⟨hf a b hb, ih hbs⟩

theorem Json.forall_mem_of_toList? {decode : Json → Option α} {P : α → Prop} (hd : ∀ v a, decode v = some a → P a)
    {v : Json} {as : List α} (h : v.toList? decode = some as) : ∀ a ∈ as, P a := by
  cases v with
  | array items => exact forall_mem_of_mapM hd h
  | null | boolean | number | string | object => cases h

end

namespace Grammar

variable {g : Grammar} {text : String}

/-! ### Writing and reading -/

/-- The grammar with the kind of every symbol told from its text. -/
def reread (g : Grammar) : Grammar := g.mapValues fun _ rs => rs.map fun r => r.map fun x => .ofText x.text

/-- All symbols follow the naming convention. -/
def Conventional (g : Grammar) : Prop := HasOnly Symbol.IsConventional g

instance (g : Grammar) : Decidable g.Conventional := inferInstanceAs (Decidable (HasOnly Symbol.IsConventional g))

theorem writable_toJson (g : Grammar) : g.toJson.Writable := by
  refine .object (List.forall_mem_map.mpr fun e _ => rfl) (List.forall_mem_map.mpr fun e _ => ?_)
  refine .array (List.forall_mem_map.mpr fun r _ => ?_)
  exact .array (List.forall_mem_map.mpr fun x _ => .string _)

theorem ofJson?_toJson (g : Grammar) : ofJson? g.toJson = some g.reread := by
  have hrule : ∀ r : Rule, Json.toList? symbolOfJson? (ruleToJson r) = some (r.map fun x => .ofText x.text) := by
    intro r
    rw [ruleToJson, Json.toList?, List.mapM_map]
    exact mapM_eq_some_map fun x _ => rfl
  have hrules : ∀ rs : List Rule, Json.toList? (Json.toList? symbolOfJson?) (.array (rs.map ruleToJson)) =
      some (rs.map fun r => r.map fun x => .ofText x.text) := by
    intro rs
    rw [Json.toList?, List.mapM_map]
    exact mapM_eq_some_map fun r _ => hrule r
  have hmembers : g.toJson.toMembers? (Json.toList? (Json.toList? symbolOfJson?)) = some g.reread.entries := by
    rw [toJson, Json.toMembers?, List.mapM_map]
    refine mapM_eq_some_map fun e _ => ?_
    simp only [Function.comp_apply, hrules]
    rfl
  rw [ofJson?, hmembers, Option.map_some, OrderedMap.ofList_entries]

/-- A grammar reads back with the same texts everywhere. -/
theorem ofJsonText_toJsonText (g : Grammar) : ofJsonText g.toJsonText = .ok g.reread := by
  rw [ofJsonText, toJsonText, (writable_toJson g).read?_pretty, Option.bind_some, ofJson?_toJson]

theorem reread_eq_self_iff : g.reread = g ↔ g.Conventional := by
  have hrule : ∀ r : Rule, r.map (fun x => Symbol.ofText x.text) = r ↔ ∀ x ∈ r, x.IsConventional := by
    intro r
    rw [map_eq_self_iff]
    exact forall₂_congr fun x _ => Symbol.ofText_text_eq_iff
  have hrules : ∀ rs : List Rule, rs.map (fun r => r.map fun x => Symbol.ofText x.text) = rs ↔
      ∀ r ∈ rs, ∀ x ∈ r, x.IsConventional := by
    intro rs
    rw [map_eq_self_iff]
    exact forall₂_congr fun r _ => hrule r
  have hentries : g.reread = g ↔ g.entries.map (fun e =>
      (e.1, e.2.map fun r => r.map fun x => Symbol.ofText x.text)) = g.entries := OrderedMap.ext_iff
  rw [hentries, map_eq_self_iff]
  refine forall₂_congr fun e _ => ?_
  rw [← hrules, Prod.ext_iff]
  exact and_iff_right rfl

/-- A grammar reads back as it was exactly if it follows the naming convention. -/
theorem ofJsonText_toJsonText_iff : ofJsonText g.toJsonText = .ok g ↔ g.Conventional := by
  rw [ofJsonText_toJsonText, Except.ok.injEq, reread_eq_self_iff]

theorem conventional_of_ofJson? {v : Json} (h : ofJson? v = some g) : g.Conventional := by
  have hsymbol : ∀ v x, symbolOfJson? v = some x → x.IsConventional := by
    intro v x hx
    obtain ⟨s, -, rfl⟩ := Option.map_eq_some_iff.mp hx
    exact Symbol.isConventional_ofText s
  have hrules : ∀ v rs, Json.toList? (Json.toList? symbolOfJson?) v = some rs →
      ∀ r ∈ rs, ∀ x ∈ r, x.IsConventional := by
    intro v rs
    exact Json.forall_mem_of_toList? fun v r => Json.forall_mem_of_toList? hsymbol
  obtain ⟨entries, hentries, rfl⟩ := Option.map_eq_some_iff.mp h
  intro e he
  have hmem := OrderedMap.mem_of_mem_entries_ofList he
  cases v with
  | object members =>
    refine forall_mem_of_mapM (P := fun e => ∀ r ∈ e.2, ∀ x ∈ r, x.IsConventional) ?_ hentries e hmem
    rintro ⟨k, v⟩ e h
    obtain ⟨k, -, h⟩ := Option.bind_eq_some_iff.mp h
    obtain ⟨rs, hrs, h⟩ := Option.bind_eq_some_iff.mp h
    cases h
    exact hrules v rs hrs
  | null | boolean | number | string | array => cases hentries

/-- What was read follows the naming convention. -/
theorem conventional_of_ofJsonText (h : ofJsonText text = .ok g) : g.Conventional := by
  rw [ofJsonText] at h
  split at h
  · rename_i g' hread
    cases h
    obtain ⟨v, -, hread⟩ := Option.bind_eq_some_iff.mp hread
    exact conventional_of_ofJson? hread
  · cases h

/-- **Grammar files round-trip.**  If every nonterminal symbol of a grammar has the form of a name and no terminal
has, then the text that is written for the grammar is read as that grammar, with its definitions, alternatives and
symbols in the same order; and only then.  Whatever grammar is read from a text, writing it and reading it again
gives the same grammar. -/
theorem grammar_text_roundtrip : (∀ g : Grammar, ofJsonText g.toJsonText = .ok g ↔ g.Conventional) ∧
    ∀ text g, ofJsonText text = .ok g → ofJsonText g.toJsonText = .ok g :=
  ⟨fun _ => ofJsonText_toJsonText_iff, fun _ _ h => ofJsonText_toJsonText_iff.mpr (conventional_of_ofJsonText h)⟩

/-- Symbols with quotes, a backslash, control characters, brackets and characters of other scripts. -/
def unusualSymbols : Grammar := .ofList
  [(startName, [[.terminal "\"\\", .nonterminal "<é\n>"], []]),
   ("<é\n>", [[.terminal "<>", .terminal "\u0001\t"], [.terminal "", .terminal "字<"]]),
   ("no name", [])]

/-- A name with two definitions, of which the last one counts. -/
def repeatedName : String := "\x7b\"<a>\": [[\"x\"]], \"<b>\": [], \"<a>\": [[\"\\u003ca>\", \"<\"]]\x7d"

theorem grammar_text_roundtrip_unusualSymbols :
    unusualSymbols.Conventional ∧ ofJsonText unusualSymbols.toJsonText = .ok unusualSymbols ∧
    ∃ g, g.entries = [("<a>", [[.nonterminal "<a>", .terminal "<"]]), ("<b>", [])] ∧
      ofJsonText repeatedName = .ok g ∧ ofJsonText g.toJsonText = .ok g := by
  obtain ⟨hwritten, hread⟩ := grammar_text_roundtrip
  have hconventional : unusualSymbols.Conventional := by decide +kernel
  refine ⟨hconventional, (hwritten _).mpr hconventional, ?_⟩
  have hparsed : ofJsonText repeatedName =
      .ok (.ofList [("<a>", [[.nonterminal "<a>", .terminal "<"]]), ("<b>", [])]) := by decide +kernel
  exact ⟨_, rfl, hparsed, hread _ _ hparsed⟩

end Grammar

end GrammarInference
