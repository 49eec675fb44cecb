/-
GrammarInference/Proofs/Mining/TokenFile.lean

Token grammars in files.

Design.  A token grammar is written to a file, from which it is read when the grammar for the traces of a parser is
mined.  In the file a reference and a terminal are told apart by their form only.  All references have the form of
a name; a terminal has it only if it is a sample of a token, perhaps without white space in front, and a sample is
spelled by the solutions of a trace (`Spells`, `Run.spells`).  So a token grammar reads back as it was if no trace
can spell a name.  The samples are any bytes, though, and if a lexer reads a tag, then its token reads back as a
reference to a nonterminal that is not defined.
-/
import GrammarInference.Mining.Tokens
import GrammarInference.Proofs.Generalization.Symbols
import GrammarInference.Proofs.Grammar.Json
import GrammarInference.Proofs.Mining.Extraction
import GrammarInference.Proofs.Trace.Order

namespace GrammarInference

namespace TokenMiner

open Grammar (HasOnly)

variable {config : MinerConfig} {m m' : TokenMiner} {t : TokenTrace} {ts : List TokenTrace} {s : String} {g : Grammar}

/-! ### Samples of traces -/

/-- The characters are solutions of the positions, one for each. -/
def SpellsFrom (positions : List PositionRecord) (cs : List Char) : Prop :=
  List.Forall₂ (fun r c => ∃ v ∈ r.values, byteChar v = .ok c) positions cs

/-- The string is one of those that a trace allows; what was read ahead at the end is dropped. -/
def Spells (config : MinerConfig) (t : TokenTrace) (s : String) : Prop :=
  SpellsFrom (dropTrailing config.order PositionRecord.values t.trace.positions) s.toList

theorem values_ne_nil {r : PositionRecord} (h : r.Consistent) : r.values ≠ [] := by
  rw [PositionRecord.values, Ne, List.map_eq_nil_iff]
  exact h.2

theorem spellsFrom_of_drawSample {positions : List PositionRecord} (hpositions : ∀ r ∈ positions, r.Consistent)
    {d d' : Draw} {cs : List Char} (h : drawSample d positions = (.ok cs, d')) : SpellsFrom positions cs := by
  induction positions generalizing d cs with
  | nil =>
    cases h
    exact .nil
  | cons r positions ih =>
    obtain ⟨hr, hpositions⟩ := List.forall_mem_cons.mp hpositions
    rw [drawSample] at h
    -- the record has a solution, so the position is not skipped
    obtain ⟨v, random, hchoose⟩ := RandomStream.exists_choose (values_ne_nil hr) d.random
    rcases hc : byteChar v with e | c
    · simp only [hchoose, hc] at h
      cases h
    · rcases hadd : addSolutions d.alphabet r.values with ⟨e | u, alphabet⟩
      · simp only [hchoose, hc, hadd] at h
        cases h
      · rcases hdraw : drawSample ⟨random, alphabet⟩ positions with ⟨e | cs', d₁⟩
        · simp only [hchoose, hc, hadd, hdraw] at h
          cases h
        · simp only [hchoose, hc, hadd, hdraw] at h
          cases h
          exact .cons ⟨v, RandomStream.mem_of_choose hchoose, hc⟩ (ih hpositions hdraw)

/-- The string is a sample of a token. -/
def Recorded (m : TokenMiner) (s : String) : Prop := ∃ id, s ∈ (m.samples.get? id).getD ∅

/-- A trace that is accepted adds a sample that it spells. -/
theorem recorded_of_addTrace (h : m.addTrace t = (.ok (), m')) :
    m'.config = m.config ∧ ∀ s, m'.Recorded s → m.Recorded s ∨ Spells m.config t s := by
  rw [addTrace] at h
  rcases hdraw : drawSample ⟨m.random, (m.alphabets.get? t.tokenId).getD ∅⟩
      (dropTrailing m.config.order PositionRecord.values t.trace.positions) with ⟨e | cs, d⟩
  · simp only [hdraw] at h
    cases h
  · simp only [hdraw] at h
    cases h
    refine ⟨rfl, ?_⟩
    rintro s ⟨id, hs⟩
    -- the sample is put with those of the token of the trace, and other tokens keep theirs
    rw [OrderedMap.get?_insert] at hs
    split at hs
    · rcases OrderedSet.mem_insert.mp hs with hs | rfl
      · exact .inl ⟨_, hs⟩
      · refine .inr ?_
        rw [Spells, String.toList_ofList]
        exact spellsFrom_of_drawSample (fun r hr => t.trace.consistent r (dropTrailing_subset _ _ _ hr)) hdraw
    · exact .inl ⟨id, hs⟩

/-- `Run m ts m'`: the traces are added one after the other, and lead from `m` to `m'`; none of them fails. -/
inductive Run : TokenMiner → List TokenTrace → TokenMiner → Prop
  | nil {m : TokenMiner} : Run m [] m
  | add {m m₁ m' : TokenMiner} {t rest} : m.addTrace t = (.ok (), m₁) → Run m₁ rest m' → Run m (t :: rest) m'

theorem Run.recorded (hrun : Run m ts m') :
    m'.config = m.config ∧ ∀ s, m'.Recorded s → m.Recorded s ∨ ∃ t ∈ ts, Spells m.config t s := by
  induction hrun with
  | nil => exact ⟨rfl, fun s hs => .inl hs⟩
  | add hadd _ ih =>
    obtain ⟨hconfig, hstep⟩ := recorded_of_addTrace hadd
    obtain ⟨hconfig', hrest⟩ := ih
    rw [hconfig] at hconfig' hrest
    refine ⟨hconfig', fun s hs => ?_⟩
    rcases hrest s hs with hs | ⟨t, ht, hs⟩
    · rcases hstep s hs with hs | hs
      · exact .inl hs
      · exact .inr ⟨_, List.mem_cons_self, hs⟩
    · exact .inr ⟨t, List.mem_cons_of_mem _ ht, hs⟩

/-- Every sample is spelled by a trace. -/
theorem Run.spells (hrun : Run (new config) ts m) (hs : m.Recorded s) : ∃ t ∈ ts, Spells config t s := by
  refine (hrun.recorded.2 s hs).resolve_left ?_
  rintro ⟨id, h⟩
  exact List.not_mem_nil h

/-! ### The grammar of the samples -/

/-- The alternative is a sample, or refers to the samples of a token. -/
def IsRaw (m : TokenMiner) (r : Rule) : Prop :=
  (∃ s, m.Recorded s ∧ r = [.terminal s]) ∨ ∃ id, r = [.nonterminal (externalName id)]

theorem isRaw_of_mem_rawGrammar : ∀ e ∈ m.rawGrammar.entries, ∀ r ∈ e.2, m.IsRaw r := by
  intro e he r hr
  obtain ⟨id, -, hmem⟩ := List.mem_flatMap.mp (OrderedMap.mem_of_mem_entries_ofList he)
  rcases List.mem_pair.mp hmem with rfl | rfl
  · obtain ⟨s, hs, rfl⟩ := List.mem_map.mp hr
    exact .inl ⟨s, ⟨id, hs⟩, rfl⟩
  · exact .inr ⟨id, List.mem_singleton.mp hr⟩

/-- All words are samples. -/
theorem recorded_of_derives {r : Rule} {w : List Char} (hd : m.rawGrammar.Derives r w) (hr : m.IsRaw r) :
    m.Recorded (String.ofList w) := by
  -- an alternative has one symbol, so behind it nothing is derived
  induction hd with
  | nil => rcases hr with ⟨s, -, h⟩ | ⟨id, h⟩ <;> cases h
  | terminal hd _ =>
    rcases hr with ⟨s, hs, h⟩ | ⟨id, h⟩
    · cases h
      rwa [Grammar.derives_nil_iff.mp hd, List.append_nil, String.ofList_toList]
    · cases h
  | nonterminal hbody _ hd ih _ =>
    rcases hr with ⟨s, -, h⟩ | ⟨id, h⟩
    · cases h
    · cases h
      rw [Grammar.derives_nil_iff.mp hd, List.append_nil]
      obtain ⟨e, he, hbody⟩ := Grammar.exists_mem_entries_of_mem_alternatives hbody
      exact ih (isRaw_of_mem_rawGrammar e he _ hbody)

theorem recorded_of_inLanguage {n : String} (h : m.rawGrammar.InLanguage n s.toList) : m.Recorded s := by
  obtain ⟨body, hbody, hd⟩ := h
  obtain ⟨e, he, hbody⟩ := Grammar.exists_mem_entries_of_mem_alternatives hbody
  have hs := recorded_of_derives hd (isRaw_of_mem_rawGrammar e he body hbody)
  rwa [String.ofList_toList] at hs

theorem isNonterminalName_externalName (id : String) : isNonterminalName (externalName id) = true := by
  refine isNonterminalName_of_toList (l := "__external_".toList ++ id.toList) ?_ (by simp)
  simp [externalName, String.toList_append]

theorem hasOnly_rawGrammar (m : TokenMiner) : HasOnly (Generalizer.IsFrom {s | m.Recorded s}) m.rawGrammar := by
  intro e he r hr x hx
  rcases isRaw_of_mem_rawGrammar e he r hr with ⟨s, hs, rfl⟩ | ⟨id, rfl⟩
  · obtain rfl := List.mem_singleton.mp hx
    exact Generalizer.isFrom_terminal hs
  · obtain rfl := List.mem_singleton.mp hx
    exact .inl (isNonterminalName_externalName id)

/-! ### Files -/

/-- A terminal that is taken for a reference when it is read, and a sample of one of the traces, left after white
space was taken off. -/
def IsMistaken (config : MinerConfig) (ts : List TokenTrace) (x : Symbol) : Prop :=
  ∃ t ∈ ts, ∃ s, Spells config t s ∧ isNonterminalName (Stripped.split s).2 = true ∧
    x = .terminal (Stripped.split s).2

/-- Only samples can be mistaken. -/
theorem Run.hasOnly_finish (hrun : Run (new config) ts m) (h : m.finish = .ok g) :
    HasOnly (fun x => x.IsConventional ∨ IsMistaken config ts x) g := by
  have hfinish : HasOnly (Generalizer.IsFrom {s | m.Recorded s}) g :=
    Generalizer.hasOnly_generalize m.hasOnly_rawGrammar (fun _ _ => recorded_of_inLanguage) h
  refine hfinish.mono ?_
  rintro x (hx | ⟨s, hs, rfl⟩)
  · exact .inl hx
  · obtain ⟨t, ht, hspells⟩ := hrun.spells hs
    rcases hname : isNonterminalName (Stripped.split s).2 with - | -
    · exact .inl hname
    · exact .inr ⟨t, ht, s, hspells, hname, rfl⟩

/-- **Token grammars read back as they were if no trace spells a name.**  Let any traces be accepted in any
configuration, and let a grammar be returned.  The text that is written for it can be read, with the same names,
alternatives and texts of symbols.  Every reference reads back as the same reference, and every terminal as the same
terminal unless it is a sample that has the form of a name; so the grammar that is read is the one that was written
exactly if no terminal has this form.  In particular it is if no string that a trace allows has the form of a name,
without the white space in front of it. -/
theorem finish_text_roundtrip (hrun : Run (new config) ts m) (h : m.finish = .ok g) :
    Grammar.ofJsonText g.toJsonText = .ok g.reread ∧
    (∀ e ∈ g.entries, ∀ r ∈ e.2, ∀ x ∈ r, Symbol.ofText x.text = x ∨ IsMistaken config ts x) ∧
    (Grammar.ofJsonText g.toJsonText = .ok g ↔
      ∀ e ∈ g.entries, ∀ r ∈ e.2, ∀ s, .terminal s ∈ r → isNonterminalName s = false) ∧
    ((∀ t ∈ ts, ∀ s, Spells config t s → isNonterminalName (Stripped.split s).2 = false) →
      Grammar.ofJsonText g.toJsonText = .ok g) := by
  have hsymbols := hrun.hasOnly_finish h
  refine ⟨g.ofJsonText_toJsonText, ?_, ?_, ?_⟩
  · intro e he r hr x hx
    exact (hsymbols e he r hr x hx).imp_left Symbol.ofText_text_eq_iff.mpr
  · rw [Grammar.ofJsonText_toJsonText_iff]
    constructor
    · exact fun hg e he r hr s hs => hg e he r hr _ hs
    · intro hterminals e he r hr x hx
      rcases hsymbols e he r hr x hx with hx' | ⟨t, -, s, -, -, rfl⟩
      · exact hx'
      · exact hterminals e he r hr _ hx
  · intro hnames
    refine Grammar.ofJsonText_toJsonText_iff.mpr fun e he r hr x hx => (hsymbols e he r hr x hx).resolve_right ?_
    rintro ⟨t, ht, s, hspells, hname, -⟩
    rw [hnames t ht s hspells] at hname
    cases hname

/-- A token of three bytes: the given one, a letter, and a closing bracket. -/
def lexed (first : UInt32) : TokenTrace where
  tokenId := "1"
  trace :=
    { positions := [⟨[1], [[]], [first]⟩, ⟨[2], [[]], [97]⟩, ⟨[3], [[]], [62]⟩]
      nonempty := List.cons_ne_nil _ _
      consistent := by simp [PositionRecord.Consistent]
      size_le := (by decide : 3 ≤ UInt64.size) }

/-- Settings by which one word is drawn. -/
def oneSample : MinerConfig := { generalize := { samples := 1 } }

/-- The grammar of a token with one sample. -/
def tokenGrammar (s : String) : Grammar :=
  .ofList [("<__external_1>", [[.terminal s]]), ("<TOK_1>", [[.nonterminal "<__external_1>"]])]

theorem toList_of_spells_lexed (h : Spells oneSample (lexed 40) s) : s.toList = ['(', 'a', '>'] := by
  have hread : ∀ {v : UInt32} {c : Char}, (∃ u ∈ [v].map UInt32.toNat, byteChar u = .ok c) →
      byteChar v.toNat = .ok c := by
    rintro v c ⟨u, hu, hc⟩
    rwa [List.mem_singleton.mp hu] at hc
  have hall : SpellsFrom (lexed 40).trace.positions s.toList := h
  generalize s.toList = w at hall ⊢
  obtain - | ⟨hfirst, - | ⟨hletter, - | ⟨hbracket, ⟨⟩⟩⟩⟩ := hall
  cases hread hfirst
  cases hread hletter
  cases hread hbracket
  rfl

/-- A token that does not look like a name reads back as it was. -/
theorem finish_text_roundtrip_lexed : ∃ m, Run (new oneSample) [lexed 40] m ∧ m.finish = .ok (tokenGrammar "(a>") ∧
    (∀ s, Spells oneSample (lexed 40) s → isNonterminalName (Stripped.split s).2 = false) ∧
    Grammar.ofJsonText (tokenGrammar "(a>").toJsonText = .ok (tokenGrammar "(a>") := by
  have hadd : (new oneSample).addTrace (lexed 40) = (.ok (), ((new oneSample).addTrace (lexed 40)).2) :=
    Prod.ext (by decide +kernel) rfl
  have hfinish : ((new oneSample).addTrace (lexed 40)).2.finish = .ok (tokenGrammar "(a>") := by decide +kernel
  have hrun : Run (new oneSample) [lexed 40] ((new oneSample).addTrace (lexed 40)).2 := .add hadd .nil
  have hnames : ∀ s, Spells oneSample (lexed 40) s → isNonterminalName (Stripped.split s).2 = false := by
    intro s hs
    rw [Stripped.split, toList_of_spells_lexed hs]
    decide
  obtain ⟨-, -, -, hroundtrip⟩ := finish_text_roundtrip hrun hfinish
  exact ⟨_, hrun, hfinish, hnames, hroundtrip (List.forall_mem_singleton.mpr hnames)⟩

/-- A tag that a lexer reads is taken for a reference when the grammar is read back, and nothing defines it. -/
theorem finish_tag : ∃ m, Run (new oneSample) [lexed 60] m ∧ m.finish = .ok (tokenGrammar "<a>") ∧
    ∃ g, Grammar.ofJsonText (tokenGrammar "<a>").toJsonText = .ok g ∧ g ≠ tokenGrammar "<a>" ∧
      g.alternatives "<__external_1>" = [[.nonterminal "<a>"]] ∧ g.contains "<a>" = false := by
  have hadd : (new oneSample).addTrace (lexed 60) = (.ok (), ((new oneSample).addTrace (lexed 60)).2) :=
    Prod.ext (by decide +kernel) rfl
  have hread : Grammar.ofJsonText (tokenGrammar "<a>").toJsonText = .ok (.ofList
      [("<__external_1>", [[.nonterminal "<a>"]]), ("<TOK_1>", [[.nonterminal "<__external_1>"]])]) := by
    decide +kernel
  exact ⟨_, .add hadd .nil, by decide +kernel, _, hread, by decide, rfl, rfl⟩

end TokenMiner

end GrammarInference
