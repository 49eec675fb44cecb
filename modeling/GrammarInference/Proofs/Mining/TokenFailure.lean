/-
GrammarInference/Proofs/Mining/TokenFailure.lean

What a token trace that is refused leaves behind.

Design.  A trace stops at the first value that is refused, before it gives a sample, but the characters that it has
shown by then are in the alphabet of its token already (`Refuses`).  The grammar of samples is made of the samples
alone, so it does not change.  The alphabets are listed for the tokens with a sample, so the characters can be seen if
the token has a sample, and wait for one otherwise.
-/
import GrammarInference.Proofs.Mining.TokenAlphabet

namespace GrammarInference

namespace TokenMiner

variable {m m' : TokenMiner} {t : TokenTrace} {id n : String} {seen : List Nat} {e : Error}

/-! ### Reports that depend on samples -/

theorem sortedIds_congr (h : m'.samples = m.samples) : m'.sortedIds = m.sortedIds := by
  rw [sortedIds, sortedIds, h]

theorem rawGrammar_congr (h : m'.samples = m.samples) : m'.rawGrammar = m.rawGrammar := by
  rw [rawGrammar, rawGrammar, sortedIds_congr h, h]

theorem keys_rawAlphabets (m : TokenMiner) : m.rawAlphabets.keys = m.sortedIds.map externalName := by
  rw [OrderedMap.keys, entries_rawAlphabets, List.map_map]
  rfl

/-- An alphabet is listed for a name exactly if it is the first name of a token with a sample. -/
theorem get?_rawAlphabets_eq_some_iff {alphabet : SortedSet Char} : m.rawAlphabets.get? n = some alphabet ↔
    ∃ id ∈ m.samples.keys, externalName id = n ∧ m.alphabetOf id = alphabet := by
  rw [OrderedMap.get?_eq_some_iff, entries_rawAlphabets, List.mem_map]
  simp only [mem_sortedIds, Prod.mk.injEq]

/-- Where the samples and the alphabets of all tokens are the same, the same alphabets are listed. -/
theorem rawAlphabets_congr (h : m'.samples = m.samples)
    (halphabets : ∀ id ∈ m.samples.keys, m'.alphabetOf id = m.alphabetOf id) :
    m'.rawAlphabets = m.rawAlphabets := by
  apply OrderedMap.ext
  rw [entries_rawAlphabets, entries_rawAlphabets, sortedIds_congr h]
  exact List.map_congr_left fun id hid => by rw [halphabets id (mem_sortedIds.mp hid)]

/-! ### What is kept -/

/-- The miner `m'` reports what `m` does, but for the alphabet of one token, which has got the characters of some
values. -/
structure Keeps (m : TokenMiner) (id : String) (seen : List Nat) (m' : TokenMiner) : Prop where
  /-- There are as many tokens. -/
  tokenCount_eq : m'.tokenCount = m.tokenCount
  /-- The grammar of samples is the same. -/
  rawGrammar_eq : m'.rawGrammar = m.rawGrammar
  /-- Alphabets are listed for the same names. -/
  keys_eq : m'.rawAlphabets.keys = m.rawAlphabets.keys
  /-- The alphabets of the other tokens are the same. -/
  others : ∀ n, n ≠ externalName id → m'.rawAlphabets.get? n = m.rawAlphabets.get? n
  /-- The alphabet of the token has got the characters, and no others. -/
  own : ∀ alphabet, m.rawAlphabets.get? (externalName id) = some alphabet →
    ∃ alphabet', m'.rawAlphabets.get? (externalName id) = some alphabet' ∧
      ∀ c, c ∈ alphabet' ↔ c ∈ alphabet ∨ Shows seen c
  /-- If the token has no sample, all alphabets are the same. -/
  unsampled : externalName id ∉ m.rawAlphabets.keys → m'.rawAlphabets = m.rawAlphabets

/-- A miner whose samples are the same and of whose alphabets one has grown. -/
theorem keeps_of_alphabets (hsamples : m'.samples = m.samples)
    (hothers : ∀ id', id' ≠ id → m'.alphabetOf id' = m.alphabetOf id')
    (hown : ∀ c, c ∈ m'.alphabetOf id ↔ c ∈ m.alphabetOf id ∨ Shows seen c) : Keeps m id seen m' where
  tokenCount_eq := congrArg OrderedMap.size hsamples
  rawGrammar_eq := rawGrammar_congr hsamples
  keys_eq := by rw [keys_rawAlphabets, keys_rawAlphabets, sortedIds_congr hsamples]
  others := by
    intro n hn
    ext alphabet
    rw [get?_rawAlphabets_eq_some_iff, get?_rawAlphabets_eq_some_iff, hsamples]
    refine exists_congr fun id' => and_congr_right fun _ => and_congr_right fun hid' => ?_
    rw [hothers id' (by rintro rfl; exact hn hid'.symm)]
  own := by
    intro alphabet halphabet
    obtain ⟨id', hid', hname, rfl⟩ := get?_rawAlphabets_eq_some_iff.mp halphabet
    obtain rfl := externalName_injective hname
    exact ⟨m'.alphabetOf id', get?_rawAlphabets (hsamples ▸ hid'), hown⟩
  unsampled := by
    intro hno
    refine rawAlphabets_congr hsamples fun id' hid' => hothers id' ?_
    rintro rfl
    rw [keys_rawAlphabets] at hno
    exact hno (List.mem_map_of_mem (mem_sortedIds.mpr hid'))

/-- **A token trace that is refused leaves its mark on one alphabet only.**  For every miner and every trace, if the
trace is not accepted, then a value is refused that is no byte.  The number of tokens, the grammar of samples, the
tokens for which alphabets are listed and the alphabets of all other tokens are what they were.  The alphabet of the
token, if it is listed, has got exactly the characters of the solutions that were seen before the value was refused, all
but null characters; if the token has no sample, nothing that is reported has changed. -/
theorem keeps_of_addTrace_error (m : TokenMiner) (t : TokenTrace) (e : Error) (m' : TokenMiner)
    (h : m.addTrace t = (.error e, m')) : ∃ seen v, e = .solutionOutOfRange v ∧
      Refuses m.random (dropTrailing m.config.order PositionRecord.values t.trace.positions) seen v ∧
      Keeps m t.tokenId seen m' := by
  have hread : ¬Readable m.config t := by
    rw [← (addTrace_spec m t).1, h]
    exact nofun
  obtain ⟨seen, v, d, hrefuses, hadd, hseen⟩ := addTrace_of_not_readable hread
  obtain ⟨he, rfl⟩ := Prod.mk.inj (hadd.symm.trans h)
  refine ⟨seen, v, (Except.error.inj he).symm, hrefuses, keeps_of_alphabets rfl (fun id' hne => ?_) fun c => ?_⟩
  · rw [alphabetOf, OrderedMap.get?_insert, if_neg hne.symm]
    rfl
  · rw [alphabetOf, OrderedMap.get?_insert, if_pos rfl]
    exact hseen c

/-- A token of a letter and of a value that is no byte. -/
def wideToken (id : String) : TokenTrace where
  tokenId := id
  trace :=
    { positions := [⟨[1], [[]], [98]⟩, ⟨[2], [[]], [300]⟩]
      nonempty := List.cons_ne_nil _ _
      consistent := List.forall_mem_cons.mpr
        ⟨⟨rfl, List.cons_ne_nil _ _⟩, List.forall_mem_singleton.mpr ⟨rfl, List.cons_ne_nil _ _⟩⟩
      size_le := Nat.le_of_ble_eq_true rfl }

/-- A miner that knows a token of the letter a. -/
def lettered : TokenMiner := ((new {}).addTrace (letterToken "1")).2

theorem addTrace_wideToken : lettered.addTrace (wideToken "1") =
    (.error (.solutionOutOfRange 300), (lettered.addTrace (wideToken "1")).2) :=
  Prod.ext (by decide +kernel) rfl

theorem get?_rawAlphabets_lettered : lettered.rawAlphabets.get? "<__external_1>" = some (.ofList ['a']) := by
  decide +kernel

/-- The refused trace adds the letter b to the alphabet of the letter a. -/
theorem keeps_wideToken : ∃ m', lettered.addTrace (wideToken "1") = (.error (.solutionOutOfRange 300), m') ∧
    m'.rawGrammar = lettered.rawGrammar ∧
    ∃ alphabet, m'.rawAlphabets.get? "<__external_1>" = some alphabet ∧ 'a' ∈ alphabet ∧
      alphabet.toList = ['a', 'b'] := by
  obtain ⟨seen, v, -, -, hkeeps⟩ := keeps_of_addTrace_error lettered (wideToken "1") _ _ addTrace_wideToken
  obtain ⟨alphabet, hget, hmem⟩ := hkeeps.own _ get?_rawAlphabets_lettered
  have ha : 'a' ∈ alphabet := (hmem 'a').mpr (.inl (SortedSet.mem_ofList.mpr (by decide)))
  refine ⟨_, addTrace_wideToken, hkeeps.rawGrammar_eq, alphabet, hget, ha, ?_⟩
  have hboth : (lettered.addTrace (wideToken "1")).2.rawAlphabets.get? "<__external_1>" = some (.ofList ['a', 'b']) := by
    decide +kernel
  obtain rfl := Option.some.inj (hboth.symm.trans hget)
  decide

/-- Some refused trace does not leave all reports as they were. -/
theorem not_unchanged_of_addTrace_refused : ¬∀ (m : TokenMiner) (t : TokenTrace) (v : Nat) (m' : TokenMiner),
    m.addTrace t = (.error (.solutionOutOfRange v), m') →
      m'.tokenCount = m.tokenCount ∧ m'.rawGrammar = m.rawGrammar ∧ m'.rawAlphabets = m.rawAlphabets := by
  intro h
  obtain ⟨-, -, hsame⟩ := h lettered (wideToken "1") 300 _ addTrace_wideToken
  have hletter : (lettered.addTrace (wideToken "1")).2.rawAlphabets.get? "<__external_1>" = some (.ofList ['a']) := by
    rw [hsame, get?_rawAlphabets_lettered]
  revert hletter
  decide +kernel

end TokenMiner

end GrammarInference
