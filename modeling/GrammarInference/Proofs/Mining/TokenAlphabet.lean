/-
GrammarInference/Proofs/Mining/TokenAlphabet.lean

Samples of tokens and the alphabets to which patterns are narrowed.

Design.  A sample is drawn from the solutions that are also added to the alphabet of its token, all but zero.  So what
one trace adds is covered by the alphabet that it leaves, alphabets only grow, and in the end every sample is covered
but for null characters (`Covered`).  A narrowed run spells all words over its characters, so that narrowing keeps
every sample without a null character that the pattern accepted before.
-/
import GrammarInference.Proofs.Mining.TokenOrder
import GrammarInference.Proofs.Pattern.InStep

namespace GrammarInference

namespace TokenMiner

variable {config : MinerConfig} {m m' : TokenMiner} {t : TokenTrace} {ts : List TokenTrace} {id s : String}

/-! ### Samples are covered -/

/-- The characters of all samples belong to the alphabets of their tokens, but for null characters. -/
def Covered (m : TokenMiner) : Prop := ∀ id, ∀ s ∈ m.samplesOf id, ∀ c ∈ s.toList, c = '\x00' ∨ c ∈ m.alphabetOf id

theorem covered_new : (new config).Covered := fun _ _ hs => absurd hs List.not_mem_nil

/-- What a trace adds is covered. -/
theorem Adds.covered (h : Adds m t m') (hm : m.Covered) : m'.Covered := by
  intro id s hs c hc
  by_cases hread : Readable m.config t
  · obtain ⟨new, hsamples, hnew⟩ := h.readable hread
    rw [samplesOf, hsamples, OrderedMap.get?_insert] at hs
    split at hs
    · rename_i hid
      rcases OrderedSet.mem_insert.mp hs with hold | rfl
      · exact (hm id s (hid ▸ hold) c hc).imp_right (h.kept id c)
      · exact hid ▸ hnew c hc
    · exact (hm id s hs c hc).imp_right (h.kept id c)
  · rw [samplesOf, h.unreadable hread] at hs
    exact (hm id s hs c hc).imp_right (h.kept id c)

theorem Covered.addTraces (hm : m.Covered) : (m.addTraces ts).Covered := by
  induction ts generalizing m with
  | nil => exact hm
  | cons t ts ih => exact ih ((addTrace_spec m t).2.covered hm)

/-! ### What the grammar reports -/

theorem mem_keys_of_mem_samplesOf (hs : s ∈ m.samplesOf id) : id ∈ m.samples.keys := by
  rw [samplesOf] at hs
  rcases hget : m.samples.get? id with - | samples
  · rw [hget] at hs
    exact absurd hs List.not_mem_nil
  · rw [← OrderedMap.contains_iff_mem_keys, OrderedMap.contains, hget]
    rfl

/-- A sample is an alternative of the first name of its token. -/
theorem mem_alternatives_rawGrammar (hs : s ∈ m.samplesOf id) :
    [.terminal s] ∈ m.rawGrammar.alternatives (externalName id) := by
  have hentry : (externalName id, (m.samplesOf id).toList.map fun s => [Symbol.terminal s]) ∈ m.rawGrammar.entries := by
    rw [entries_rawGrammar]
    exact List.mem_flatMap.mpr ⟨id, mem_sortedIds.mpr (mem_keys_of_mem_samplesOf hs), List.mem_cons_self⟩
  rw [Grammar.alternatives, OrderedMap.get?_eq_some_iff.mpr hentry]
  exact List.mem_map_of_mem hs

/-- The alphabets of the tokens are listed in the order of the tokens. -/
theorem entries_rawAlphabets (m : TokenMiner) :
    m.rawAlphabets.entries = m.sortedIds.map fun id => (externalName id, m.alphabetOf id) := by
  refine OrderedMap.foldl_insert_entries (m := OrderedMap.empty) ?_
  show (List.map Prod.fst (m.sortedIds.map _)).Nodup
  rw [List.map_map]
  exact m.nodup_sortedIds.map externalName_injective

/-- The alphabet of a token is reported for its first name. -/
theorem get?_rawAlphabets (hid : id ∈ m.samples.keys) :
    m.rawAlphabets.get? (externalName id) = some (m.alphabetOf id) := by
  rw [OrderedMap.get?_eq_some_iff, entries_rawAlphabets]
  exact List.mem_map_of_mem (mem_sortedIds.mpr hid)

/-! ### Narrowing -/

/-- A pattern has a test, and it accepts the word. -/
def Accepted (p : Pattern) (s : String) : Prop := ∃ accepts, p.matcher = .ok accepts ∧ accepts s = true

/-- No run accepts the empty word. -/
theorem accepts_nil_of_mem_library : ∀ p ∈ patternLibrary, p.isRun = true → p.regex.accepts [] = false := by
  decide +kernel

theorem accepted_iff {p : Pattern} : Accepted p s ↔ p.regex.isUsable = true ∧ p.regex.accepts s.toList = true := by
  rw [Accepted, Pattern.matcher]
  by_cases husable : p.regex.isUsable = true
  · simp [husable]
  · simp [husable]

/-- Narrowing to an alphabet keeps every word over it. -/
theorem Accepted.narrow {p : Pattern} {alphabet : SortedSet Char} (h : Accepted p s) (hp : p ∈ patternLibrary)
    (gen : Generalizer) (hs : ∀ c ∈ s.toList, c ∈ alphabet) : Accepted (gen.narrow p alphabet).1 s := by
  rw [Generalizer.narrow]
  split
  · rename_i hnarrow
    simp only [Bool.and_eq_true, Bool.not_eq_true'] at hnarrow
    obtain ⟨⟨⟨hrun, hchars⟩, -⟩, -⟩ := hnarrow
    obtain ⟨accepts, hmatcher, haccepts⟩ := (Pattern.spells_narrowed hp hrun hchars (gen.patternCount + 1)).matcher
    refine ⟨accepts, hmatcher, (haccepts s).mpr ⟨fun hempty => ?_, hs⟩⟩
    have hword := (accepted_iff.mp h).2
    rw [hempty, accepts_nil_of_mem_library p hp hrun] at hword
    cases hword
  · exact h

/-- **Samples lie in the alphabets of their tokens, but for null characters.**  Let any traces be added in any
configuration and with any seed; those that are not accepted give no sample.  Every sample that is recorded for a token
is an alternative of the grammar of samples, which reports an alphabet for the token, and all characters of the sample
but null characters belong to this alphabet.  So narrowing a pattern to the alphabet can only exclude a sample that has
a null character: every other one that the pattern accepts is accepted by the narrowed pattern. -/
theorem samples_within_alphabets (config : MinerConfig) (ts : List TokenTrace) (id s : String)
    (hs : s ∈ ((new config).addTraces ts).samplesOf id) :
    [.terminal s] ∈ ((new config).addTraces ts).rawGrammar.alternatives (externalName id) ∧
      ∃ alphabet, ((new config).addTraces ts).rawAlphabets.get? (externalName id) = some alphabet ∧
        (∀ c ∈ s.toList, c ≠ '\x00' → c ∈ alphabet) ∧
        ('\x00' ∉ s.toList → ∀ p ∈ patternLibrary, Accepted p s → ∀ gen : Generalizer,
          Accepted (gen.narrow p alphabet).1 s) := by
  have hcovered : ∀ c ∈ s.toList, c = '\x00' ∨ c ∈ ((new config).addTraces ts).alphabetOf id :=
    covered_new.addTraces id s hs
  refine ⟨mem_alternatives_rawGrammar hs, _, get?_rawAlphabets (mem_keys_of_mem_samplesOf hs), ?_, ?_⟩
  · exact fun c hc hne => (hcovered c hc).resolve_left hne
  · intro hnull p hp haccepted gen
    refine haccepted.narrow hp gen fun c hc => (hcovered c hc).resolve_left ?_
    rintro rfl
    exact hnull hc

/-- The sample of one letter is in its alphabet, and a pattern that accepts it does so once it is narrowed. -/
theorem samples_within_letterToken : "a" ∈ ((new {}).addTraces [letterToken "1"]).samplesOf "1" ∧
    ∃ alphabet, ((new {}).addTraces [letterToken "1"]).rawAlphabets.get? "<__external_1>" = some alphabet ∧
      'a' ∈ alphabet ∧
      ∃ p ∈ patternLibrary, Accepted p "a" ∧ Accepted ((Generalizer.new {}).narrow p alphabet).1 "a" := by
  have hs : "a" ∈ ((new {}).addTraces [letterToken "1"]).samplesOf "1" := by decide +kernel
  obtain ⟨-, alphabet, hget, hmem, hnarrow⟩ := samples_within_alphabets {} [letterToken "1"] "1" "a" hs
  have hp : patternLibrary.any (fun p => p.isRun && p.regex.isUsable && p.regex.accepts ['a']) = true := by
    decide +kernel
  obtain ⟨p, hp, haccepts⟩ := List.any_eq_true.mp hp
  rw [Bool.and_eq_true, Bool.and_eq_true] at haccepts
  have haccepted : Accepted p "a" := accepted_iff.mpr ⟨haccepts.1.2, haccepts.2⟩
  exact ⟨hs, alphabet, hget, hmem 'a' (by decide) (by decide), p, hp, haccepted, hnarrow (by decide) p hp haccepted _⟩

/-- A token of a null character and a letter. -/
def nullToken : TokenTrace where
  tokenId := "1"
  trace :=
    { positions := [⟨[1], [[]], [0]⟩, ⟨[2], [[]], [97]⟩]
      nonempty := List.cons_ne_nil _ _
      consistent := List.forall_mem_cons.mpr
        ⟨⟨rfl, List.cons_ne_nil _ _⟩, List.forall_mem_singleton.mpr ⟨rfl, List.cons_ne_nil _ _⟩⟩
      size_le := Nat.le_of_ble_eq_true rfl }

theorem mem_alphabet_of_alternative {p : Pattern} {n : String} (hn : p.charName? = some n) {c : Char}
    (hc : [.terminal (String.singleton c)] ∈ p.grammar.alternatives n) : c ∈ p.alphabet := by
  rw [Pattern.alphabet, hn]
  refine SortedSet.mem_ofList.mpr (List.mem_flatMap.mpr ⟨_, hc, List.mem_flatMap.mpr ⟨_, List.mem_cons_self, ?_⟩⟩)
  rw [Symbol.text, String.toList_singleton]
  exact List.mem_singleton_self c

/-- A null character is part of a sample, but not of the alphabet, and narrowing excludes the sample from the pattern
of all words. -/
theorem not_samples_within_nullToken : ((new {}).addTrace nullToken).1 = .ok () ∧
    "\x00a" ∈ ((new {}).addTraces [nullToken]).samplesOf "1" ∧
    ∃ alphabet, ((new {}).addTraces [nullToken]).rawAlphabets.get? "<__external_1>" = some alphabet ∧
      '\x00' ∈ "\x00a".toList ∧ '\x00' ∉ alphabet ∧
      ∃ p ∈ patternLibrary, Accepted p "\x00a" ∧ ¬Accepted ((Generalizer.new {}).narrow p alphabet).1 "\x00a" := by
  have hnull : '\x00' ∉ SortedSet.ofList ['a'] := by
    rw [SortedSet.mem_ofList]
    decide
  obtain ⟨p, hp, hchar, husable, haccepts, ha, hb⟩ : ∃ p ∈ patternLibrary, p.charName? = some "<any_char>" ∧
      p.regex.isUsable = true ∧ p.regex.accepts "\x00a".toList = true ∧
      [.terminal (String.singleton 'a')] ∈ p.grammar.alternatives "<any_char>" ∧
      [.terminal (String.singleton 'b')] ∈ p.grammar.alternatives "<any_char>" :=
    ⟨patternLibrary.getLast (by decide), List.getLast_mem _, by decide +kernel⟩
  refine ⟨by decide +kernel, by decide +kernel, .ofList ['a'], by decide +kernel, by decide, hnull, p, hp,
    accepted_iff.mpr ⟨husable, haccepts⟩, ?_⟩
  -- the alphabet is a proper part of all characters, so that the pattern is narrowed
  have hsubset : (SortedSet.ofList ['a']).isSubset p.alphabet = true :=
    List.all_eq_true.mpr (List.forall_mem_singleton.mpr (decide_eq_true (mem_alphabet_of_alternative hchar ha)))
  have hproper : SortedSet.ofList ['a'] ≠ p.alphabet := by
    intro heq
    have hmem := mem_alphabet_of_alternative hchar hb
    rw [← heq, SortedSet.mem_ofList] at hmem
    exact absurd hmem (by decide)
  have hrun : p.isRun = true := by rw [Pattern.isRun, hchar]; rfl
  rw [Generalizer.narrow, if_pos (by rw [hrun, hsubset, decide_eq_true hproper]; rfl)]
  rintro ⟨accepts, hmatcher, hword⟩
  have hchars : (SortedSet.ofList ['a']).isEmpty = false := rfl
  obtain ⟨accepts', hmatcher', haccepts'⟩ := (Pattern.spells_narrowed hp hrun hchars 1).matcher
  obtain rfl := Except.ok.inj (hmatcher'.symm.trans hmatcher)
  exact hnull (((haccepts' _).mp hword).2 '\x00' (by decide))

end TokenMiner

end GrammarInference
