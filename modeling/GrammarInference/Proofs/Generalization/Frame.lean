/-
GrammarInference/Proofs/Generalization/Frame.lean

Generalization touches tokens only.

Design.  Generalization lays one part for each entry over what it has so far: the entry itself, or the fragment for a
token (`parts`).  Where a part does not define its own entry, its definitions are made between the state before it and
the state after it, so of two parts that define a name the later one defines it as the earlier one did (`Made.eq`).
Names of the grammar come in once, as long as none of them is one that is created.  Hence all parts agree, every part
keeps what lies under it, and the result has just the definitions of its parts, in whatever order they were laid.

    entries  →  parts that agree  →  overlaid
-/
import GrammarInference.Proofs.Generalization.Installed

namespace GrammarInference

/-! ### Grammars that are laid over each other -/

namespace Grammar

variable {g g' : Grammar} {gs earlier : List Grammar} {n m : String} {rs : List Rule}

/-- A name that both grammars define has one definition. -/
def Agrees (g g' : Grammar) : Prop := ∀ n rs rs', g.get? n = some rs → g'.get? n = some rs' → rs = rs'

theorem Agrees.refl (g : Grammar) : g.Agrees g := fun _ _ _ h h' => Option.some.inj (h.symm.trans h')

theorem Agrees.symm (h : g.Agrees g') : g'.Agrees g := fun n rs rs' hget hget' => (h n rs' rs hget' hget).symm

/-- Lays each grammar over those before it. -/
def overlayAll (gs : List Grammar) : Grammar := gs.foldl OrderedMap.overlay ∅

theorem overlayAll_concat (gs : List Grammar) (g : Grammar) : overlayAll (gs ++ [g]) = (overlayAll gs).overlay g :=
  List.foldl_concat _ _ _ _

/-- A definition comes from one of the grammars. -/
theorem exists_of_get?_overlayAll (h : (overlayAll gs).get? n = some rs) : ∃ g ∈ gs, g.get? n = some rs := by
  induction gs using List.reverseRecOn with
  | nil => cases h
  | append_singleton gs g ih =>
    rw [overlayAll_concat, OrderedMap.get?_overlay] at h
    rcases Option.or_eq_some_iff.mp h with hg | ⟨-, hgs⟩
    · exact ⟨g, List.mem_append_right gs List.mem_cons_self, hg⟩
    · obtain ⟨g', hmem, hget⟩ := ih hgs
      exact ⟨g', List.mem_append_left [g] hmem, hget⟩

/-- What one of the grammars defines is defined. -/
theorem contains_overlayAll (hg : g ∈ gs) (hn : g.contains n = true) : (overlayAll gs).contains n = true := by
  induction gs using List.reverseRecOn with
  | nil => exact absurd hg List.not_mem_nil
  | append_singleton gs g' ih =>
    rw [overlayAll_concat, contains_overlay_iff]
    rcases List.mem_append.mp hg with hg | hg
    · exact .inl (ih hg)
    · exact .inr (List.mem_singleton.mp hg ▸ hn)

/-- Grammars that agree keep their definitions. -/
theorem get?_overlayAll (hagree : ∀ g ∈ gs, ∀ g' ∈ gs, g.Agrees g') (hg : g ∈ gs) (hget : g.get? n = some rs) :
    (overlayAll gs).get? n = some rs := by
  have hn : g.contains n = true := Generalizer.contains_of_get? hget
  obtain ⟨rs', hrs'⟩ := Option.isSome_iff_exists.mp (contains_overlayAll hg hn)
  obtain ⟨g', hg', hget'⟩ := exists_of_get?_overlayAll hrs'
  rw [hrs', hagree g hg g' hg' n rs rs' hget hget']

/-- What is mentioned is mentioned in one of the grammars. -/
theorem exists_of_mem_mentions_overlayAll (h : m ∈ (overlayAll gs).mentions n) : ∃ g ∈ gs, m ∈ g.mentions n := by
  rcases hget : (overlayAll gs).get? n with - | rs
  · rw [mentions, alternatives, hget] at h
    exact absurd h List.not_mem_nil
  · obtain ⟨g, hg, hrs⟩ := exists_of_get?_overlayAll hget
    refine ⟨g, hg, ?_⟩
    rw [mentions, alternatives, hget] at h
    rwa [mentions, alternatives, hrs]

theorem isEmpty_undefinedNames_iff :
    g.undefinedNames.isEmpty = true ↔ ∀ n, ∀ m ∈ g.mentions n, g.contains m = true := by
  have hmem : ∀ m, m ∈ g.undefinedNames.toList ↔ (∃ n, m ∈ g.mentions n) ∧ g.contains m = false := by
    intro m
    have hmentioned : m ∈ g.values.flatten.flatMap Rule.names ↔ ∃ n, m ∈ g.mentions n := by
      simp only [List.mem_flatMap, List.mem_flatten, mem_names_iff, mem_mentions_iff]
      constructor
      · rintro ⟨r, ⟨rs, hrs, hr⟩, hm⟩
        obtain ⟨e, he, rfl⟩ := List.mem_map.mp hrs
        exact ⟨e.1, r, alternatives_of_mem_entries he ▸ hr, hm⟩
      · rintro ⟨n, r, hr, hm⟩
        obtain ⟨e, he, hr⟩ := exists_mem_entries_of_mem_alternatives hr
        exact ⟨r, ⟨e.2, List.mem_map_of_mem he, hr⟩, hm⟩
    rw [← hmentioned, ← Bool.not_eq_true']
    exact SortedSet.mem_ofList.trans List.mem_filter
  rw [SortedSet.isEmpty, List.isEmpty_iff, List.eq_nil_iff_forall_not_mem]
  constructor
  · intro h n m hm
    by_contra hno
    exact h m ((hmem m).mpr ⟨⟨n, hm⟩, Bool.eq_false_iff.mpr hno⟩)
  · intro h m hm
    obtain ⟨⟨n, hmn⟩, hno⟩ := (hmem m).mp hm
    rw [h n m hmn] at hno
    cases hno

end Grammar

/-! ### Parts -/

namespace Generalizer

open Grammar (Agrees overlayAll)

variable {gen gen' : Generalizer} {g g' : Grammar} {alphabets : OrderedMap String (SortedSet Char)}
  {rest : List (String × List Rule)} {source : Generator} {gs : List Grammar} {part : Grammar} {n m : String}
  {rules rs : List Rule}

/-- What is laid over the result for each of some entries: the entry, or the fragment for a token. -/
def partsFor (g : Grammar) (alphabets : OrderedMap String (SortedSet Char)) :
    List (String × List Rule) → Generalizer → Generator → Except Error (List Grammar)
  | [], _, _ => .ok []
  | (n, rules) :: rest, gen, source =>
    if !isExternal n then (partsFor g alphabets rest gen source).map (.ofList [(n, rules)] :: ·)
    else
      match sample n gen.config.samples source [] with
      | (.error e, _) => .error e
      | (.ok samples, source) =>
        match gen.generalizeToken n rules samples ((alphabets.get? n).getD (g.terminalAlphabet n)) with
        | (.error e, _) => .error e
        | (.ok (_, fragment), gen) => (partsFor g alphabets rest gen source).map (fragment :: ·)

/-- What is laid over the result for each entry of a grammar. -/
def parts (gen : Generalizer) (g : Grammar) (alphabets : OrderedMap String (SortedSet Char)) :
    Except Error (List Grammar) :=
  partsFor g alphabets g.entries gen (.new g gen.config.maxDepth gen.config.seed)

theorem generalizeEntries_eq (g : Grammar) (alphabets : OrderedMap String (SortedSet Char))
    (rest : List (String × List Rule)) (gen : Generalizer) (source : Generator) (out : Grammar) :
    generalizeEntries g alphabets rest gen source out =
      (partsFor g alphabets rest gen source).map fun gs => gs.foldl OrderedMap.overlay out := by
  have hmap : ∀ (part out : Grammar) (tail : Except Error (List Grammar)),
      (tail.map (part :: ·)).map (fun gs => gs.foldl OrderedMap.overlay out) =
        tail.map fun gs => gs.foldl OrderedMap.overlay (out.overlay part) := fun _ _ tail => by
    cases tail <;> rfl
  induction rest generalizing gen source out with
  | nil => rfl
  | cons e rest ih =>
    obtain ⟨n, rules⟩ := e
    rw [generalizeEntries, partsFor]
    split
    · rw [hmap]
      exact ih gen source _
    · rcases sample n gen.config.samples source [] with ⟨e | samples, source'⟩
      · rfl
      · dsimp only
        rcases gen.generalizeToken n rules samples ((alphabets.get? n).getD (g.terminalAlphabet n)) with
          ⟨e | ⟨decision, fragment⟩, gen'⟩
        · rfl
        · dsimp only
          rw [hmap]
          exact ih gen' source' _

/-- Generalization lays all parts over each other. -/
theorem generalize_eq (gen : Generalizer) (g : Grammar) (alphabets : OrderedMap String (SortedSet Char)) :
    gen.generalize g alphabets = (gen.parts g alphabets).map overlayAll :=
  generalizeEntries_eq g alphabets g.entries gen _ ∅

/-- The part for an entry, between the state before it and the state after it. -/
structure IsPart (gen gen' : Generalizer) (n : String) (rules : List Rule) (part : Grammar) : Prop
    extends Installs gen gen' n part where
  /-- An entry that is no token stays as it is. -/
  kept : isExternal n = false → part.get? n = some rules
  /-- What the part mentions and does not define is mentioned by the entry. -/
  mentions : ∀ k, ∀ m ∈ part.mentions k, (∃ r ∈ rules, Symbol.nonterminal m ∈ r) ∨ part.contains m = true

/-- An entry that stays, for whatever reason. -/
theorem isPart_entry (gen : Generalizer) (n : String) (rules : List Rule) :
    IsPart gen gen n rules (.ofList [(n, rules)]) where
  toInstalls := (madeAll_empty gen gen).installs (.refl gen) n rules
  kept := fun _ => (OrderedMap.get?_insert _ _ _ _).trans (if_pos rfl)
  mentions := fun _ _ hm => .inl ((Grammar.mem_mentions_insert hm).resolve_right List.not_mem_nil)

/-- What the fragment for a token mentions is mentioned by the alternatives of the token, or defined. -/
theorem Decides.mentions {samples : SortedSet String} {decision : Generalization} {fragment : Grammar} {k : String}
    (h : Decides gen n rules samples decision fragment) (hm : m ∈ fragment.mentions k) :
    (∃ r ∈ rules, Symbol.nonterminal m ∈ r) ∨ fragment.contains m = true := by
  have hdefines : ∀ {fragment : Grammar}, Defines ∅ n fragment → m ∈ fragment.mentions k →
      fragment.contains m = true := fun h hm => (h.complete.defined k m hm).resolve_left id
  cases h with
  | spaced => exact .inr (hdefines (gen.defines_spacedLiterals ∅ n _) hm)
  | kept => exact (gen.isPart_entry n rules).mentions k m hm
  | listed => exact .inr (hdefines (defines_literals samples n) hm)
  | pattern f =>
    refine .inr (hdefines (.of_pattern f.complete ?_ ∅ n) hm)
    rw [rootFor_eq]
    exact Pattern.root_mem_roots f.pattern _

/-- One entry is taken: its part comes first, and the other parts follow from the next state. -/
theorem exists_of_partsFor_cons (h : partsFor g alphabets ((n, rules) :: rest) gen source = .ok gs) :
    ∃ part later gen' source', gs = part :: later ∧ IsPart gen gen' n rules part ∧
      partsFor g alphabets rest gen' source' = .ok later := by
  have hmap : ∀ {part : Grammar} {tail : Except Error (List Grammar)}, tail.map (part :: ·) = .ok gs →
      ∃ later, gs = part :: later ∧ tail = .ok later := by
    rintro part (e | later) h <;> cases h
    exact ⟨later, rfl, rfl⟩
  rw [partsFor] at h
  split at h
  · obtain ⟨later, hgs, hlater⟩ := hmap h
    exact ⟨_, later, gen, source, hgs, gen.isPart_entry n rules, hlater⟩
  · rename_i hexternal
    split at h
    · cases h
    · rename_i samples source' _
      split at h
      · cases h
      · rename_i decision fragment gen' htoken
        obtain ⟨later, hgs, hlater⟩ := hmap h
        refine ⟨fragment, later, gen', source', hgs, ?_, hlater⟩
        obtain ⟨decision', fragment', gen₁, htoken', hdecides⟩ := gen.generalizeToken_decides n rules samples
          ((alphabets.get? n).getD (g.terminalAlphabet n))
        obtain ⟨heq, -⟩ := Prod.mk.inj (htoken.symm.trans htoken')
        cases heq
        refine ⟨generalizeToken_installs htoken, fun hn => ?_, fun k m hm => hdecides.mentions hm⟩
        rw [hn] at hexternal
        exact absurd rfl hexternal

/-- The part for an entry in a run that goes on from `gen`. -/
def IsPartFrom (gen : Generalizer) (e : String × List Rule) (part : Grammar) : Prop :=
  ∃ gen₁ gen₂, gen.Extends gen₁ ∧ IsPart gen₁ gen₂ e.1 e.2 part

theorem IsPartFrom.mono {e : String × List Rule} (h : IsPartFrom gen' e part) (hextends : gen.Extends gen') :
    IsPartFrom gen e part := by
  obtain ⟨gen₁, gen₂, hlater, hpart⟩ := h
  exact ⟨gen₁, gen₂, hextends.trans hlater, hpart⟩

/-- Each entry has a part, and each part has an entry. -/
theorem partsFor_spec (h : partsFor g alphabets rest gen source = .ok gs) :
    (∀ e ∈ rest, ∃ part ∈ gs, IsPartFrom gen e part) ∧ ∀ part ∈ gs, ∃ e ∈ rest, IsPartFrom gen e part := by
  induction rest generalizing gen source gs with
  | nil =>
    cases h
    exact ⟨List.forall_mem_nil _, List.forall_mem_nil _⟩
  | cons e rest ih =>
    obtain ⟨part, later, gen', source', rfl, hpart, hlater⟩ := exists_of_partsFor_cons h
    obtain ⟨hentries, hparts⟩ := ih hlater
    have hfirst : IsPartFrom gen e part := ⟨gen, gen', .refl gen, hpart⟩
    constructor
    · refine List.forall_mem_cons.mpr ⟨⟨part, List.mem_cons_self, hfirst⟩, fun e' he' => ?_⟩
      obtain ⟨part', hmem, hpart'⟩ := hentries e' he'
      exact ⟨part', List.mem_cons_of_mem part hmem, hpart'.mono hpart.later⟩
    · refine List.forall_mem_cons.mpr ⟨⟨e, List.mem_cons_self, hfirst⟩, fun part' hmem => ?_⟩
      obtain ⟨e', he', hpart'⟩ := hparts part' hmem
      exact ⟨e', List.mem_cons_of_mem e he', hpart'.mono hpart.later⟩

/-- A part agrees with the part for a later entry. -/
theorem IsPart.agrees {e : String × List Rule} {part' : Grammar} (h : IsPart gen gen' n rules part)
    (h' : IsPartFrom gen' e part') (hne : n ≠ e.1) (hn : ¬IsCreated n) (he : ¬IsCreated e.1) : part.Agrees part' := by
  obtain ⟨gen₁, gen₂, hlater, hpart'⟩ := h'
  intro k rs rs' hget hget'
  rcases h.made k rs hget with rfl | ⟨kind, hmade⟩
  · rcases hpart'.made k rs' hget' with heq | ⟨kind', hmade'⟩
    · exact absurd heq hne
    · exact absurd hmade'.isCreated hn
  · rcases hpart'.made k rs' hget' with rfl | ⟨kind', hmade'⟩
    · exact absurd hmade.isCreated he
    · exact hmade.eq hmade' hlater hpart'.later

/-- Names that come from the entries come once, and the others are made in turn, so all parts agree. -/
theorem agrees_of_partsFor (h : partsFor g alphabets rest gen source = .ok gs)
    (hnodup : (rest.map Prod.fst).Nodup) (hfree : ∀ e ∈ rest, ¬IsCreated e.1) :
    ∀ part ∈ gs, ∀ part' ∈ gs, part.Agrees part' := by
  induction rest generalizing gen source gs with
  | nil =>
    cases h
    exact List.forall_mem_nil _
  | cons e rest ih =>
    obtain ⟨part, later, gen', source', rfl, hpart, hlater⟩ := exists_of_partsFor_cons h
    obtain ⟨hnew, hnodup⟩ := List.nodup_cons.mp hnodup
    obtain ⟨he, hfree⟩ := List.forall_mem_cons.mp hfree
    have hfirst : ∀ part' ∈ later, part.Agrees part' := by
      intro part' hmem
      obtain ⟨e', he', hpart'⟩ := (partsFor_spec hlater).2 part' hmem
      exact hpart.agrees hpart' (fun heq => hnew (heq ▸ List.mem_map_of_mem he')) he (hfree e' he')
    refine List.forall_mem_cons.mpr ⟨List.forall_mem_cons.mpr ⟨.refl part, hfirst⟩, fun part' hmem => ?_⟩
    exact List.forall_mem_cons.mpr ⟨(hfirst part' hmem).symm, ih hlater hnodup hfree part' hmem⟩

/-! ### Whole grammars -/

section Whole

variable (h : gen.generalize g alphabets = .ok g')
include h

theorem exists_parts : ∃ gs, gen.parts g alphabets = .ok gs ∧ g' = overlayAll gs := by
  rw [generalize_eq] at h
  rcases hgs : gen.parts g alphabets with e | gs
  · rw [hgs] at h
    cases h
  · rw [hgs] at h
    cases h
    exact ⟨gs, rfl, rfl⟩

/-- Everything stays defined. -/
theorem contains_generalize (hn : g.contains n = true) : g'.contains n = true := by
  obtain ⟨gs, hgs, rfl⟩ := exists_parts h
  obtain ⟨e, he, rfl⟩ := List.mem_map.mp (OrderedMap.contains_iff_mem_keys.mp hn)
  obtain ⟨part, hmem, gen₁, gen₂, -, hpart⟩ := (partsFor_spec hgs).1 e he
  exact Grammar.contains_overlayAll hmem hpart.token

/-- All other names are created. -/
theorem isCreated_of_contains_generalize (hn : g'.contains n = true) : g.contains n = true ∨ IsCreated n := by
  obtain ⟨gs, hgs, rfl⟩ := exists_parts h
  obtain ⟨rs, hrs⟩ := Option.isSome_iff_exists.mp hn
  obtain ⟨part, hmem, hget⟩ := Grammar.exists_of_get?_overlayAll hrs
  obtain ⟨e, he, gen₁, gen₂, -, hpart⟩ := (partsFor_spec hgs).2 part hmem
  rcases hpart.made n rs hget with rfl | ⟨kind, hmade⟩
  · exact .inl (OrderedMap.contains_iff_mem_keys.mpr (List.mem_map_of_mem he))
  · exact .inr hmade.isCreated

/-- Nothing becomes undefined. -/
theorem isEmpty_undefinedNames_generalize (hg : g.undefinedNames.isEmpty = true) :
    g'.undefinedNames.isEmpty = true := by
  have hkept : ∀ {n}, g.contains n = true → g'.contains n = true := fun hn => contains_generalize h hn
  obtain ⟨gs, hgs, rfl⟩ := exists_parts h
  rw [Grammar.isEmpty_undefinedNames_iff] at hg ⊢
  intro n m hm
  obtain ⟨part, hmem, hmentions⟩ := Grammar.exists_of_mem_mentions_overlayAll hm
  obtain ⟨⟨k, rules⟩, he, gen₁, gen₂, -, hpart⟩ := (partsFor_spec hgs).2 part hmem
  rcases hpart.mentions n m hmentions with ⟨r, hr, hmr⟩ | hdefined
  · have halternatives : g.alternatives k = rules := Grammar.alternatives_of_mem_entries he
    exact hkept (hg k m (Grammar.mem_mentions_iff.mpr ⟨r, halternatives ▸ hr, hmr⟩))
  · exact Grammar.contains_overlayAll hmem hdefined

end Whole

variable (hfree : ∀ n, g.contains n = true → ¬IsCreated n)
include hfree

theorem agrees_of_parts (h : gen.parts g alphabets = .ok gs) : ∀ part ∈ gs, ∀ part' ∈ gs, part.Agrees part' :=
  agrees_of_partsFor h g.nodup_keys fun e he =>
    hfree e.1 (OrderedMap.contains_iff_mem_keys.mpr (List.mem_map_of_mem he))

/-- What is no token keeps its definition. -/
theorem get?_generalize (h : gen.generalize g alphabets = .ok g') (hn : g.contains n = true)
    (hexternal : isExternal n = false) : g'.get? n = g.get? n := by
  obtain ⟨gs, hgs, rfl⟩ := exists_parts h
  obtain ⟨rules, hrules⟩ := Option.isSome_iff_exists.mp hn
  obtain ⟨part, hmem, gen₁, gen₂, -, hpart⟩ := (partsFor_spec hgs).1 (n, rules) (OrderedMap.get?_eq_some_iff.mp hrules)
  rw [hrules]
  exact Grammar.get?_overlayAll (agrees_of_parts hfree hgs) hmem (hpart.kept hexternal)

/-- Every part is found in the result. -/
theorem get?_generalize_part (h : gen.generalize g alphabets = .ok g') (hgs : gen.parts g alphabets = .ok gs)
    (hpart : part ∈ gs) (hget : part.get? n = some rs) : g'.get? n = some rs := by
  obtain ⟨gs', hgs', rfl⟩ := exists_parts h
  obtain rfl := Except.ok.inj (hgs.symm.trans hgs')
  exact Grammar.get?_overlayAll (agrees_of_parts hfree hgs) hpart hget

/-- A part keeps the definitions that it is laid over. -/
theorem get?_overlay_part {earlier later : List Grammar} (h : gen.parts g alphabets = .ok (earlier ++ part :: later))
    (hget : (overlayAll earlier).get? n = some rs) : ((overlayAll earlier).overlay part).get? n = some rs := by
  obtain ⟨part', hmem, hget'⟩ := Grammar.exists_of_get?_overlayAll hget
  have hagree := agrees_of_parts hfree h part' (List.mem_append_left _ hmem) part
    (List.mem_append_right _ List.mem_cons_self)
  rw [OrderedMap.get?_overlay]
  rcases hnew : part.get? n with - | rs'
  · exact hget
  · rw [hagree n rs rs' hget' hnew]
    rfl

end Generalizer

end GrammarInference
