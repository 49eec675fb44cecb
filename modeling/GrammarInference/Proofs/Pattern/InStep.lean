/-
GrammarInference/Proofs/Pattern/InStep.lean

Changed patterns: the expression and the fragment stay in step.

Design.  What a pattern accepts is a set of words, that of its test and that of its root (`Pattern.Spells`).  A
narrowed run spells the words over its characters, whatever the pattern of the library spelled before; white space
in front prepends words over the white space to whatever the pattern spells, provided that the names which are added
are none of the fragment.  This is where narrowing matters once more: it gives numbers to all names, and must not
come to a name that is made for white space (`isSteadyName_narrowedName`).

Renaming keeps every definition at its place, so the names of a narrowed fragment are those of the library in their
order, each with its number (`keys_narrowed`).
-/
import GrammarInference.Proofs.Grammar.Symbols
import GrammarInference.Proofs.Pattern.Complete

namespace GrammarInference

open Grammar (Within HasOnly)

/-! ### Keys -/

namespace OrderedMap

variable {κ α : Type} [DecidableEq κ] {m : OrderedMap κ α} {k k' j : κ}

theorem filter_entries_of_not_mem {l : List (κ × α)} (h : k ∉ l.map Prod.fst) :
    (l.filter fun e => decide (e.1 ≠ k)) = l := by
  refine List.filter_eq_self.mpr fun e he => decide_eq_true fun hk => h ?_
  exact hk ▸ List.mem_map_of_mem he

theorem map_replaced_of_not_mem {l : List κ} (h : k ∉ l) : (l.map fun j => if j = k then k' else j) = l := by
  conv_rhs => rw [← List.map_id l]
  refine List.map_congr_left fun j hj => if_neg ?_
  rintro rfl
  exact h hj

/-- A new key takes the place of the old one. -/
theorem keys_renameKey (hk' : k' ∉ m.keys) :
    (m.renameKey k k').keys = m.keys.map fun j => if j = k then k' else j := by
  rw [renameKey]
  rcases hget : m.get? k with - | a
  · have hk : k ∉ m.keys := fun h => by
      have hsome := contains_iff_mem_keys.mpr h
      rw [contains, hget] at hsome
      cases hsome
    exact (map_replaced_of_not_mem hk).symm
  · obtain ⟨pre, post, hentries⟩ := List.append_of_mem (get?_eq_some_iff.mp hget)
    have hkeys : m.keys = pre.map Prod.fst ++ k :: post.map Prod.fst := by
      rw [keys, hentries, List.map_append, List.map_cons]
    have hnodup : (pre.map Prod.fst ++ k :: post.map Prod.fst).Nodup := hkeys ▸ m.nodup_keys
    rw [List.nodup_append, List.nodup_cons] at hnodup
    have hpre : k ∉ pre.map Prod.fst := fun h => hnodup.2.2 k h k List.mem_cons_self rfl
    have hpost : k ∉ post.map Prod.fst := hnodup.2.1.1
    rw [hkeys, List.mem_append, List.mem_cons, not_or, not_or] at hk'
    -- without the old key, its place is behind the keys in front of it
    have herase : (m.erase k).entries = pre ++ post := by
      show m.entries.filter (fun e => decide (e.1 ≠ k)) = pre ++ post
      rw [hentries, List.filter_append, List.filter_cons_of_neg (by simp), filter_entries_of_not_mem hpre,
        filter_entries_of_not_mem hpost]
    have hfresh : ((m.erase k).erase k').entries = pre ++ post := by
      show (m.erase k).entries.filter (fun e => decide (e.1 ≠ k')) = pre ++ post
      rw [herase, List.filter_append, filter_entries_of_not_mem hk'.1, filter_entries_of_not_mem hk'.2.2]
    have hplace : m.keys.idxOf k = pre.length := by
      rw [hkeys, List.idxOf_append_of_notMem hpre, List.idxOf_cons_self, List.length_map]
      rfl
    show (((m.erase k).erase k').entries.take _ ++ (k', a) :: ((m.erase k).erase k').entries.drop _).map Prod.fst = _
    rw [hfresh, hplace, List.take_left, List.drop_left, hkeys, List.map_append, List.map_append, List.map_cons,
      List.map_cons, map_replaced_of_not_mem hpre, map_replaced_of_not_mem hpost, if_pos rfl]

/-- Renaming brings in the new key. -/
theorem eq_or_mem_of_mem_keys_renameKey (h : j ∈ (m.renameKey k k').keys) : j = k' ∨ j ∈ m.keys := by
  obtain ⟨e, he, rfl⟩ := List.mem_map.mp h
  have herase : ∀ {m : OrderedMap κ α} {k : κ}, e ∈ (m.erase k).entries → e ∈ m.entries :=
    fun h => (List.mem_filter.mp h).1
  rw [renameKey] at he
  split at he
  · exact .inr (List.mem_map_of_mem he)
  · rw [insertAt, List.mem_append, List.mem_cons] at he
    rcases he with he | rfl | he
    · exact .inr (List.mem_map_of_mem (herase (herase (List.mem_of_mem_take he))))
    · exact .inl rfl
    · exact .inr (List.mem_map_of_mem (herase (herase (List.mem_of_mem_drop he))))

end OrderedMap

namespace Grammar

variable {g : Grammar} {K : Set String} {f : String → String} {ks : List String} {new : String}

theorem keys_rename (old : String) (hnew : new ∉ g.keys) :
    (g.rename old new).keys = g.keys.map (replacedName old new) := by
  rw [rename, replaceReferences, OrderedMap.keys_mapValues, OrderedMap.keys_renameKey hnew]
  rfl

/-- Renaming some names, each to a fresh name that is given out only once, keeps the order of the definitions. -/
theorem keys_foldl_rename (hks : ks.Nodup) (hfresh : ∀ k ∈ ks, f k ∉ g.keys)
    (hinj : ∀ k ∈ ks, ∀ j ∈ ks, f k = f j → k = j) (hdefined : ∀ k ∈ ks, k ∈ g.keys) :
    (ks.foldl (fun g k => g.rename k (f k)) g).keys = g.keys.map fun n => if n ∈ ks then f n else n := by
  induction ks generalizing g with
  | nil => simp
  | cons k ks ih =>
    obtain ⟨hk, hks⟩ := List.nodup_cons.mp hks
    obtain ⟨hkfresh, hfresh⟩ := List.forall_mem_cons.mp hfresh
    obtain ⟨hkdefined, hdefined⟩ := List.forall_mem_cons.mp hdefined
    have hstep := keys_rename k hkfresh
    have hother : ∀ j ∈ ks, replacedName k (f k) j = j := fun j hj =>
      if_neg fun h : j = k => hk (h ▸ hj)
    rw [List.foldl_cons, ih hks ?_ ?_ ?_, hstep, List.map_map]
    · -- the name that was replaced first is not replaced again
      refine List.map_congr_left fun n hn => ?_
      rw [Function.comp_apply, replacedName]
      by_cases hnk : n = k
      · have hfk : f k ∉ ks := fun h => hkfresh (hdefined _ h)
        rw [if_pos hnk, if_neg hfk, hnk, if_pos List.mem_cons_self]
      · simp [hnk]
    · intro j hj hmem
      rw [hstep] at hmem
      obtain ⟨i, hi, heq⟩ := List.mem_map.mp hmem
      rw [replacedName] at heq
      split at heq
      · exact hk (hinj k List.mem_cons_self j (List.mem_cons_of_mem k hj) heq ▸ hj)
      · exact hfresh j hj (heq ▸ hi)
    · exact fun i hi j hj => hinj i (List.mem_cons_of_mem k hi) j (List.mem_cons_of_mem k hj)
    · intro j hj
      rw [hstep]
      exact List.mem_map.mpr ⟨j, hdefined j hj, hother j hj⟩

/-- Names of a grammar, as a condition on its keys and on the symbols in its alternatives. -/
theorem within_iff : Within g K ↔
    (∀ n ∈ g.keys, n ∈ K) ∧ HasOnly (fun x => ∀ m, x = .nonterminal m → m ∈ K) g := by
  constructor
  · intro h
    refine ⟨fun n hn => h.defined n (OrderedMap.contains_iff_mem_keys.mpr hn), ?_⟩
    rintro e he r hr x hx m rfl
    refine h.mentioned e.1 m (mem_mentions_iff.mpr ⟨r, ?_, hx⟩)
    rwa [alternatives_of_mem_entries he]
  · rintro ⟨hkeys, hsymbols⟩
    refine ⟨fun n hn => hkeys n (OrderedMap.contains_iff_mem_keys.mp hn), fun n m hm => ?_⟩
    obtain ⟨r, hr, hx⟩ := mem_mentions_iff.mp hm
    obtain ⟨e, he, hr⟩ := exists_mem_entries_of_mem_alternatives hr
    exact hsymbols e he r hr _ hx m rfl

/-- Renaming to names of a set does not leave it, also where a new name is not fresh. -/
theorem Within.foldl_rename (h : Within g K) (hf : ∀ k ∈ ks, f k ∈ K) :
    Within (ks.foldl (fun g k => g.rename k (f k)) g) K := by
  obtain ⟨hkeys, hsymbols⟩ := within_iff.mp h
  refine within_iff.mpr ⟨?_, hsymbols.foldl_rename fun k hk m hm => ?_⟩
  · clear h hsymbols
    induction ks generalizing g with
    | nil => exact hkeys
    | cons k ks ih =>
      obtain ⟨hk, hks⟩ := List.forall_mem_cons.mp hf
      refine ih hks fun n hn => ?_
      change n ∈ (g.rename k (f k)).keys at hn
      rw [rename, replaceReferences, OrderedMap.keys_mapValues] at hn
      rcases OrderedMap.eq_or_mem_of_mem_keys_renameKey hn with rfl | hn
      · exact hk
      · exact hkeys n hn
  · cases hm
    exact hf k hk

end Grammar

variable {p : Pattern} {c n : String} {chars : SortedSet Char} {id : Nat} {l : List Char}
  {L : List Char → Prop}

/-! ### Names that stay free -/

/-- A name that is not made for tokens or white space, and does not become one when it is numbered. -/
def isSteadyName (n : String) : Bool :=
  isNonterminalName n && !isReserved n && !isReservedStart ((n.toList.dropLast ++ ['_']).take 4) &&
    decide (4 ≤ n.toList.length)

theorem isSteadyName_iff : isSteadyName n = true ↔ isNonterminalName n = true ∧ isReserved n = false ∧
    isReservedStart ((n.toList.dropLast ++ ['_']).take 4) = false ∧ 4 ≤ n.toList.length := by
  simp [isSteadyName, and_assoc]

/-- What a numbered name starts with does not depend on the number. -/
theorem take_narrowedName (hn : isNonterminalName n = true) (hlong : 4 ≤ n.toList.length) (id : Nat) :
    (Pattern.narrowedName id n).toList.take 4 = (n.toList.dropLast ++ ['_']).take 4 := by
  have hlist := toList_of_isNonterminalName hn
  have hdrop : n.toList.dropLast = '<' :: (bareName n).toList := by
    rw [hlist, ← List.cons_append, List.dropLast_concat]
  have hsplit : (Pattern.narrowedName id n).toList =
      (n.toList.dropLast ++ ['_']) ++ ((toString id).toList ++ ['>']) := by
    rw [toList_narrowedName hn, hdrop]
    simp
  have hlength : 4 ≤ (n.toList.dropLast ++ ['_']).length := by
    rw [List.length_append, List.length_dropLast, List.length_singleton]
    omega
  rw [hsplit, List.take_append_of_le_length hlength]

/-- A number does not make a reserved name of a steady one. -/
theorem isSteadyName_narrowedName (h : isSteadyName n = true) (id : Nat) :
    isSteadyName (Pattern.narrowedName id n) = true := by
  obtain ⟨hn, -, hnumbered, hlong⟩ := isSteadyName_iff.mp h
  have hname := isNonterminalName_narrowedName hn id
  have hlonger : 5 ≤ (Pattern.narrowedName id n).toList.length := by
    rw [toList_of_isNonterminalName hn] at hlong
    rw [toList_narrowedName hn]
    simp at hlong ⊢
    omega
  have hfree : isReserved (Pattern.narrowedName id n) = false := by
    rw [isReserved, take_narrowedName hn hlong, hnumbered]
  -- a name of this length starts the same when it is numbered once more
  have hagain := isReserved_narrowedName hlonger 0
  rw [isReserved, take_narrowedName hname (Nat.le_of_succ_le hlonger), hfree] at hagain
  exact isSteadyName_iff.mpr ⟨hname, hfree, hagain, Nat.le_of_succ_le hlonger⟩

theorem steady_of_mem_library : ∀ p ∈ patternLibrary,
    p.grammar.allNames isSteadyName = true ∧ ∀ n ∈ p.roots, isSteadyName n = true := by
  decide +kernel

namespace Pattern

/-- The names of the fragment stay free when they are numbered. -/
structure Steady (p : Pattern) : Prop where
  /-- The names of the fragment. -/
  within : Within p.grammar {n | isSteadyName n = true}
  /-- The names of the roots. -/
  roots : ∀ n ∈ p.roots, isSteadyName n = true
  /-- The roots are different. -/
  ne : ∀ c ∈ p.charName?, p.stringName ≠ c

theorem Steady.wellNamed (h : p.Steady) : p.WellNamed where
  within := h.within.mono fun _ hn => (isSteadyName_iff.mp hn).2.1
  free := fun n hn => (isSteadyName_iff.mp (h.roots n hn)).2.1
  conventional := fun n hn => (isSteadyName_iff.mp (h.roots n hn)).1
  ne := h.ne

theorem roots_narrowed (p : Pattern) (chars : SortedSet Char) (id : Nat) :
    (p.narrowed chars id).roots = p.roots.map (narrowedName id) := by
  rw [roots, roots, narrowed]
  rcases p.charName? with - | c <;> rfl

theorem Steady.narrowed (h : p.Steady) (chars : SortedSet Char) (id : Nat) : (p.narrowed chars id).Steady where
  within := by
    have hrename : ∀ {g : Grammar}, Within g {n | isSteadyName n = true} →
        Within (g.keys.foldl (fun g n => Grammar.rename g n (narrowedName id n)) g) {n | isSteadyName n = true} :=
      fun {g} hg => hg.foldl_rename fun n hn =>
        isSteadyName_narrowedName (hg.defined n (OrderedMap.contains_iff_mem_keys.mpr hn)) id
    rw [Pattern.narrowed]
    split
    · rename_i c hc
      exact hrename (within_insert_charRules h.within (h.roots c (mem_roots_iff.mpr (.inr hc))))
    · exact hrename h.within
  roots := by
    intro n hn
    rw [roots_narrowed] at hn
    obtain ⟨m, hm, rfl⟩ := List.mem_map.mp hn
    exact isSteadyName_narrowedName (h.roots m hm) id
  ne := by
    intro d hd
    obtain ⟨c, hc, rfl⟩ := Option.map_eq_some_iff.mp hd
    intro heq
    have hstring := h.roots _ (mem_roots_iff.mpr (.inl rfl))
    have hchar := h.roots c (mem_roots_iff.mpr (.inr hc))
    exact h.ne c hc (narrowedName_inj (isSteadyName_iff.mp hstring).1 (isSteadyName_iff.mp hchar).1 heq)

/-! ### Narrowed from the library -/

/-- A pattern of the library, or what narrowing has made of one, any number of times. -/
inductive FromLibrary : Pattern → Prop where
  | member {p : Pattern} (hp : p ∈ patternLibrary) : FromLibrary p
  | narrowed {p : Pattern} (hp : FromLibrary p) (chars : SortedSet Char) (id : Nat) :
      FromLibrary (p.narrowed chars id)

theorem FromLibrary.steady (hp : p.FromLibrary) : p.Steady := by
  induction hp with
  | member hp =>
    obtain ⟨hnames, hroots⟩ := steady_of_mem_library _ hp
    exact ⟨within_of_allNames hnames, hroots, (wellNamed_of_mem_library hp).ne⟩
  | narrowed _ chars id ih => exact ih.narrowed chars id

theorem depth_charClass_le (l : List Char) : (charClass l).depth ≤ 2 := by
  rw [charClass, Regex.depth]
  split <;> decide

theorem FromLibrary.depth_le (hp : p.FromLibrary) : p.regex.depth ≤ 200 := by
  cases hp with
  | member hp => exact (Form.depth_of_mem_library p hp).2
  | narrowed _ chars id =>
    show (charClass chars.toList).depth + 1 ≤ 200
    have hdepth := depth_charClass_le chars.toList
    omega

/-! ### What a pattern spells -/

/-- The test of the pattern and its root accept exactly some words. -/
structure Spells (p : Pattern) (L : List Char → Prop) : Prop where
  /-- There is a test, and it accepts the words. -/
  matcher : ∃ accepts, p.matcher = .ok accepts ∧ ∀ s, accepts s = true ↔ L s.toList
  /-- The root derives the words. -/
  string : ∀ w, p.grammar.InLanguage p.stringName w ↔ L w

theorem spells_iff : p.Spells L ↔ p.regex.isUsable = true ∧ (∀ w, p.regex.Matches w ↔ L w) ∧
    ∀ w, p.grammar.InLanguage p.stringName w ↔ L w := by
  constructor
  · rintro ⟨⟨accepts, hmatcher, haccepts⟩, hstring⟩
    rw [matcher] at hmatcher
    split at hmatcher
    · rename_i husable
      obtain rfl := Except.ok.inj hmatcher
      refine ⟨husable, fun w => ?_, hstring⟩
      have hw := haccepts (String.ofList w)
      rwa [Regex.accepts_iff_matches, String.toList_ofList] at hw
    · cases hmatcher
  · rintro ⟨husable, hmatches, hstring⟩
    exact ⟨⟨_, if_pos husable, fun s => (Regex.accepts_iff_matches _ _).trans (hmatches _)⟩, hstring⟩

/-! ### Narrowing -/

/-- A narrowed run spells the words over its characters. -/
theorem spells_narrowed (hp : p ∈ patternLibrary) (hrun : p.isRun = true) (hchars : chars.isEmpty = false) (id : Nat) :
    (p.narrowed chars id).Spells fun w => w ≠ [] ∧ ∀ a ∈ w, a ∈ chars := by
  obtain ⟨hformed, hdepth⟩ := Form.charClass_spec (Form.toList_ne_nil hchars)
  rw [spells_iff]
  refine ⟨?_, fun w => Regex.matches_plus_charClass_iff, fun w => ?_⟩
  · show ((charClass chars.toList).wellFormed && decide ((charClass chars.toList).depth + 1 + 2 ≤ 250)) = true
    rw [hformed, Bool.true_and, decide_eq_true_eq]
    omega
  · exact ((words_narrowed hp hrun chars id).string w).trans Regex.matches_plus_charClass_iff

/-- A numbered name is none of the library. -/
theorem isBasicName_narrowedName (hn : isBasicName n = true) (id : Nat) : isBasicName (narrowedName id n) = false := by
  rw [isBasicName, isNumbered_narrowedName (isBasicName_iff.mp hn).1, Bool.not_true, Bool.and_false, Bool.false_and]

/-- The names of a narrowed run are those of the library, each with its number. -/
theorem keys_narrowed (hp : p ∈ patternLibrary) (hc : p.charName? = some c) (chars : SortedSet Char) (id : Nat) :
    (p.narrowed chars id).grammar.keys = p.grammar.keys.map (narrowedName id) := by
  have hbasic : ∀ n ∈ (restricted p c chars).keys, isBasicName n = true := isBasicName_of_mem_restricted hp hc
  have hkeys : (restricted p c chars).keys = p.grammar.keys := by
    rw [restricted, OrderedMap.keys_insert, if_pos]
    exact OrderedMap.contains_iff_mem_keys.mp (isRun_of_mem_library p hp c hc).2.2.1
  have hfresh : ∀ n ∈ (restricted p c chars).keys, narrowedName id n ∉ (restricted p c chars).keys := by
    intro n hn hold
    have hnumbered := isBasicName_narrowedName (hbasic n hn) id
    rw [hbasic _ hold] at hnumbered
    cases hnumbered
  have hinj : ∀ n ∈ (restricted p c chars).keys, ∀ m ∈ (restricted p c chars).keys,
      narrowedName id n = narrowedName id m → n = m := fun n hn m hm =>
    narrowedName_inj (isBasicName_iff.mp (hbasic n hn)).1 (isBasicName_iff.mp (hbasic m hm)).1
  have hnodup : (restricted p c chars).keys.Nodup := (restricted p c chars).nodup_keys
  have hrenamed := Grammar.keys_foldl_rename hnodup hfresh hinj fun _ h => h
  rw [grammar_narrowed hc]
  refine hrenamed.trans ?_
  rw [hkeys]
  exact List.map_congr_left fun n hn => if_pos hn

theorem not_mem_keys_of_mem_keys_narrowed (hp : p ∈ patternLibrary) (hc : p.charName? = some c)
    (h : n ∈ (p.narrowed chars id).grammar.keys) : n ∉ p.grammar.keys := by
  have hbasic : ∀ n ∈ p.grammar.keys, isBasicName n = true := fun n hn =>
    (within_of_allNames (isRun_of_mem_library p hp c hc).1).defined n (OrderedMap.contains_iff_mem_keys.mpr hn)
  rw [keys_narrowed hp hc] at h
  obtain ⟨m, hm, rfl⟩ := List.mem_map.mp h
  intro hold
  have hnumbered := isBasicName_narrowedName (hbasic m hm) id
  rw [hbasic _ hold] at hnumbered
  cases hnumbered

/-! ### White space in front -/

/-- White space in front of a pattern prepends words over the white space to what it spells. -/
theorem FromLibrary.spells_withLeadingSpace (hp : p.FromLibrary) (h : p.Spells L) (hchars : chars.isEmpty = false)
    (id : Nat) :
    (p.withLeadingSpace chars id).Spells fun w => ∃ u v, w = u ++ v ∧ (∀ a ∈ u, a ∈ chars) ∧ L v := by
  obtain ⟨husable, hmatches, hstring⟩ := spells_iff.mp h
  obtain ⟨hformed, -⟩ := Form.charClass_spec (Form.toList_ne_nil hchars)
  have hspace := depth_charClass_le chars.toList
  have hdepth := hp.depth_le
  have hroot : p.stringName ∈ p.roots := mem_roots_iff.mpr (.inl rfl)
  rw [Regex.isUsable, Bool.and_eq_true] at husable
  rw [spells_iff]
  refine ⟨?_, fun w => ?_, fun w => ?_⟩
  · simp only [Pattern.withLeadingSpace, Regex.isUsable, Regex.depthLimit, Regex.wellFormed, Regex.depth, Regex.isSeq,
      hformed, husable.1, Bool.and_self, Bool.true_and, Bool.false_eq_true, if_false, decide_eq_true_eq]
    omega
  · show (Regex.seq (.star (charClass chars.toList)) (.group p.regex false)).Matches w ↔ _
    simp only [Regex.matches_seq_iff, Regex.matches_star_charClass_iff, Regex.matches_group_iff, hmatches]
    rfl
  · show (p.withLeadingSpace chars id).grammar.InLanguage (spacedName id p.stringName) w ↔ _
    rw [hp.steady.wellNamed.inLanguage_spacedName_iff chars id hroot]
    simp only [hstring]
    rfl

/-! ### Both changes -/

/-- A narrowed run accepts, by its test and from its root, the words over the given characters; its single-character
nonterminal derives these; and all of its names are new ones.  White space in front keeps test and root of a pattern
in step, whether it is narrowed or not. -/
theorem changes_in_step :
    (∀ p ∈ patternLibrary, p.isRun = true → ∀ (chars : SortedSet Char) (id : Nat), chars.isEmpty = false →
      (p.narrowed chars id).Spells (fun w => w ≠ [] ∧ ∀ a ∈ w, a ∈ chars) ∧
      (∃ c, (p.narrowed chars id).charName? = some c ∧
        ∀ w, (p.narrowed chars id).grammar.InLanguage c w ↔ ∃ a ∈ chars, w = [a]) ∧
      (p.narrowed chars id).grammar.keys = p.grammar.keys.map (narrowedName id) ∧
      (∀ n ∈ (p.narrowed chars id).grammar.keys, n ∉ p.grammar.keys) ∧
      ∀ n, ∀ m ∈ (p.narrowed chars id).grammar.mentions n,
        m ∈ (p.narrowed chars id).grammar.keys ∧ m ∉ p.grammar.keys) ∧
    ∀ p L, FromLibrary p → p.Spells L → ∀ (chars : SortedSet Char) (id : Nat), chars.isEmpty = false →
      (p.withLeadingSpace chars id).Spells fun w => ∃ u v, w = u ++ v ∧ (∀ a ∈ u, a ∈ chars) ∧ L v := by
  refine ⟨?_, fun p L hp h chars id hchars => hp.spells_withLeadingSpace h hchars id⟩
  intro p hp hrun chars id hchars
  obtain ⟨c, hc⟩ := Option.isSome_iff_exists.mp hrun
  have hchar : (p.narrowed chars id).charName? = some (narrowedName id c) := by
    show p.charName?.map (narrowedName id) = _
    rw [hc]
    rfl
  have hcomplete := complete_narrowed hp hrun (Form.toList_ne_nil hchars) id
  have hnew : ∀ n ∈ (p.narrowed chars id).grammar.keys, n ∉ p.grammar.keys := fun n hn =>
    not_mem_keys_of_mem_keys_narrowed hp hc hn
  refine ⟨spells_narrowed hp hrun hchars id, ⟨_, hchar, (words_narrowed hp hrun chars id).char _ hchar⟩,
    keys_narrowed hp hc chars id, hnew, fun n m hm => ?_⟩
  obtain ⟨r, hr, hx⟩ := Grammar.mem_mentions_iff.mp hm
  have hdefined := OrderedMap.contains_iff_mem_keys.mp (hcomplete.grammar.contains hr hx)
  exact ⟨hdefined, hnew m hdefined⟩

/-- The pattern of digits. -/
def digitRun : Pattern := { Pattern.run .digit "<digits>" "<digit>" digitChars false with grammar := digitsGrammar }

/-- Two digits, behind spaces. -/
theorem changes_of_digitRun : digitRun ∈ patternLibrary ∧
    ((digitRun.narrowed (.ofList ['1', '2']) 1).withLeadingSpace (.ofList [' ']) 1).Spells fun w =>
      ∃ u v, w = u ++ v ∧ (∀ a ∈ u, a ∈ SortedSet.ofList [' ']) ∧
        v ≠ [] ∧ ∀ a ∈ v, a ∈ SortedSet.ofList ['1', '2'] := by
  have hmem : digitRun ∈ patternLibrary := List.mem_of_getElem? (i := 0) rfl
  obtain ⟨hnarrowed, -⟩ := changes_in_step.1 digitRun hmem rfl (.ofList ['1', '2']) 1 rfl
  exact ⟨hmem, changes_in_step.2 _ _ ((FromLibrary.member hmem).narrowed (.ofList ['1', '2']) 1) hnarrowed
    (.ofList [' ']) 1 rfl⟩

end Pattern

end GrammarInference
