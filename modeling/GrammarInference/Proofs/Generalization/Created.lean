/-
GrammarInference/Proofs/Generalization/Created.lean

The names that generalization creates, and what stands under them.

Design.  Fragments for different tokens share names, and where they do, they have to agree.  `Made gen gen' n rs k` says
that on the way from one state to a later one the definition `rs` of the name `n` can be made, for one of five reasons.
The reason can be read off the name (`nameKind`), so definitions of one name are made for one reason; and for each of
them they are the same.  A name of the library has one definition in all of its fragments.  A run of white space is told
by the number of its characters, and the state never forgets a number (`Extends`).  A root behind white space has a
definition that its name determines.  Narrowed fragments and literals are numbered by counters that only go up, so
nothing that is made later has a name of theirs (`Made.eq`).
-/
import GrammarInference.Proofs.Generalization.Complete
import GrammarInference.Proofs.Pattern.Roots

namespace GrammarInference

open Pattern (narrowedName spacedName spacedRules)

variable {n m : String} {rs rs' : List Rule} {p : Pattern} {chars : SortedSet Char} {id id' : Nat}

/-! ### Names that are created -/

/-- The roots that can be put behind white space: those of a pattern that is not itself one of white space, as it is or
narrowed, and the names of literals. -/
inductive IsRoot : String → Prop
  | library {p : Pattern} {n : String} (hp : p ∈ patternLibrary) (hspace : p.whitespace = false) (hn : n ∈ p.roots) :
      IsRoot n
  | narrowed {p : Pattern} {n : String} {id : Nat} (hp : p ∈ patternLibrary) (hspace : p.whitespace = false)
      (hrun : p.isRun = true) (hid : 0 < id) (hn : n ∈ p.roots) : IsRoot (narrowedName id n)
  | literal {id : Nat} (hid : 0 < id) : IsRoot (Generalizer.literalName id)

/-- The names that the library or the generalizer creates. -/
inductive IsCreated : String → Prop
  | library {p : Pattern} {n : String} (hp : p ∈ patternLibrary) (hn : n ∈ p.grammar.keys) : IsCreated n
  | narrowed {p : Pattern} {n : String} {id : Nat} (hp : p ∈ patternLibrary) (hrun : p.isRun = true) (hid : 0 < id)
      (hn : n ∈ p.grammar.keys) : IsCreated (narrowedName id n)
  | spaceRun {id : Nat} (hid : 0 < id) : IsCreated (spaceRunName id)
  | spaceChar {id : Nat} (hid : 0 < id) : IsCreated (spaceCharName id)
  | spaced {n : String} {id : Nat} (hid : 0 < id) (hn : IsRoot n) : IsCreated (spacedName id n)
  | literal {id : Nat} (hid : 0 < id) : IsCreated (Generalizer.literalName id)

/-! ### Kinds of names -/

/-- What a name is created for. -/
inductive NameKind where
  /-- A pattern of the library, as it is. -/
  | library
  /-- A narrowed pattern. -/
  | narrowed
  /-- White space. -/
  | space
  /-- A root behind white space. -/
  | spaced
  /-- Literals. -/
  | literal
  deriving DecidableEq

/-- What the first characters tell about a name. -/
def kindOfStart : List Char → Option NameKind
  | ['<', 'p', 'r', 'e'] => some .spaced
  | ['<', 'w', 's', c] => if isAsciiDigit c then some .space else none
  | ['<', 't', 'o', 'k'] => some .literal
  | ['<', 'f', 'l', 'o'] => some .library
  | _ => none

/-- What a name is created for.  If its first characters do not tell, then a number at its end does. -/
def nameKind (n : String) : NameKind :=
  (kindOfStart (n.toList.take 4)).getD (if isNumbered n then .narrowed else .library)

/-- Some names of numbers in the library end in a digit, but these have a start of their own. -/
theorem nameKind_of_mem_library : ∀ p ∈ patternLibrary, ∀ n ∈ p.grammar.keys, nameKind n = .library := by
  decide +kernel

theorem kindOfStart_of_isRun : ∀ p ∈ patternLibrary, p.isRun = true → ∀ n ∈ p.grammar.keys,
    isBasicName n = true ∧ kindOfStart (n.toList.take 4) = none := by
  decide +kernel

theorem nameKind_narrowedName (hp : p ∈ patternLibrary) (hrun : p.isRun = true) (hn : n ∈ p.grammar.keys) (id : Nat) :
    nameKind (narrowedName id n) = .narrowed := by
  obtain ⟨hbasic, hstart⟩ := kindOfStart_of_isRun p hp hrun n hn
  obtain ⟨hname, -, -, hlong⟩ := isBasicName_iff.mp hbasic
  have htake : (narrowedName id n).toList.take 4 = n.toList.take 4 := by
    have hlength : 4 ≤ n.toList.dropLast.length := by
      rw [List.length_dropLast]
      omega
    rw [take_narrowedName hname (Nat.le_of_succ_le hlong), List.take_append_of_le_length hlength,
      List.dropLast_eq_take, List.take_take, Nat.min_eq_left (by omega)]
  rw [nameKind, htake, hstart, isNumbered_narrowedName hname]
  rfl

theorem nameKind_spaceName (id : Nat) (ending : String) : nameKind (Pattern.spaceName id ending) = .space := by
  obtain ⟨d, rest, hd⟩ := List.exists_cons_of_ne_nil (toList_toString_ne_nil id)
  have hdigit : isAsciiDigit d = true := isAsciiDigit_of_mem_toString (hd ▸ List.mem_cons_self)
  rw [nameKind, Pattern.toList_spaceName, hd]
  show (if isAsciiDigit d then some NameKind.space else none).getD _ = _
  rw [if_pos hdigit]
  rfl

theorem nameKind_spacedName (id : Nat) (n : String) : nameKind (spacedName id n) = .spaced := by
  rw [nameKind, Pattern.toList_spacedName]
  rfl

theorem nameKind_literalName (id : Nat) : nameKind (Generalizer.literalName id) = .literal := by
  rw [nameKind, Generalizer.toList_literalName]
  rfl

/-! ### Numbers in names -/

/-- The number of a narrowed name can be read back. -/
theorem eq_of_narrowedName_eq (hn : isNonterminalName n = true) (hm : isNonterminalName m = true)
    (h : narrowedName id n = narrowedName id' m) : id = id' := by
  rw [← String.toList_inj, toList_narrowedName hn, toList_narrowedName hm, List.cons_inj_right, List.append_assoc,
    List.append_assoc, List.cons_append, List.cons_append] at h
  have hdigits := (eq_of_append_cons_eq (by simp) (by simp) h).2
  rw [List.append_cancel_right_eq, String.toList_inj] at hdigits
  exact eq_of_toString_eq hdigits

theorem eq_of_literalName_eq (h : Generalizer.literalName id = Generalizer.literalName id') : id = id' := by
  rw [← String.toList_inj, Generalizer.toList_literalName, Generalizer.toList_literalName, List.cons_inj_right,
    List.append_cancel_right_eq, List.append_cancel_left_eq, String.toList_inj] at h
  exact eq_of_toString_eq h

/-- The names for white space with different numbers are different. -/
theorem eq_of_mem_spaceGrammar {l l' : List Char} (h : (spaceGrammar l id).contains n = true)
    (h' : (spaceGrammar l' id').contains n = true) : id = id' := by
  have hname : ∀ {l : List Char} {id : Nat}, (spaceGrammar l id).contains n = true → ∃ kind : List Char, '_' ∉ kind ∧
      n.toList = ('<' :: 'w' :: 's' :: (toString id).toList) ++ '_' :: kind := by
    intro l id h
    rcases Pattern.contains_spaceGrammar_iff.mp h with rfl | rfl
    · exact ⟨"char>".toList, by decide, Pattern.toList_spaceName id "_char>"⟩
    · exact ⟨"str>".toList, by decide, Pattern.toList_spaceName id "_str>"⟩
  obtain ⟨kind, hkind, htext⟩ := hname h
  obtain ⟨kind', hkind', htext'⟩ := hname h'
  have hdigits := (eq_of_append_cons_eq hkind hkind' (htext.symm.trans htext')).1
  simp only [List.cons.injEq, true_and, String.toList_inj] at hdigits
  exact eq_of_toString_eq hdigits

/-- The number and the root of a name behind white space can be read back. -/
theorem eq_of_spacedName_eq (hn : isNonterminalName n = true) (hm : isNonterminalName m = true)
    (h : spacedName id n = spacedName id' m) : id = id' ∧ n = m := by
  have hunderscore : ∀ l : List Char, "_".toList ++ l = '_' :: l := fun _ => rfl
  have hlists := congrArg String.toList h
  simp only [Pattern.toList_spacedName, List.cons.injEq, true_and, List.append_assoc, List.append_cancel_left_eq,
    hunderscore, List.cons_append] at hlists
  have hsplit := congrArg (splitFirst? '_') hlists
  rw [splitFirst?_append (underscore_not_mem_toString id), splitFirst?_append (underscore_not_mem_toString id'),
    Option.some.injEq, Prod.mk.injEq, String.toList_inj, List.append_cancel_right_eq] at hsplit
  exact ⟨eq_of_toString_eq hsplit.1, eq_of_bareName_eq hn hm hsplit.2⟩

/-! ### Definitions -/

namespace Generalizer

variable {gen gen₀ gen₁ gen' : Generalizer} {k k' : NameKind}

/-- The later state has counted on, and still knows the numbers of white space. -/
structure Extends (gen gen' : Generalizer) : Prop where
  /-- Patterns are counted upwards. -/
  patterns : gen.patternCount ≤ gen'.patternCount
  /-- Literals are counted upwards. -/
  literals : gen.literalCount ≤ gen'.literalCount
  /-- White space keeps its number. -/
  spaces : ∀ chars ∈ gen.spaces, chars ∈ gen'.spaces ∧ gen'.spaces.indexOf chars = gen.spaces.indexOf chars

theorem Extends.refl (gen : Generalizer) : gen.Extends gen := ⟨Nat.le_refl _, Nat.le_refl _, fun _ h => ⟨h, rfl⟩⟩

theorem Extends.trans (h : gen₀.Extends gen) (h' : gen.Extends gen₁) : gen₀.Extends gen₁ where
  patterns := Nat.le_trans h.patterns h'.patterns
  literals := Nat.le_trans h.literals h'.literals
  spaces := fun chars hchars => by
    obtain ⟨hmem, hindex⟩ := h.spaces chars hchars
    obtain ⟨hmem', hindex'⟩ := h'.spaces chars hmem
    exact ⟨hmem', hindex'.trans hindex⟩

/-- The definition of a name that is made on the way from one state to a later one, and what for. -/
inductive Made (gen gen' : Generalizer) (n : String) (rs : List Rule) : NameKind → Prop
  /-- It stands in a fragment of the library. -/
  | library {p : Pattern} (hp : p ∈ patternLibrary) (h : p.grammar.get? n = some rs) : Made gen gen' n rs .library
  /-- It stands in a narrowed fragment, which got a number on the way. -/
  | narrowed {p : Pattern} {chars : SortedSet Char} {id : Nat} (hp : p ∈ patternLibrary) (hrun : p.isRun = true)
      (hold : gen.patternCount < id) (hnew : id ≤ gen'.patternCount)
      (h : (p.narrowed chars id).grammar.get? n = some rs) : Made gen gen' n rs .narrowed
  /-- It belongs to the white space with its number. -/
  | space {chars : SortedSet Char} (hchars : chars ∈ gen'.spaces)
      (h : (spaceGrammar chars.toList (gen'.spaces.indexOf chars + 1)).get? n = some rs) : Made gen gen' n rs .space
  /-- It puts a root behind white space. -/
  | spaced {m : String} {id : Nat} (hid : 0 < id) (hm : IsRoot m) (hn : n = spacedName id m)
      (hrs : rs = spacedRules id m) : Made gen gen' n rs .spaced
  /-- It lists strings under a number that was given out on the way. -/
  | literal {strings : SortedSet String} {id : Nat} (hold : gen.literalCount < id) (hnew : id ≤ gen'.literalCount)
      (hn : n = literalName id) (hrs : rs = literalRules strings) : Made gen gen' n rs .literal

theorem Made.mono (h : Made gen gen' n rs k) (hold : gen₀.Extends gen) (hnew : gen'.Extends gen₁) :
    Made gen₀ gen₁ n rs k := by
  cases h with
  | library hp h => exact .library hp h
  | narrowed hp hrun hlow hhigh h =>
    exact .narrowed hp hrun (Nat.lt_of_le_of_lt hold.patterns hlow) (Nat.le_trans hhigh hnew.patterns) h
  | @space chars hchars h =>
    obtain ⟨hmem, hindex⟩ := hnew.spaces chars hchars
    exact .space hmem (hindex ▸ h)
  | spaced hid hm hn hrs => exact .spaced hid hm hn hrs
  | literal hlow hhigh hn hrs =>
    exact .literal (Nat.lt_of_le_of_lt hold.literals hlow) (Nat.le_trans hhigh hnew.literals) hn hrs

/-- A name of a narrowed fragment is one of the library with the number. -/
theorem exists_of_mem_narrowed (hp : p ∈ patternLibrary) (hrun : p.isRun = true)
    (h : (p.narrowed chars id).grammar.get? n = some rs) : ∃ m ∈ p.grammar.keys, narrowedName id m = n := by
  obtain ⟨c, hc⟩ := Option.isSome_iff_exists.mp hrun
  refine List.mem_map.mp ?_
  rw [← Pattern.keys_narrowed hp hc chars id, ← OrderedMap.contains_iff_mem_keys, OrderedMap.contains, h]
  rfl

theorem contains_of_get? {g : Grammar} (h : g.get? n = some rs) : g.contains n = true := by
  rw [OrderedMap.contains, h]
  rfl

theorem mem_keys_of_get? {g : Grammar} (h : g.get? n = some rs) : n ∈ g.keys :=
  OrderedMap.contains_iff_mem_keys.mp (contains_of_get? h)

/-- The name of a definition tells what it was made for. -/
theorem Made.nameKind_eq (h : Made gen gen' n rs k) : nameKind n = k := by
  cases h with
  | library hp h => exact nameKind_of_mem_library _ hp n (mem_keys_of_get? h)
  | narrowed hp hrun _ _ h =>
    obtain ⟨m, hm, rfl⟩ := exists_of_mem_narrowed hp hrun h
    exact nameKind_narrowedName hp hrun hm _
  | space _ h =>
    rcases Pattern.contains_spaceGrammar_iff.mp (contains_of_get? h) with rfl | rfl
    · exact nameKind_spaceName _ "_char>"
    · exact nameKind_spaceName _ "_str>"
  | spaced _ _ hn _ => exact hn ▸ nameKind_spacedName _ _
  | literal _ _ hn _ => exact hn ▸ nameKind_literalName _

/-- Names that are shared by fragments of the library have one definition. -/
theorem get?_of_mem_library : ∀ p ∈ patternLibrary, ∀ q ∈ patternLibrary, ∀ e ∈ p.grammar.entries,
    q.grammar.get? e.1 = none ∨ q.grammar.get? e.1 = some e.2 := by
  decide +kernel

theorem isNonterminalName_of_isRoot (h : IsRoot n) : isNonterminalName n = true := by
  cases h with
  | library hp _ hn => exact (wellNamed_of_mem_library hp).conventional n hn
  | narrowed hp _ _ _ hn => exact isNonterminalName_narrowedName ((wellNamed_of_mem_library hp).conventional _ hn) _
  | literal _ => exact isNonterminalName_of_toList (toList_literalName _) (by simp)

/-- Definitions of one name agree, if one of them was made after the other. -/
theorem Made.eq {gen₂ : Generalizer} (h : Made gen gen' n rs k) (h' : Made gen₁ gen₂ n rs' k')
    (hlater : gen'.Extends gen₁) (hstep : gen₁.Extends gen₂) : rs = rs' := by
  obtain rfl : k = k' := h.nameKind_eq.symm.trans h'.nameKind_eq
  cases h with
  | @library p hp h =>
    cases h' with
    | @library q hq h' =>
      have hsame := get?_of_mem_library p hp q hq (n, rs) (OrderedMap.get?_eq_some_iff.mp h)
      rw [h'] at hsame
      exact (Option.some.inj (hsame.resolve_left nofun)).symm
  | narrowed hp hrun _ hhigh h =>
    cases h' with
    | narrowed hq hrun' hlow _ h' =>
      -- the numbers would be the same, and the second one was not yet given out
      obtain ⟨m, hm, rfl⟩ := exists_of_mem_narrowed hp hrun h
      obtain ⟨m', hm', hname⟩ := exists_of_mem_narrowed hq hrun' h'
      have hconventional := fun {p} hp hrun {m} hm => (isBasicName_iff.mp (kindOfStart_of_isRun p hp hrun m hm).1).1
      obtain rfl := eq_of_narrowedName_eq (hconventional hq hrun' hm') (hconventional hp hrun hm) hname
      exact absurd (Nat.le_trans hhigh hlater.patterns) (Nat.not_le.mpr hlow)
  | @space chars hchars h =>
    cases h' with
    | @space chars' hchars' h' =>
      have hid := eq_of_mem_spaceGrammar (contains_of_get? h) (contains_of_get? h')
      obtain ⟨hmem, hindex⟩ := (hlater.trans hstep).spaces chars hchars
      have hsame : gen₂.spaces.indexOf chars = gen₂.spaces.indexOf chars' := hindex.trans (Nat.succ.inj hid)
      obtain rfl := OrderedSet.indexOf_inj hmem hchars' hsame
      rw [← hindex] at h
      exact Option.some.inj (h.symm.trans h')
  | spaced _ hm hn hrs =>
    cases h' with
    | spaced _ hm' hn' hrs' =>
      obtain ⟨rfl, rfl⟩ := eq_of_spacedName_eq (isNonterminalName_of_isRoot hm) (isNonterminalName_of_isRoot hm')
        (hn.symm.trans hn')
      exact hrs.trans hrs'.symm
  | literal _ hhigh hn _ =>
    cases h' with
    | literal hlow _ hn' _ =>
      obtain rfl := eq_of_literalName_eq (hn.symm.trans hn')
      exact absurd (Nat.le_trans hhigh hlater.literals) (Nat.not_le.mpr hlow)

theorem Made.isCreated (h : Made gen gen' n rs k) : IsCreated n := by
  cases h with
  | library hp h => exact .library hp (mem_keys_of_get? h)
  | narrowed hp hrun hold _ h =>
    obtain ⟨m, hm, rfl⟩ := exists_of_mem_narrowed hp hrun h
    exact .narrowed hp hrun (Nat.zero_lt_of_lt hold) hm
  | space _ h =>
    rcases Pattern.contains_spaceGrammar_iff.mp (contains_of_get? h) with rfl | rfl
    · exact .spaceChar (Nat.succ_pos _)
    · exact .spaceRun (Nat.succ_pos _)
  | spaced hid hm hn _ => exact hn ▸ .spaced hid hm
  | literal hold _ hn _ => exact hn ▸ .literal (Nat.zero_lt_of_lt hold)

end Generalizer

/-! ### Names that are not created -/

/-- Does the text begin with a small letter, and have no at sign? -/
def isSmall : List Char → Bool
  | [] => false
  | c :: l => c.isLower && !(c :: l).contains '@'

theorem isSmall_append {l l' : List Char} (h : isSmall l = true) (h' : '@' ∉ l') : isSmall (l ++ l') = true := by
  cases l with
  | nil => cases h
  | cons c l => simpa [isSmall, h'] using h

theorem at_not_mem_of_isSmall {l : List Char} (h : isSmall l = true) : '@' ∉ l := by
  cases l with
  | nil => exact List.not_mem_nil
  | cons c l =>
    rw [isSmall, Bool.and_eq_true, Bool.not_eq_true', ← Bool.not_eq_true, List.contains_iff_mem] at h
    exact h.2

theorem isSmall_of_mem_library : ∀ p ∈ patternLibrary, ∀ n ∈ p.grammar.keys,
    isNonterminalName n = true ∧ isSmall (bareName n).toList = true ∧ n ≠ startName := by
  decide +kernel

theorem mem_keys_of_mem_roots (hp : p ∈ patternLibrary) (hn : n ∈ p.roots) : n ∈ p.grammar.keys :=
  OrderedMap.contains_iff_mem_keys.mp ((allNames_contains_of_mem_library p hp).2 n hn)

theorem at_not_mem_toString (k : Nat) : '@' ∉ (toString k).toList := not_mem_toString (by decide) k

theorem isSmall_narrowedName (hn : isNonterminalName n = true) (hsmall : isSmall (bareName n).toList = true)
    (id : Nat) : isSmall (bareName (narrowedName id n)).toList = true := by
  have htext : (bareName (narrowedName id n)).toList = (bareName n).toList ++ '_' :: (toString id).toList :=
    bareName_of_toList (by rw [toList_narrowedName hn]) (by simp)
  rw [htext]
  exact isSmall_append hsmall (List.not_mem_cons_of_ne_of_not_mem (by decide) (at_not_mem_toString id))

theorem bareName_literalName (id : Nat) :
    (bareName (Generalizer.literalName id)).toList = "toknt".toList ++ (toString id).toList :=
  bareName_of_toList (Generalizer.toList_literalName id) (by simp)

theorem IsRoot.isSmall (h : IsRoot n) : isSmall (bareName n).toList = true := by
  cases h with
  | library hp _ hn => exact (isSmall_of_mem_library _ hp n (mem_keys_of_mem_roots hp hn)).2.1
  | narrowed hp _ _ _ hn =>
    obtain ⟨hname, hsmall, -⟩ := isSmall_of_mem_library _ hp _ (mem_keys_of_mem_roots hp hn)
    exact isSmall_narrowedName hname hsmall _
  | literal _ =>
    rw [bareName_literalName]
    exact isSmall_append (by decide) (at_not_mem_toString _)

/-- A name that is created stands in brackets, begins with a small letter and has no at sign. -/
theorem IsCreated.isSmall (h : IsCreated n) :
    isNonterminalName n = true ∧ GrammarInference.isSmall (bareName n).toList = true := by
  have hspace : ∀ (id : Nat) (kind : List Char) (n : String), '@' ∉ kind →
      n.toList = '<' :: (("ws".toList ++ ((toString id).toList ++ kind)) ++ ['>']) →
      isNonterminalName n = true ∧ GrammarInference.isSmall (bareName n).toList = true := by
    intro id kind n hkind htext
    rw [bareName_of_toList htext (by simp)]
    exact ⟨isNonterminalName_of_toList htext (by simp), isSmall_append (by decide)
      (List.not_mem_append (at_not_mem_toString id) hkind)⟩
  cases h with
  | library hp hn =>
    obtain ⟨hname, hsmall, -⟩ := isSmall_of_mem_library _ hp n hn
    exact ⟨hname, hsmall⟩
  | narrowed hp _ _ hn =>
    obtain ⟨hname, hsmall, -⟩ := isSmall_of_mem_library _ hp _ hn
    exact ⟨isNonterminalName_narrowedName hname _, isSmall_narrowedName hname hsmall _⟩
  | @spaceRun id _ =>
    refine hspace id "_str".toList _ (by decide) ((Pattern.toList_spaceName id "_str>").trans ?_)
    simp
  | @spaceChar id _ =>
    refine hspace id "_char".toList _ (by decide) ((Pattern.toList_spaceName id "_char>").trans ?_)
    simp
  | @spaced m id _ hm =>
    have hplain : '@' ∉ (bareName m).toList := at_not_mem_of_isSmall hm.isSmall
    have htext : (spacedName id m).toList =
        '<' :: (("pre_ws".toList ++ ((toString id).toList ++ '_' :: (bareName m).toList)) ++ ['>']) := by
      rw [Pattern.toList_spacedName]
      simp
    rw [bareName_of_toList htext (by simp)]
    exact ⟨isNonterminalName_of_toList htext (by simp), isSmall_append (by decide)
      (List.not_mem_append (at_not_mem_toString id) (List.not_mem_cons_of_ne_of_not_mem (by decide) hplain))⟩
  | literal _ =>
    rw [bareName_literalName]
    exact ⟨isNonterminalName_of_toList (Generalizer.toList_literalName _) (by simp),
      isSmall_append (by decide) (at_not_mem_toString _)⟩

/-- A name with an at sign. -/
theorem not_isCreated_of_mem (h : '@' ∈ n.toList) : ¬IsCreated n := by
  intro hn
  obtain ⟨hname, hsmall⟩ := hn.isSmall
  rw [toList_of_isNonterminalName hname] at h
  exact at_not_mem_of_isSmall hsmall (by simpa using h)

/-- A name that does not begin with a small letter. -/
theorem not_isCreated_of_initial {c : Char} {l : List Char} (h : n.toList = '<' :: c :: l) (hc : c.isLower = false) :
    ¬IsCreated n := by
  intro hn
  obtain ⟨hname, hsmall⟩ := hn.isSmall
  rw [toList_of_isNonterminalName hname] at h
  cases htext : (bareName n).toList with
  | nil =>
    rw [htext] at hsmall
    cases hsmall
  | cons d l' =>
    rw [htext, List.cons_append, List.cons_inj_right, List.cons.injEq] at h
    rw [htext, isSmall, h.1, hc] at hsmall
    cases hsmall

/-- The start symbol is like a name of the library, but is none. -/
theorem not_isCreated_startName : ¬IsCreated startName := by
  have hkind : nameKind startName = .library := by decide
  generalize hn : startName = n at hkind ⊢
  intro h
  cases h with
  | library hp hmem => exact (isSmall_of_mem_library _ hp n hmem).2.2 hn.symm
  | narrowed hp hrun _ hmem =>
    rw [nameKind_narrowedName hp hrun hmem] at hkind
    cases hkind
  | spaceRun _ => cases (nameKind_spaceName _ "_str>").symm.trans hkind
  | spaceChar _ => cases (nameKind_spaceName _ "_char>").symm.trans hkind
  | spaced _ _ => cases (nameKind_spacedName _ _).symm.trans hkind
  | literal _ => cases (nameKind_literalName _).symm.trans hkind

end GrammarInference
