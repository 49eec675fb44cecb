/-
GrammarInference/Proofs/Pattern/Roots.lean

Which names pass for the roots of patterns.

Design.  The name of a root is put together from a root of the library, a number behind it and a mark for white space
in front of it, and is taken apart again at underscores: the mark ends at the first one, the number begins behind the
last one.  Roots of the library have underscores and digits of their own, so the cuts are right only because these
roots do not begin like the mark, and because a number has no underscore.  `IsPlainRoot` describes the texts without
the mark as they are put together, and `isPatternRoot_iff` says that these are recognized, with the mark or without
it, and nothing else.

The names of nodes, of parts of loops, of literals and of optional parts are none of them, whatever function they
belong to: a label has an at sign, and what the others begin with, or end in, occurs in no root (`RootShape`).
-/
import GrammarInference.Grammar.Tidy
import GrammarInference.Proofs.Execution.Label
import GrammarInference.Proofs.Generalization.Coverage
import GrammarInference.Proofs.Grammar.Rounds
import GrammarInference.Proofs.Pattern.InStep

namespace GrammarInference

variable {n : String} {c : Char} {l id inner u w : List Char}

/-! ### Cuts -/

section Cuts

variable {α : Type} [DecidableEq α] {sep : α} {u v : List α}

theorem splitFirst?_append (h : sep ∉ u) : splitFirst? sep (u ++ sep :: v) = some (u, v) := by
  induction u with
  | nil => rw [List.nil_append, splitFirst?, if_pos rfl]
  | cons a u ih =>
    obtain ⟨ha, hu⟩ := List.ne_and_not_mem_of_not_mem_cons h
    rw [List.cons_append, splitFirst?, if_neg (Ne.symm ha), ih hu]
    rfl

theorem splitLast?_append (h : sep ∉ v) : splitLast? sep (u ++ sep :: v) = some (u, v) := by
  induction u with
  | nil =>
    rw [List.nil_append, splitLast?, splitLast?_eq_none.mpr h]
    exact if_pos rfl
  | cons a u ih => rw [List.cons_append, splitLast?, ih]

end Cuts

theorem not_mem_of_allDigits (hc : isAsciiDigit c = false) (h : allDigits id = true) : c ∉ id := by
  intro hm
  rw [List.all_eq_true.mp h c hm] at hc
  cases hc

theorem allDigits_toString (k : Nat) : allDigits (toString k).toList = true :=
  List.all_eq_true.mpr fun _ h => isAsciiDigit_of_mem_toString h

/-! ### Texts without the mark -/

/-- What stands between the brackets of a root without white space in front: a root of the library, such a root with
a number, or the name of a numbered run of white space or of its characters. -/
inductive IsPlainRoot : List Char → Prop where
  | library {l : List Char} (hl : l ∈ rootNames) : IsPlainRoot l
  | numbered {l id : List Char} (hl : l ∈ rootNames) (hid : id ≠ []) (hdigits : allDigits id = true) :
      IsPlainRoot (l ++ '_' :: id)
  | space {id kind : List Char} (hid : id ≠ []) (hdigits : allDigits id = true)
      (hkind : kind = "str".toList ∨ kind = "char".toList) : IsPlainRoot ("ws".toList ++ (id ++ '_' :: kind))

/-- Does the text pass for a root, when the mark for white space is taken off? -/
def isPlainRoot (l : List Char) : Bool :=
  isSpaceRunName l || rootNames.contains l ||
    match splitLast? '_' l with
    | some (base, suffix) => !suffix.isEmpty && allDigits suffix && rootNames.contains base
    | none => false

theorem isPatternRoot_eq (n : String) : isPatternRoot n = isPlainRoot (withoutSpacedMark (bareName n).toList) := rfl

theorem isSpaceRunName_iff : isSpaceRunName l = true ↔ ∃ id kind, id ≠ [] ∧ allDigits id = true ∧
    (kind = "str".toList ∨ kind = "char".toList) ∧ l = "ws".toList ++ (id ++ '_' :: kind) := by
  constructor
  · intro h
    rw [isSpaceRunName] at h
    split at h
    · cases h
    · rename_i rest hrest
      obtain rfl := (List.isPrefixOf?_eq_some_iff_append_eq.mp hrest).symm
      split at h
      · rename_i id kind hsplit
        simp only [Bool.and_eq_true, Bool.or_eq_true, Bool.not_eq_true', List.isEmpty_eq_false_iff,
          decide_eq_true_eq] at h
        exact ⟨id, kind, h.1.1, h.1.2, h.2, by rw [(splitFirst?_eq_some hsplit).1]⟩
      · cases h
  · rintro ⟨id, kind, hid, hdigits, hkind, rfl⟩
    have hmarked : "ws".toList.isPrefixOf? ("ws".toList ++ (id ++ '_' :: kind)) = some (id ++ '_' :: kind) :=
      List.isPrefixOf?_eq_some_iff_append_eq.mpr rfl
    rw [isSpaceRunName]
    simp only [hmarked, splitFirst?_append (not_mem_of_allDigits (c := '_') rfl hdigits), hdigits, Bool.and_true,
      Bool.and_eq_true, Bool.or_eq_true, Bool.not_eq_true', List.isEmpty_eq_false_iff, decide_eq_true_eq]
    exact ⟨hid, hkind⟩

/-- The test takes a text apart where it was put together. -/
theorem isPlainRoot_iff : isPlainRoot l = true ↔ IsPlainRoot l := by
  rw [isPlainRoot, Bool.or_eq_true, Bool.or_eq_true, isSpaceRunName_iff, List.contains_iff_mem]
  constructor
  · rintro ((⟨id, kind, hid, hdigits, hkind, rfl⟩ | hl) | h)
    · exact .space hid hdigits hkind
    · exact .library hl
    · split at h
      · rename_i base suffix hsplit
        simp only [Bool.and_eq_true, Bool.not_eq_true', List.isEmpty_eq_false_iff, List.contains_iff_mem] at h
        rw [(splitLast?_eq_some hsplit).1]
        exact .numbered h.2 h.1.1 h.1.2
      · cases h
  · intro h
    cases h with
    | library hl => exact .inl (.inr hl)
    | space hid hdigits hkind => exact .inl (.inl ⟨_, _, hid, hdigits, hkind, rfl⟩)
    | numbered hl hid hdigits =>
      refine .inr ?_
      rw [splitLast?_append (not_mem_of_allDigits rfl hdigits)]
      simp only [Bool.and_eq_true, Bool.not_eq_true', List.isEmpty_eq_false_iff, List.contains_iff_mem]
      exact ⟨⟨hid, hdigits⟩, hl⟩

/-! ### The shape of roots -/

/-- The letters that roots begin with, those behind white space too. -/
def rootInitials : List Char := "adfhlpqsuw".toList

/-- Endings that no root has. -/
def foreignEndings : List (List Char) := ["ont".toList, "xit".toList, [('>')]]

/-- What the texts of roots have in common, whatever their numbers are. -/
structure RootShape (l : List Char) : Prop where
  /-- They are not shorter than the endings that they do not have. -/
  length : 3 ≤ l.length
  /-- They begin with certain letters. -/
  initial : ∀ c ∈ l.head?, c ∈ rootInitials
  /-- They do not begin like the mark for white space. -/
  unmarked : l.take 3 ≠ "pre".toList
  /-- They have no at sign. -/
  plain : '@' ∉ l
  /-- They do not end like other names. -/
  ending : ∀ w ∈ foreignEndings, ¬w <:+ l

theorem rootShape_of_mem_rootNames : ∀ l ∈ rootNames, RootShape l := by
  -- the first letter is looked up, since there are too many characters to try
  have hchecked : ∀ l ∈ rootNames, 3 ≤ l.length ∧ l.head?.all rootInitials.contains = true ∧
      l.take 3 ≠ "pre".toList ∧ '@' ∉ l ∧ ∀ w ∈ foreignEndings, ¬w <:+ l := by
    decide +kernel
  intro l hl
  obtain ⟨hlength, hinitial, hunmarked, hplain, hending⟩ := hchecked l hl
  refine ⟨hlength, fun c hc => ?_, hunmarked, hplain, hending⟩
  rw [Option.mem_def.mp hc] at hinitial
  exact List.contains_iff_mem.mp hinitial

/-- The last character of a text that ends like other names. -/
theorem exists_getLast?_of_foreignEnding (hw : w ∈ foreignEndings) (h : w <:+ l) :
    ∃ c, l.getLast? = some c ∧ isAsciiDigit c = false ∧ c ≠ 'r' := by
  obtain ⟨t, rfl⟩ := h
  simp only [foreignEndings, List.mem_cons, List.not_mem_nil, or_false] at hw
  rcases hw with rfl | rfl | rfl
  · exact ⟨'t', by simp, by decide, by decide⟩
  · exact ⟨'t', by simp, by decide, by decide⟩
  · exact ⟨'>', by simp, by decide, by decide⟩

theorem IsPlainRoot.shape (h : IsPlainRoot l) : RootShape l := by
  cases h with
  | library hl => exact rootShape_of_mem_rootNames l hl
  | @numbered l id hl hid hdigits =>
    obtain ⟨hlength, hinitial, hunmarked, hplain, -⟩ := rootShape_of_mem_rootNames l hl
    have hne : l ≠ [] := fun h => by simp [h] at hlength
    refine ⟨?_, ?_, ?_, ?_, fun w hw hsuffix => ?_⟩
    · rw [List.length_append]
      omega
    · rwa [List.head?_append_of_ne_nil l hne]
    · rwa [List.take_append_of_le_length hlength]
    · simp [hplain, not_mem_of_allDigits (c := '@') rfl hdigits]
    · -- the last character is a digit
      obtain ⟨v, d, rfl⟩ := (List.eq_nil_or_concat' id).resolve_left hid
      obtain ⟨c, hc, hdigit, -⟩ := exists_getLast?_of_foreignEnding hw hsuffix
      rw [← List.cons_append, ← List.append_assoc, List.getLast?_concat, Option.some_inj] at hc
      rw [← hc, List.all_eq_true.mp hdigits d (List.mem_append_right v List.mem_cons_self)] at hdigit
      cases hdigit
  | @space id kind hid hdigits hkind =>
    refine ⟨?_, ?_, ?_, ?_, fun w hw hsuffix => ?_⟩
    · rcases hkind with rfl | rfl <;> simp
    · rintro c hc
      obtain rfl : 'w' = c := Option.some_inj.mp hc
      decide
    · simp
    · rcases hkind with rfl | rfl <;> simp [not_mem_of_allDigits (c := '@') rfl hdigits]
    · -- both kinds end in the same letter
      obtain ⟨c, hc, -, hne⟩ := exists_getLast?_of_foreignEnding hw hsuffix
      have hlast : ("ws".toList ++ (id ++ '_' :: kind)).getLast? = some 'r' := by
        rcases hkind with rfl | rfl <;> simp [List.getLast?_append, List.getLast?_cons]
      exact hne (Option.some_inj.mp (hc.symm.trans hlast))

/-! ### The mark -/

theorem withoutSpacedMark_append (h : allDigits id = true) :
    withoutSpacedMark ("pre_ws".toList ++ (id ++ '_' :: inner)) = inner := by
  have hmarked : "pre_ws".toList.isPrefixOf? ("pre_ws".toList ++ (id ++ '_' :: inner)) = some (id ++ '_' :: inner) :=
    List.isPrefixOf?_eq_some_iff_append_eq.mpr rfl
  rw [withoutSpacedMark]
  simp only [hmarked, splitFirst?_append (not_mem_of_allDigits (c := '_') rfl h), h, if_true]

/-- Either there is no mark, or a number of digits and an underscore stand behind it. -/
theorem withoutSpacedMark_cases (l : List Char) : withoutSpacedMark l = l ∨
    ∃ id, allDigits id = true ∧ l = "pre_ws".toList ++ (id ++ '_' :: withoutSpacedMark l) := by
  rw [withoutSpacedMark]
  split
  · exact .inl rfl
  · rename_i rest hrest
    obtain rfl := (List.isPrefixOf?_eq_some_iff_append_eq.mp hrest).symm
    split
    · rename_i id inner hsplit
      split
      · rename_i hdigits
        exact .inr ⟨id, hdigits, by rw [(splitFirst?_eq_some hsplit).1]⟩
      · exact .inl rfl
    · exact .inl rfl

theorem RootShape.withoutSpacedMark_eq (h : RootShape l) : withoutSpacedMark l = l := by
  rcases withoutSpacedMark_cases l with heq | ⟨id, -, heq⟩
  · exact heq
  · refine absurd ?_ h.unmarked
    rw [heq]
    rfl

/-- **Names of roots are recognized, and nothing else is**: what stands between the brackets is the text of a root, or
such a text behind the mark for white space. -/
theorem isPatternRoot_iff : isPatternRoot n = true ↔ IsPlainRoot (bareName n).toList ∨
    ∃ id inner, allDigits id = true ∧ IsPlainRoot inner ∧
      (bareName n).toList = "pre_ws".toList ++ (id ++ '_' :: inner) := by
  rw [isPatternRoot_eq, isPlainRoot_iff]
  constructor
  · intro h
    rcases withoutSpacedMark_cases (bareName n).toList with heq | ⟨id, hdigits, heq⟩
    · rw [heq] at h
      exact .inl h
    · exact .inr ⟨id, _, hdigits, h, heq⟩
  · rintro (h | ⟨id, inner, hdigits, h, heq⟩)
    · rwa [h.shape.withoutSpacedMark_eq]
    · rwa [heq, withoutSpacedMark_append hdigits]

/-! ### Names that are recognized -/

theorem mem_rootNames {p : Pattern} (hp : p ∈ patternLibrary) (hn : n ∈ p.roots) : (bareName n).toList ∈ rootNames :=
  List.mem_flatMap.mpr ⟨p, hp, List.mem_map_of_mem hn⟩

/-- What stands between the brackets of a name. -/
theorem bareName_of_toList (h : n.toList = '<' :: (l ++ ['>'])) (hl : l ≠ []) : (bareName n).toList = l := by
  have hname := toList_of_isNonterminalName (isNonterminalName_of_toList h hl)
  rw [h, List.cons_inj_right, List.append_cancel_right_eq] at hname
  exact hname.symm

namespace Pattern

/-- A name that is recognized without the mark is also recognized behind white space. -/
theorem isPatternRoot_spacedName (h : IsPlainRoot (bareName n).toList) (id : Nat) :
    isPatternRoot (spacedName id n) = true := by
  have htext : (bareName (spacedName id n)).toList =
      "pre_ws".toList ++ ((toString id).toList ++ '_' :: (bareName n).toList) := by
    refine bareName_of_toList ?_ (by simp)
    rw [toList_spacedName]
    simp
  exact isPatternRoot_iff.mpr (.inr ⟨_, _, allDigits_toString id, h, htext⟩)

/-- The roots of a pattern, as it is or narrowed. -/
theorem isPlainRoot_of_mem_roots {p : Pattern} (hp : p ∈ patternLibrary) (alphabet : SortedSet Char) (id : Nat)
    (hn : n ∈ p.roots ∨ n ∈ (p.narrowed alphabet id).roots) : IsPlainRoot (bareName n).toList := by
  rcases hn with hn | hn
  · exact .library (mem_rootNames hp hn)
  · rw [roots_narrowed] at hn
    obtain ⟨m, hm, rfl⟩ := List.mem_map.mp hn
    have hname := (wellNamed_of_mem_library hp).conventional m hm
    have htext : (bareName (narrowedName id m)).toList = (bareName m).toList ++ '_' :: (toString id).toList :=
      bareName_of_toList (by rw [toList_narrowedName hname]) (by simp)
    rw [htext]
    exact .numbered (mem_rootNames hp hm) (toList_toString_ne_nil id) (allDigits_toString id)

/-- The names of numbered white space, which end in the kind of what they stand for. -/
theorem isPlainRoot_spaceName (id : Nat) {ending : String} {kind : List Char}
    (hkind : kind = "str".toList ∨ kind = "char".toList) (hending : ending.toList = '_' :: (kind ++ ['>'])) :
    IsPlainRoot (bareName (spaceName id ending)).toList := by
  have htext : (bareName (spaceName id ending)).toList = "ws".toList ++ ((toString id).toList ++ '_' :: kind) := by
    refine bareName_of_toList ?_ (by simp)
    rw [toList_spaceName, hending]
    simp
  rw [htext]
  exact .space (toList_toString_ne_nil id) (allDigits_toString id) hkind

end Pattern

/-! ### Names that are not recognized -/

/-- What the text of a recognized name looks like, the mark included. -/
theorem isPatternRoot_shape (h : isPatternRoot n = true) : (bareName n).toList ≠ [] ∧
    (∀ c ∈ (bareName n).toList.head?, c ∈ rootInitials) ∧ '@' ∉ (bareName n).toList ∧
    ∀ w ∈ foreignEndings, ¬w <:+ (bareName n).toList := by
  rcases isPatternRoot_iff.mp h with hroot | ⟨id, inner, hdigits, hroot, heq⟩
  · refine ⟨fun hnil => ?_, hroot.shape.initial, hroot.shape.plain, hroot.shape.ending⟩
    have hlength := hroot.shape.length
    rw [hnil] at hlength
    cases hlength
  · rw [heq]
    refine ⟨by simp, fun c hc => ?_, ?_, fun w hw hsuffix => hroot.shape.ending w hw ?_⟩
    · obtain rfl : 'p' = c := Option.some_inj.mp hc
      decide
    · simp [not_mem_of_allDigits (c := '@') rfl hdigits, hroot.shape.plain]
    · -- the ending is not longer than the root inside
      have hinner : inner <:+ "pre_ws".toList ++ (id ++ '_' :: inner) := ⟨"pre_ws".toList ++ (id ++ ['_']), by simp⟩
      have hshort : ∀ w ∈ foreignEndings, w.length ≤ 3 := by decide
      exact List.suffix_of_suffix_length_le hsuffix hinner (Nat.le_trans (hshort w hw) hroot.shape.length)

theorem bareName_eq_self (h : isNonterminalName n = false) : bareName n = n := by
  rw [isNonterminalName, Option.isSome_eq_false_iff, Option.isNone_iff_eq_none] at h
  rw [bareName, h]

/-- A name with an at sign. -/
theorem isPatternRoot_of_mem (h : '@' ∈ n.toList) : isPatternRoot n = false := by
  refine Bool.eq_false_iff.mpr fun hroot => (isPatternRoot_shape hroot).2.2.1 ?_
  rcases hname : isNonterminalName n with - | -
  · rwa [bareName_eq_self hname]
  · rw [toList_of_isNonterminalName hname] at h
    simpa using h

/-- A name that begins unlike roots. -/
theorem isPatternRoot_of_initial (h : n.toList = '<' :: c :: l) (hc : c ∉ rootInitials) : isPatternRoot n = false := by
  refine Bool.eq_false_iff.mpr fun hroot => ?_
  obtain ⟨hne, hinitial, -⟩ := isPatternRoot_shape hroot
  rcases hname : isNonterminalName n with - | -
  · rw [bareName_eq_self hname, h] at hinitial
    exact absurd (hinitial '<' rfl) (by decide)
  · obtain ⟨d, rest, hd⟩ := List.exists_cons_of_ne_nil hne
    rw [toList_of_isNonterminalName hname, hd, List.cons_append, List.cons_inj_right, List.cons.injEq] at h
    rw [hd] at hinitial
    exact hc (h.1 ▸ hinitial d rfl)

/-- A name that ends unlike roots. -/
theorem isPatternRoot_of_ending (hw : w ∈ foreignEndings) (hopen : '<' ∉ w) (h : n.toList = u ++ (w ++ ['>'])) :
    isPatternRoot n = false := by
  refine Bool.eq_false_iff.mpr fun hroot => ?_
  obtain ⟨-, -, -, hending⟩ := isPatternRoot_shape hroot
  rcases hname : isNonterminalName n with - | -
  · rw [bareName_eq_self hname, h] at hending
    exact hending ['>'] (by decide) ⟨u ++ w, by rw [List.append_assoc]⟩
  · rw [toList_of_isNonterminalName hname, ← List.cons_append, ← List.append_assoc, List.append_cancel_right_eq] at h
    refine hending w hw ?_
    -- the bracket in front is none of the characters of the ending
    cases u with
    | nil => exact absurd (by rw [← List.nil_append w, ← h]; exact List.mem_cons_self) hopen
    | cons a u => exact ⟨u, (List.cons.inj h).2.symm⟩

theorem isPatternRoot_label (e : PathElement) : isPatternRoot e.label = false := by
  refine isPatternRoot_of_mem ?_
  cases e <;> simp [PathElement.label, PathElement.loopText, PathElement.callText]

theorem isPatternRoot_continueName (n : String) : isPatternRoot (continueName n) = false := by
  refine isPatternRoot_of_ending (u := (withoutLast n).toList ++ ['_', 'c']) (w := "ont".toList) (by decide)
    (by decide) ?_
  simp [continueName]

theorem isPatternRoot_exitName (n : String) : isPatternRoot (exitName n) = false := by
  refine isPatternRoot_of_ending (u := (withoutLast n).toList ++ ['_', 'e']) (w := "xit".toList) (by decide)
    (by decide) ?_
  simp [exitName]

theorem isPatternRoot_literalName (id : Nat) : isPatternRoot (Generalizer.literalName id) = false :=
  isPatternRoot_of_initial (c := 't') (by rw [Generalizer.toList_literalName]; rfl) (by decide)

theorem isPatternRoot_bucketLabel (k : Nat) : isPatternRoot (bucketLabel k) = false := by
  refine isPatternRoot_of_initial (c := '_') (l := ('_' :: 'T' :: (toString k).toList) ++ ['>']) ?_ (by decide)
  simp [bucketLabel]

/-- Names for optional parts have a mark of their own. -/
theorem isPatternRoot_of_isOptionalName (h : Grammar.isOptionalName n = true) : isPatternRoot n = false := by
  obtain ⟨t, ht⟩ := List.isPrefixOf_iff_prefix.mp h
  exact isPatternRoot_of_initial (c := 'o') (by rw [← ht]; rfl) (by decide)

/-! ### Both sides -/

/-- The pattern as it is, narrowed, behind white space, and both. -/
def Pattern.variants (p : Pattern) (alphabet : SortedSet Char) (id : Nat) (space : SortedSet Char) (spaceId : Nat) :
    List Pattern :=
  [p, p.narrowed alphabet id, p.withLeadingSpace space spaceId, (p.narrowed alphabet id).withLeadingSpace space spaceId]

/-- **The names of patterns are told apart from all others.**  The roots of a pattern of the library, of the narrowed
pattern, and of both behind white space pass for roots of patterns, whatever the numbers and the characters are, and so
do the names of numbered runs of white space.  The label of a call, a loop, an iteration or a bucket does not, nor does
the name of a part of a loop, of literals or of an optional part, whatever names they are made from. -/
theorem patternRoots_told_apart :
    (∀ p ∈ patternLibrary, ∀ (alphabet : SortedSet Char) (id : Nat) (space : SortedSet Char) (spaceId : Nat),
      ∀ q ∈ p.variants alphabet id space spaceId, ∀ n ∈ q.roots, isPatternRoot n = true) ∧
    (∀ id, isPatternRoot (spaceRunName id) = true ∧ isPatternRoot (spaceCharName id) = true) ∧
    (∀ e : PathElement, isPatternRoot e.label = false) ∧
    (∀ (s : LabelState) (solutions : List Nat) (keepNull : Bool),
      isPatternRoot (s.bucket solutions keepNull).1.label = false) ∧
    (∀ n, isPatternRoot (continueName n) = false ∧ isPatternRoot (exitName n) = false) ∧
    (∀ id, isPatternRoot (Generalizer.literalName id) = false) ∧
    ∀ (g : Grammar) (n : String), isPatternRoot (g.optionalName n) = false := by
  refine ⟨fun p hp alphabet id space spaceId q hq n hn => ?_, fun id => ⟨?_, ?_⟩, isPatternRoot_label,
    fun s solutions keepNull => isPatternRoot_bucketLabel _,
    fun n => ⟨isPatternRoot_continueName n, isPatternRoot_exitName n⟩, isPatternRoot_literalName,
    fun g n => isPatternRoot_of_isOptionalName (g.isOptionalName_optionalName n)⟩
  · have hplain : ∀ m, m ∈ p.roots ∨ m ∈ (p.narrowed alphabet id).roots → IsPlainRoot (bareName m).toList := fun m =>
      Pattern.isPlainRoot_of_mem_roots hp alphabet id
    -- a root behind white space is made from one that is recognized itself
    have hspaced : ∀ q' : Pattern, (∀ m ∈ q'.roots, IsPlainRoot (bareName m).toList) →
        ∀ m ∈ (q'.withLeadingSpace space spaceId).roots, isPatternRoot m = true := by
      intro q' hq' m hm
      rw [Pattern.roots_withLeadingSpace] at hm
      obtain ⟨k, hk, rfl⟩ := List.mem_map.mp hm
      exact Pattern.isPatternRoot_spacedName (hq' k hk) spaceId
    simp only [Pattern.variants, List.mem_cons, List.not_mem_nil, or_false] at hq
    rcases hq with rfl | rfl | rfl | rfl
    · exact isPatternRoot_iff.mpr (.inl (hplain n (.inl hn)))
    · exact isPatternRoot_iff.mpr (.inl (hplain n (.inr hn)))
    · exact hspaced p (fun m hm => hplain m (.inl hm)) n hn
    · exact hspaced _ (fun m hm => hplain m (.inr hm)) n hn
  · exact isPatternRoot_iff.mpr (.inl (@Pattern.isPlainRoot_spaceName id "_str>" _ (.inl rfl) rfl))
  · exact isPatternRoot_iff.mpr (.inl (@Pattern.isPlainRoot_spaceName id "_char>" _ (.inr rfl) rfl))

/-- A narrowed pattern whose root has underscores of its own, behind white space. -/
theorem patternRoots_lowerRun : ∃ p ∈ patternLibrary, p.stringName = "<lower_ascii_str>" ∧
    isPatternRoot (Pattern.spacedName 2 (Pattern.narrowedName 3 p.stringName)) = true := by
  have hmem : patternLibrary[1] ∈ patternLibrary := List.getElem_mem _
  refine ⟨patternLibrary[1], hmem, rfl, ?_⟩
  exact patternRoots_told_apart.1 _ hmem (.ofList ['a', 'b']) 3 (.ofList [' ']) 2 _
    (List.mem_of_getElem? (i := 3) rfl) _ (Pattern.mem_roots_iff.mpr (.inl rfl))

end GrammarInference
