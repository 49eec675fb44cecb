/-
GrammarInference/Proofs/Trace/Validation.lean

Which records make up a trace.

Design.  `Denotes` says how a key may be spelled: white space, a plus sign or none, digits, white space.  Several keys
denote one position, and the order of the keys as texts is not the order of the positions, so neither the order of
the records nor a comparison of keys says whether they make up a trace.  `ofRecords_eq_ok_iff` says it: a trace comes
out when the records, with their keys read as numbers, are the positions of the trace with their numbers, in some
order.  It is put together from what the two passes do: `index` reads the keys and refuses a number that occurs twice,
`check` goes through the sorted numbers and refuses any that is not the next.

`IsContiguous` describes the records without the passes and without a trace.  That such records make up a trace is
shown by putting the numbers in order, which `exists_perm_zipIdx` does.
-/
import GrammarInference.Collection.SortedSet
import Mathlib.Data.List.Nodup
import Mathlib.Data.List.Perm.Basic
import Mathlib.Data.List.Sort
import Mathlib.Data.List.TakeWhile
import GrammarInference.Trace.Basic

namespace GrammarInference

variable {l : List Char} {c : Char} {w : UInt64}

/-! ### Reading a number -/

theorem naturalOfDigits_eq (l : List Char) : naturalOfDigits l = Nat.ofDigitChars 10 l 0 :=
  List.foldl_ext _ _ 0 fun n c _ => by rw [Nat.mul_comm]; rfl

theorem isSpace_of_isAsciiDigit (h : isAsciiDigit c = true) : isSpace c = false := by
  rw [isAsciiDigit, Char.isDigit, Bool.and_eq_true, decide_eq_true_eq, decide_eq_true_eq] at h
  have hlow : 48 ≤ c.toNat := h.1
  have hhigh : c.toNat ≤ 57 := h.2
  simp only [isSpace, CodePoint.spaceRanges, CodePoint.inRanges]
  grind

/-- The part between the white space, whatever that part is. -/
theorem trimSpace_eq (l : List Char) : ∃ before after : List Char, l = before ++ (trimSpace l ++ after) ∧
    (∀ c ∈ before, isSpace c = true) ∧ ∀ c ∈ after, isSpace c = true := by
  refine ⟨l.takeWhile isSpace, ((l.dropWhile isSpace).reverse.takeWhile isSpace).reverse, ?_,
    fun c h => List.mem_takeWhile_imp h, fun c h => List.mem_takeWhile_imp (List.mem_reverse.mp h)⟩
  rw [trimSpace, ← List.reverse_append, List.takeWhile_append_dropWhile, List.reverse_reverse,
    List.takeWhile_append_dropWhile]

theorem dropWhile_of_forall_not {p : Char → Bool} {rest : List Char} (hne : l ≠ []) (h : ∀ c ∈ l, p c = false) :
    (l ++ rest).dropWhile p = l ++ rest := by
  obtain ⟨c, m, rfl⟩ := List.exists_cons_of_ne_nil hne
  exact List.dropWhile_cons_of_neg (by rw [h c List.mem_cons_self]; exact Bool.false_ne_true)

theorem trimSpace_append {before after : List Char} (hbefore : ∀ c ∈ before, isSpace c = true)
    (hafter : ∀ c ∈ after, isSpace c = true) (hne : l ≠ []) (hl : ∀ c ∈ l, isSpace c = false) :
    trimSpace (before ++ (l ++ after)) = l := by
  have hback : (l ++ after).reverse = after.reverse ++ (l.reverse ++ []) := by
    rw [List.reverse_append, List.append_nil]
  rw [trimSpace, List.dropWhile_append_of_pos hbefore, dropWhile_of_forall_not hne hl, hback,
    List.dropWhile_append_of_pos fun c h => hafter c (List.mem_reverse.mp h),
    dropWhile_of_forall_not (List.reverse_ne_nil_iff.mpr hne) fun c h => hl c (List.mem_reverse.mp h),
    List.append_nil, List.reverse_reverse]

theorem dropPlus_append {sign digits : List Char} (hsign : sign = [] ∨ sign = ['+'])
    (hdigits : ∀ c ∈ digits, isAsciiDigit c = true) : dropPlus (sign ++ digits) = digits := by
  rcases hsign with rfl | rfl
  · rw [List.nil_append]
    unfold dropPlus
    split
    · exact absurd (hdigits '+' List.mem_cons_self) (by decide)
    · rfl
  · rfl

theorem eq_append_dropPlus (l : List Char) : ∃ sign, (sign = [] ∨ sign = ['+']) ∧ l = sign ++ dropPlus l := by
  unfold dropPlus
  split
  · exact ⟨['+'], .inr rfl, rfl⟩
  · exact ⟨[], .inl rfl, rfl⟩

theorem parseWord?_eq_some_iff : parseWord? l = some w ↔ dropPlus l ≠ [] ∧
    (∀ c ∈ dropPlus l, isAsciiDigit c = true) ∧ Nat.ofDigitChars 10 (dropPlus l) 0 = w.toNat := by
  unfold parseWord?
  rw [naturalOfDigits_eq]
  by_cases hd : dropPlus l ≠ [] ∧ ∀ c ∈ dropPlus l, isAsciiDigit c = true
  · have hok : ((dropPlus l).isEmpty || !(dropPlus l).all isAsciiDigit) = false := by
      rw [List.isEmpty_eq_false_iff.mpr hd.1, List.all_eq_true.mpr hd.2]
      rfl
    rw [if_neg (by rw [hok]; exact Bool.false_ne_true)]
    by_cases hlt : Nat.ofDigitChars 10 (dropPlus l) 0 < UInt64.size
    · rw [if_pos hlt, Option.some.injEq, ← UInt64.toNat_inj, UInt64.toNat_ofNat_of_lt' hlt]
      exact ⟨fun h => ⟨hd.1, hd.2, h⟩, fun h => h.2.2⟩
    · rw [if_neg hlt]
      exact ⟨fun h => (by cases h), fun h => absurd (h.2.2 ▸ w.toNat_lt_size) hlt⟩
  · have hbad : ((dropPlus l).isEmpty || !(dropPlus l).all isAsciiDigit) = true := by
      rw [Bool.or_eq_true, List.isEmpty_iff, Bool.not_eq_true', ← Bool.not_eq_true, List.all_eq_true]
      exact Classical.or_iff_not_imp_left.mpr fun hne hall => hd ⟨hne, hall⟩
    rw [if_pos hbad]
    exact ⟨fun h => (by cases h), fun h => absurd ⟨h.1, h.2.1⟩ hd⟩

namespace Trace

variable {key : String} {p : Nat} {t : Trace} {records : OrderedMap String PositionRecord}

/-! ### Keys -/

/-- The key is the number `p` of 64 bits in digits, with a plus sign or without, between white space. -/
def Denotes (key : String) (p : Nat) : Prop :=
  ∃ before sign digits after : List Char, key.toList = before ++ ((sign ++ digits) ++ after) ∧
    (∀ c ∈ before, isSpace c = true) ∧ (∀ c ∈ after, isSpace c = true) ∧ (sign = [] ∨ sign = ['+']) ∧
    digits ≠ [] ∧ (∀ c ∈ digits, isAsciiDigit c = true) ∧ Nat.ofDigitChars 10 digits 0 = p ∧ p < UInt64.size

theorem positionOfKey?_eq_some_iff : (positionOfKey? key).map UInt64.toNat = some p ↔ Denotes key p := by
  unfold positionOfKey?
  constructor
  · intro h
    obtain ⟨w, hw, rfl⟩ := Option.map_eq_some_iff.mp h
    obtain ⟨before, after, htext, hbefore, hafter⟩ := trimSpace_eq key.toList
    obtain ⟨sign, hsign, htrim⟩ := eq_append_dropPlus (trimSpace key.toList)
    obtain ⟨hne, hdigits, hvalue⟩ := parseWord?_eq_some_iff.mp hw
    exact ⟨before, sign, dropPlus (trimSpace key.toList), after, by rw [← htrim]; exact htext, hbefore, hafter, hsign,
      hne, hdigits, hvalue, w.toNat_lt_size⟩
  · rintro ⟨before, sign, digits, after, htext, hbefore, hafter, hsign, hne, hdigits, hvalue, hlt⟩
    have hspace : ∀ c ∈ sign ++ digits, isSpace c = false := by
      intro c hc
      rcases List.mem_append.mp hc with hc | hc
      · rcases hsign with rfl | rfl
        · exact absurd hc List.not_mem_nil
        · rw [List.mem_singleton.mp hc]
          decide
      · exact isSpace_of_isAsciiDigit (hdigits c hc)
    have hread : parseWord? (trimSpace key.toList) = some (UInt64.ofNat p) := by
      rw [htext, trimSpace_append hbefore hafter (List.append_ne_nil_of_right_ne_nil sign hne) hspace]
      refine parseWord?_eq_some_iff.mpr ?_
      rw [dropPlus_append hsign hdigits, UInt64.toNat_ofNat_of_lt' hlt]
      exact ⟨hne, hdigits, hvalue⟩
    rw [hread, Option.map_some, UInt64.toNat_ofNat_of_lt' hlt]

theorem Denotes.lt_size (h : Denotes key p) : p < UInt64.size := by
  obtain ⟨-, -, -, -, -, -, -, -, -, -, -, hlt⟩ := h
  exact hlt

example : Denotes " +01" 1 := positionOfKey?_eq_some_iff.mp (by decide)

/-- Every position is denoted by its digits. -/
theorem denotes_toString (hp : p < UInt64.size) : Denotes (toString p) p := by
  refine ⟨[], [], (toString p).toList, [], ?_, by simp, by simp, .inl rfl, toList_toString_ne_nil p,
    fun c h => isDigit_of_mem_toString h, ?_, hp⟩
  · rw [List.append_nil, List.nil_append, List.nil_append]
  · rw [Nat.toString_eq_repr, Nat.toList_repr]
    exact Nat.ofDigitChars_ten_toDigits

/-! ### The two passes -/

/-- An entry with its key read. -/
def readRecord? (e : String × PositionRecord) : Option (UInt64 × PositionRecord) :=
  (positionOfKey? e.1).map fun w => (w, e.2)

/-- A numbered record with a natural number for the word. -/
def number (e : UInt64 × PositionRecord) : Nat × PositionRecord := (e.1.toNat, e.2)

/-- An entry with its key read as a natural number. -/
def numbered? (e : String × PositionRecord) : Option (Nat × PositionRecord) := (readRecord? e).map number

theorem numbered?_eq_some_iff {e : String × PositionRecord} {r : PositionRecord} :
    numbered? e = some (p, r) ↔ Denotes e.1 p ∧ e.2 = r := by
  rw [← positionOfKey?_eq_some_iff, numbered?, readRecord?]
  cases positionOfKey? e.1 with
  | none => exact ⟨fun h => (by cases h), fun h => (by cases h.1)⟩
  | some w =>
    rw [Option.map_some, Option.map_some, Option.map_some, Option.some.injEq, Option.some.injEq]
    exact Prod.mk.injEq .. ▸ Iff.rfl

/-- The records of a trace with their positions. -/
def numbered (t : Trace) : List (Nat × PositionRecord) := t.positions.zipIdx.map Prod.swap

section Index

variable {seen indexed : List (UInt64 × PositionRecord)} {entries : List (String × PositionRecord)}

/-- The keys are read one by one, and no number occurs twice. -/
theorem index_eq_ok_iff (hseen : (seen.map Prod.fst).Nodup) : index seen entries = .ok indexed ↔
    ∃ new, indexed = seen ++ new ∧ (indexed.map Prod.fst).Nodup ∧
      entries.map readRecord? = new.map some := by
  induction entries generalizing seen with
  | nil =>
    rw [index, Except.ok.injEq]
    constructor
    · rintro rfl
      exact ⟨[], (List.append_nil seen).symm, hseen, rfl⟩
    · rintro ⟨new, rfl, -, hnew⟩
      rw [List.map_eq_nil_iff.mp hnew.symm, List.append_nil]
  | cons e entries ih =>
    obtain ⟨key, r⟩ := e
    rw [index, List.map_cons, readRecord?]
    cases hkey : positionOfKey? key with
    | none =>
      refine ⟨fun h => (by cases h), ?_⟩
      rintro ⟨new, -, -, hnew⟩
      obtain ⟨f, -, hf⟩ := List.mem_map.mp (hnew ▸ List.mem_cons_self)
      cases hf
    | some w =>
      dsimp only [Option.map_some]
      have hold : (seen.any fun e => decide (e.1 = w)) = true ↔ w ∈ seen.map Prod.fst := by
        rw [List.any_eq_true, List.mem_map]
        exact exists_congr fun e => and_congr_right fun _ => decide_eq_true_iff
      by_cases hw : w ∈ seen.map Prod.fst
      · refine ⟨fun h => (by rw [if_pos (hold.mpr hw)] at h; cases h), ?_⟩
        -- the number would occur among the old ones and at the head of the new ones
        rintro ⟨new, rfl, hnodup, hnew⟩
        obtain ⟨f, new, rfl, hf, -⟩ := List.map_eq_cons_iff.mp hnew.symm
        cases hf
        rw [List.map_append, List.nodup_append] at hnodup
        exact absurd rfl (hnodup.2.2 w hw w List.mem_cons_self)
      · have hseen' : ((seen ++ [(w, r)]).map Prod.fst).Nodup := by
          rw [List.map_append, List.map_singleton, ← List.concat_eq_append]
          exact hseen.concat hw
        rw [if_neg (mt hold.mp hw), ih hseen']
        constructor
        · rintro ⟨new, rfl, hnodup, hnew⟩
          refine ⟨(w, r) :: new, List.append_assoc .., hnodup, ?_⟩
          rw [hnew]
          rfl
        · rintro ⟨new, rfl, hnodup, hnew⟩
          obtain ⟨f, new, rfl, hf, hrest⟩ := List.map_eq_cons_iff.mp hnew.symm
          cases hf
          exact ⟨new, (List.append_assoc seen [(w, r)] new).symm, hnodup, hrest.symm⟩

theorem index_nil_eq_ok_iff : index [] entries = .ok indexed ↔
    (indexed.map Prod.fst).Nodup ∧ entries.map readRecord? = indexed.map some := by
  have hnil : (([] : List (UInt64 × PositionRecord)).map Prod.fst).Nodup := List.nodup_nil
  rw [index_eq_ok_iff hnil]
  constructor
  · rintro ⟨_, rfl, hnodup, hread⟩
    exact ⟨hnodup, hread⟩
  · rintro ⟨hnodup, hread⟩
    exact ⟨indexed, rfl, hnodup, hread⟩

end Index

/-- The sorted numbers have to be the next ones throughout, over consistent records. -/
theorem check_eq_ok_iff {first : Nat} {h : first ≤ UInt64.size} {sorted : List (UInt64 × PositionRecord)}
    {positions : List PositionRecord} : (∃ c, check first h sorted = .ok c ∧ c.1 = positions) ↔
      sorted.map number = (positions.zipIdx first).map Prod.swap ∧ ∀ r ∈ positions, r.Consistent := by
  induction sorted generalizing first positions with
  | nil =>
    constructor
    · rintro ⟨c, hc, rfl⟩
      cases hc
      exact ⟨rfl, List.forall_mem_nil _⟩
    · rintro ⟨hmap, -⟩
      have hnil : positions = [] := by
        rw [← List.length_eq_zero_iff, ← List.length_zipIdx (i := first), List.length_eq_zero_iff]
        exact List.map_eq_nil_iff.mp hmap.symm
      exact ⟨_, rfl, hnil.symm⟩
  | cons e sorted ih =>
    obtain ⟨w, r⟩ := e
    constructor
    · rintro ⟨c, hc, rfl⟩
      unfold check at hc
      split at hc
      · cases hc
      split at hc
      · cases hc
      split at hc
      · cases hc
      rename_i hp ho hs
      dsimp only at hc
      split at hc
      · cases hc
      · rename_i l hl hn hrest
        cases hc
        have hmap := (ih.mp ⟨_, hrest, rfl⟩).1
        refine ⟨?_, List.forall_mem_cons.mpr ⟨⟨Decidable.of_not_not ho, hs⟩, hl⟩⟩
        rw [List.map_cons, hmap, number, Decidable.of_not_not hp]
        rfl
    · rintro ⟨hmap, hcons⟩
      cases positions with
      | nil => cases hmap
      | cons r' positions =>
        rw [List.zipIdx_cons, List.map_cons, List.map_cons, List.cons.injEq] at hmap
        obtain ⟨hhead, htail⟩ := hmap
        have hw : w.toNat = first := congrArg Prod.fst hhead
        obtain rfl : r = r' := congrArg Prod.snd hhead
        obtain ⟨hr, hrest⟩ := List.forall_mem_cons.mp hcons
        have hlt : first + 1 ≤ UInt64.size := hw ▸ w.toNat_lt_size
        obtain ⟨⟨l, hl, hn⟩, hc, rfl⟩ := (ih (h := hlt)).mpr ⟨htail, hrest⟩
        refine ⟨⟨r :: l, hcons, ?_⟩, ?_, rfl⟩
        · rw [List.length_cons, ← Nat.add_assoc, Nat.add_right_comm]
          exact hn
        · rw [check, dif_neg (not_not_intro hw), dif_neg (not_not_intro hr.1), dif_neg hr.2]
          simp only [hc]

/-! ### Sorting by number -/

section Sorting

variable {α : Type}

theorem map_fst_swap_zipIdx (m : List α) : (m.zipIdx.map Prod.swap).map Prod.fst = List.range m.length := by
  rw [List.map_map, List.range_eq_range']
  exact List.zipIdx_map_snd 0 m

/-- Numbers from zero on, each once, are the numbers of some list. -/
theorem exists_perm_zipIdx {l : List (Nat × α)} (h : (l.map Prod.fst).Perm (List.range l.length)) :
    ∃ m : List α, l.Perm (m.zipIdx.map Prod.swap) := by
  let sorted := l.mergeSort fun a b => decide (a.1 ≤ b.1)
  have hperm : sorted.Perm l := List.mergeSort_perm ..
  have hfst : sorted.map Prod.fst = List.range l.length := by
    refine ((hperm.map Prod.fst).trans h).eq_of_pairwise (fun a b _ _ => Nat.le_antisymm) ?_ List.pairwise_le_range
    exact (pairwise_mergeSort_key Prod.fst l).map Prod.fst fun a b hab => hab
  refine ⟨sorted.map Prod.snd, hperm.symm.trans (List.Perm.of_eq ?_)⟩
  rw [List.zipIdx_eq_zip_range', List.length_map, hperm.length_eq, ← List.range_eq_range', ← hfst, List.zip_map',
    List.map_map]
  exact (List.map_id sorted).symm

/-- Sorting puts a numbered list back in order. -/
theorem eq_zipIdx_of_perm {l : List (Nat × α)} {m : List α} (hsorted : l.Pairwise fun a b => a.1 ≤ b.1)
    (h : l.Perm (m.zipIdx.map Prod.swap)) : l = m.zipIdx.map Prod.swap := by
  have hfst := map_fst_swap_zipIdx m
  refine h.eq_of_pairwise (fun a b ha hb hab hba => ?_) hsorted (List.pairwise_map.mp (hfst ▸ List.pairwise_le_range))
  exact List.inj_on_of_nodup_map (hfst ▸ List.nodup_range) (h.mem_iff.mp ha) hb (Nat.le_antisymm hab hba)

theorem exists_eq_map_some {l : List (Option α)} (h : ∀ o ∈ l, o ≠ none) : ∃ m : List α, l = m.map some := by
  induction l with
  | nil => exact ⟨[], rfl⟩
  | cons o l ih =>
    obtain ⟨ho, hl⟩ := List.forall_mem_cons.mp h
    obtain ⟨a, rfl⟩ := Option.ne_none_iff_exists'.mp ho
    obtain ⟨m, rfl⟩ := ih hl
    exact ⟨a :: m, rfl⟩

end Sorting

/-! ### What comes out -/

/-- The entries in the order of their keys as texts. -/
def byKey (records : OrderedMap String PositionRecord) : List (String × PositionRecord) :=
  records.entries.mergeSort fun a b => !decide (b.1 < a.1)

/-- Numbered records in the order of their numbers. -/
def byNumber (l : List (UInt64 × PositionRecord)) : List (UInt64 × PositionRecord) :=
  l.mergeSort fun a b => decide (a.1.toNat ≤ b.1.toNat)

/-- The passes one after the other: the keys are read, sorted as numbers, and are the positions then. -/
theorem ofRecords_eq_ok_iff_passes : ofRecords records = .ok t ↔
    ∃ new, (new.map Prod.fst).Nodup ∧ (byKey records).map readRecord? = new.map some ∧
      (byNumber new).map number = t.numbered := by
  unfold ofRecords
  rw [← byKey]
  dsimp only
  constructor
  · intro h
    split at h
    · cases h
    rename_i indexed hindex
    rw [← byNumber] at h
    split at h
    · cases h
    rename_i l hl hn hcheck
    split at h
    · cases h
    cases h
    obtain ⟨hnodup, hread⟩ := index_nil_eq_ok_iff.mp hindex
    exact ⟨indexed, hnodup, hread, (check_eq_ok_iff.mp ⟨_, hcheck, rfl⟩).1⟩
  · rintro ⟨new, hnodup, hread, hsorted⟩
    have hindex : index [] (byKey records) = .ok new := index_nil_eq_ok_iff.mpr ⟨hnodup, hread⟩
    obtain ⟨⟨l, hl, hn⟩, hcheck, hpositions⟩ :=
      (check_eq_ok_iff (h := Nat.zero_le _)).mpr ⟨hsorted, t.consistent⟩
    obtain rfl : l = t.positions := hpositions
    rw [hindex]
    dsimp only
    rw [← byNumber, hcheck]
    exact dif_neg t.nonempty

theorem map_numbered? (l : List (String × PositionRecord)) :
    l.map numbered? = (l.map readRecord?).map (Option.map number) := by
  rw [List.map_map]
  rfl

theorem map_some_number (l : List (UInt64 × PositionRecord)) :
    (l.map some).map (Option.map number) = (l.map number).map some := by
  rw [List.map_map, List.map_map]
  rfl

/-- The records make up a trace when they are its records, under keys that denote their positions. -/
theorem ofRecords_eq_ok_iff :
    ofRecords records = .ok t ↔ (records.entries.map numbered?).Perm (t.numbered.map some) := by
  have hbyKey : (records.entries.map numbered?).Perm ((byKey records).map numbered?) :=
    (List.mergeSort_perm ..).symm.map numbered?
  have hbyNumber : ∀ new, ((byNumber new).map number).Perm (new.map number) :=
    fun new => (List.mergeSort_perm ..).map number
  rw [ofRecords_eq_ok_iff_passes]
  constructor
  · rintro ⟨new, -, hread, hsorted⟩
    refine hbyKey.trans ?_
    rw [map_numbered?, hread, map_some_number, ← hsorted]
    exact (hbyNumber new).symm.map some
  · intro h
    have hread : ∀ o ∈ (byKey records).map readRecord?, o ≠ none := by
      rintro o ho rfl
      have hnone : none ∈ (byKey records).map numbered? := by
        rw [map_numbered?]
        exact List.mem_map.mpr ⟨none, ho, rfl⟩
      obtain ⟨e, -, he⟩ := List.mem_map.mp ((hbyKey.symm.trans h).mem_iff.mp hnone)
      cases he
    obtain ⟨new, hnew⟩ := exists_eq_map_some hread
    have hperm : (new.map number).Perm t.numbered := by
      refine (List.map_perm_map_iff (Option.some_injective _)).mp ?_
      rw [← map_some_number, ← hnew, ← map_numbered?]
      exact hbyKey.symm.trans h
    refine ⟨new, ?_, hnew, eq_zipIdx_of_perm ?_ ((hbyNumber new).trans hperm)⟩
    · have hnodup : ((new.map number).map Prod.fst).Nodup :=
        (hperm.map Prod.fst).nodup_iff.mpr (map_fst_swap_zipIdx t.positions ▸ List.nodup_range)
      refine List.Nodup.of_map UInt64.toNat ?_
      rw [List.map_map]
      rwa [List.map_map] at hnodup
    · exact (pairwise_mergeSort_key (fun e => e.1.toNat) new).map number fun a b hab => hab

/-! ### The description without the passes -/

/-- The keys denote the positions from zero on, each once, and every record has a call stack for each read and a
solution. -/
structure IsContiguous (records : OrderedMap String PositionRecord) : Prop where
  /-- There is a record. -/
  nonempty : records.size ≠ 0
  /-- Every key is a number. -/
  denotes : ∀ key ∈ records.keys, ∃ p, Denotes key p
  /-- Two keys never denote one number. -/
  distinct : ∀ key ∈ records.keys, ∀ key' ∈ records.keys, ∀ p, Denotes key p → Denotes key' p → key = key'
  /-- The numbers are those below the number of records. -/
  covers : ∀ p, (∃ key ∈ records.keys, Denotes key p) ↔ p < records.size
  /-- Every record has as many call stacks as reads. -/
  contexts : ∀ r ∈ records.values, r.readOrders.length = r.contexts.length
  /-- Every record has a solution. -/
  solutions : ∀ r ∈ records.values, r.solutions ≠ []

section Contiguous

variable {r : PositionRecord}

theorem mem_numbered : (p, r) ∈ t.numbered ↔ t.positions[p]? = some r := by
  rw [numbered, List.mem_map, ← List.mk_mem_zipIdx_iff_getElem?]
  constructor
  · rintro ⟨⟨r', p'⟩, he, heq⟩
    cases heq
    exact he
  · intro h
    exact ⟨(r, p), h, rfl⟩

theorem length_numbered : t.numbered.length = t.positions.length := by
  rw [numbered, List.length_map, List.length_zipIdx]

theorem some_mem_map_numbered? :
    some (p, r) ∈ records.entries.map numbered? ↔ ∃ key, (key, r) ∈ records.entries ∧ Denotes key p := by
  rw [List.mem_map]
  constructor
  · rintro ⟨⟨key, r'⟩, hkey, hread⟩
    obtain ⟨hp, rfl⟩ := numbered?_eq_some_iff.mp hread
    exact ⟨key, hkey, hp⟩
  · rintro ⟨key, hkey, hp⟩
    exact ⟨(key, r), hkey, numbered?_eq_some_iff.mpr ⟨hp, rfl⟩⟩

/-- Under the key of a position stands its record, and nothing else does. -/
theorem exists_entry_iff (h : ofRecords records = .ok t) :
    (∃ key, (key, r) ∈ records.entries ∧ Denotes key p) ↔ t.positions[p]? = some r := by
  rw [← mem_numbered, ← List.mem_map_of_injective (Option.some_injective _), ← some_mem_map_numbered?]
  exact (ofRecords_eq_ok_iff.mp h).mem_iff

theorem exists_denotes (h : ofRecords records = .ok t) {key : String} (hkey : (key, r) ∈ records.entries) :
    ∃ p, Denotes key p ∧ t.positions[p]? = some r := by
  have hmem : numbered? (key, r) ∈ t.numbered.map some :=
    (ofRecords_eq_ok_iff.mp h).mem_iff.mp (List.mem_map_of_mem hkey)
  obtain ⟨⟨p, r'⟩, hp, hread⟩ := List.mem_map.mp hmem
  obtain ⟨hdenotes, rfl⟩ := numbered?_eq_some_iff.mp hread.symm
  exact ⟨p, hdenotes, mem_numbered.mp hp⟩

theorem length_positions (h : ofRecords records = .ok t) : t.positions.length = records.size := by
  have hlength := (ofRecords_eq_ok_iff.mp h).length_eq
  rw [List.length_map, List.length_map, length_numbered] at hlength
  exact hlength.symm

theorem isContiguous_of_ofRecords (h : ofRecords records = .ok t) : IsContiguous records where
  nonempty := by
    rw [← length_positions h]
    exact mt List.length_eq_zero_iff.mp t.nonempty
  denotes := fun key hkey => by
    obtain ⟨⟨key, r⟩, hentry, rfl⟩ := List.mem_map.mp hkey
    obtain ⟨p, hp, -⟩ := exists_denotes h hentry
    exact ⟨p, hp⟩
  distinct := fun key hkey key' hkey' p hp hp' => by
    obtain ⟨⟨key, r⟩, hentry, rfl⟩ := List.mem_map.mp hkey
    obtain ⟨⟨key', r'⟩, hentry', rfl⟩ := List.mem_map.mp hkey'
    -- both entries are the one record at the position, and no entry is there twice
    have hr : t.positions[p]? = some r := (exists_entry_iff h).mp ⟨key, hentry, hp⟩
    have hr' : t.positions[p]? = some r' := (exists_entry_iff h).mp ⟨key', hentry', hp'⟩
    obtain rfl : r = r' := Option.some.inj (hr.symm.trans hr')
    have hnodup : (records.entries.map numbered?).Nodup := by
      refine (ofRecords_eq_ok_iff.mp h).nodup_iff.mpr (List.Nodup.map (Option.some_injective _) ?_)
      exact List.Nodup.of_map Prod.fst (map_fst_swap_zipIdx t.positions ▸ List.nodup_range)
    exact congrArg Prod.fst (List.inj_on_of_nodup_map hnodup hentry hentry'
      ((numbered?_eq_some_iff.mpr ⟨hp, rfl⟩).trans (numbered?_eq_some_iff.mpr ⟨hp', rfl⟩).symm))
  covers := fun p => by
    rw [← length_positions h]
    constructor
    · rintro ⟨key, hkey, hp⟩
      obtain ⟨⟨key, r⟩, hentry, rfl⟩ := List.mem_map.mp hkey
      exact (List.getElem?_eq_some_iff.mp ((exists_entry_iff h).mp ⟨key, hentry, hp⟩)).1
    · intro hp
      obtain ⟨key, hentry, hdenotes⟩ := (exists_entry_iff h).mpr (List.getElem?_eq_getElem hp)
      exact ⟨key, List.mem_map_of_mem hentry, hdenotes⟩
  contexts := fun r hr => by
    obtain ⟨⟨key, r⟩, hentry, rfl⟩ := List.mem_map.mp hr
    obtain ⟨p, -, hp⟩ := exists_denotes h hentry
    exact (t.consistent r (List.mem_of_getElem? hp)).1
  solutions := fun r hr => by
    obtain ⟨⟨key, r⟩, hentry, rfl⟩ := List.mem_map.mp hr
    obtain ⟨p, -, hp⟩ := exists_denotes h hentry
    exact (t.consistent r (List.mem_of_getElem? hp)).2

theorem IsContiguous.exists_numbered (h : IsContiguous records) :
    ∃ new : List (Nat × PositionRecord), records.entries.map numbered? = new.map some := by
  refine exists_eq_map_some ?_
  rintro o ho rfl
  obtain ⟨⟨key, r⟩, hentry, hnone⟩ := List.mem_map.mp ho
  obtain ⟨p, hp⟩ := h.denotes key (List.mem_map_of_mem hentry)
  rw [numbered?_eq_some_iff.mpr ⟨hp, rfl⟩] at hnone
  cases hnone

section Numbered

variable {new : List (Nat × PositionRecord)} (hnew : records.entries.map numbered? = new.map some)
include hnew

theorem mem_iff_exists_entry : (p, r) ∈ new ↔ ∃ key, (key, r) ∈ records.entries ∧ Denotes key p := by
  rw [← List.mem_map_of_injective (Option.some_injective _), ← hnew, some_mem_map_numbered?]

theorem length_eq_size : new.length = records.size := by
  have hmap := congrArg List.length hnew
  rw [List.length_map, List.length_map] at hmap
  exact hmap.symm

/-- Keys that denote different numbers are read as different numbers. -/
theorem IsContiguous.nodup_map_fst (h : IsContiguous records) : (new.map Prod.fst).Nodup := by
  have hfst : (new.map Prod.fst).map some = records.entries.map fun e => (numbered? e).map Prod.fst := by
    rw [← Function.comp_def (Option.map Prod.fst), ← List.map_map, hnew, List.map_map, List.map_map]
    rfl
  refine List.Nodup.of_map some ?_
  rw [hfst]
  refine List.Nodup.map_on (fun e he f hf hef => ?_) (List.Nodup.of_map Prod.fst records.nodup_keys)
  obtain ⟨p, hp⟩ := h.denotes e.1 (List.mem_map_of_mem he)
  rw [numbered?_eq_some_iff.mpr ⟨hp, rfl⟩] at hef
  obtain ⟨⟨p', r⟩, hread, hfst⟩ := Option.map_eq_some_iff.mp hef.symm
  obtain rfl : p' = p := hfst
  refine List.inj_on_of_nodup_map records.nodup_keys he hf ?_
  exact h.distinct e.1 (List.mem_map_of_mem he) f.1 (List.mem_map_of_mem hf) _ hp (numbered?_eq_some_iff.mp hread).1

/-- The numbers are those from zero on, each once. -/
theorem IsContiguous.perm_range (h : IsContiguous records) : (new.map Prod.fst).Perm (List.range new.length) := by
  refine (List.perm_ext_iff_of_nodup (h.nodup_map_fst hnew) List.nodup_range).mpr fun p => ?_
  rw [List.mem_range, length_eq_size hnew, ← h.covers p, List.mem_map]
  constructor
  · rintro ⟨⟨p, r⟩, he, rfl⟩
    obtain ⟨key, hkey, hp⟩ := (mem_iff_exists_entry hnew).mp he
    exact ⟨key, List.mem_map_of_mem hkey, hp⟩
  · rintro ⟨key, hkey, hp⟩
    obtain ⟨⟨key', r⟩, he, rfl⟩ := List.mem_map.mp hkey
    exact ⟨(p, r), (mem_iff_exists_entry hnew).mpr ⟨key', he, hp⟩, rfl⟩

end Numbered

theorem exists_ofRecords_of_isContiguous (h : IsContiguous records) : ∃ t, ofRecords records = .ok t := by
  obtain ⟨new, hnew⟩ := h.exists_numbered
  obtain ⟨m, hm⟩ := exists_perm_zipIdx (h.perm_range hnew)
  have hsize : m.length = records.size := by
    rw [← length_eq_size hnew, hm.length_eq, List.length_map, List.length_zipIdx]
  have hconsistent : ∀ r ∈ m, r.Consistent := by
    intro r hr
    obtain ⟨i, hi⟩ := List.mem_iff_getElem?.mp hr
    have hmem : (i, r) ∈ new := hm.mem_iff.mpr (List.mem_map_of_mem (List.mk_mem_zipIdx_iff_getElem?.mpr hi))
    obtain ⟨key, hkey, -⟩ := (mem_iff_exists_entry hnew).mp hmem
    exact ⟨h.contexts r (List.mem_map_of_mem hkey), h.solutions r (List.mem_map_of_mem hkey)⟩
  have hbound : m.length ≤ UInt64.size := by
    obtain ⟨n, hn⟩ := Nat.exists_eq_succ_of_ne_zero h.nonempty
    obtain ⟨key, -, hlast⟩ := (h.covers n).mpr (by rw [hn]; exact Nat.lt_succ_self n)
    rw [hsize, hn]
    exact hlast.lt_size
  have hne : m ≠ [] := by
    rintro rfl
    exact h.nonempty hsize.symm
  refine ⟨⟨m, hne, hconsistent, hbound⟩, ofRecords_eq_ok_iff.mpr ?_⟩
  rw [hnew]
  exact hm.map some

end Contiguous

/-- **Validation accepts the contiguous traces, and no others.**  Records make up a trace exactly if there are any, all
keys denote numbers, no two keys denote the same, the numbers are those from zero on, and every record has a call stack
for each read and a solution.  In the trace each record stands at the position that its key denotes, however the keys
are spelled and in whatever order they stand as texts. -/
theorem ofRecords_accepts_contiguous (records : OrderedMap String PositionRecord) :
    ((∃ t, ofRecords records = .ok t) ↔ IsContiguous records) ∧
      ∀ t, ofRecords records = .ok t → t.positions.length = records.size ∧
        ∀ key r p, (key, r) ∈ records.entries → Denotes key p → t.positions[p]? = some r := by
  refine ⟨⟨fun ⟨t, h⟩ => isContiguous_of_ofRecords h, exists_ofRecords_of_isContiguous⟩, fun t h => ?_⟩
  exact ⟨length_positions h, fun key r p hentry hp => (exists_entry_iff h).mp ⟨key, hentry, hp⟩⟩

/-- Two records, with keys that are spelled in unusual ways and do not stand in the order of their numbers. -/
def respelled : OrderedMap String PositionRecord := .ofList [(" +1", ⟨[2], [[]], [98]⟩), ("00", ⟨[1], [[]], [97]⟩)]

theorem ofRecords_respelled :
    ∃ t, ofRecords respelled = .ok t ∧ IsContiguous respelled ∧ t.positions[1]? = some ⟨[2], [[]], [98]⟩ := by
  let inOrder : Trace :=
    { positions := [⟨[1], [[]], [97]⟩, ⟨[2], [[]], [98]⟩]
      nonempty := List.cons_ne_nil _ _
      consistent := by simp [PositionRecord.Consistent]
      size_le := (by decide : 2 ≤ UInt64.size) }
  have hperm : (respelled.entries.map numbered?).Perm (inOrder.numbered.map some) := .swap _ _ []
  have h : ofRecords respelled = .ok inOrder := ofRecords_eq_ok_iff.mpr hperm
  obtain ⟨haccepts, hpositions⟩ := ofRecords_accepts_contiguous respelled
  refine ⟨inOrder, h, haccepts.mp ⟨inOrder, h⟩, (hpositions inOrder h).2 " +1" _ 1 List.mem_cons_self ?_⟩
  exact positionOfKey?_eq_some_iff.mp (by decide)

end Trace

end GrammarInference
