/-
GrammarInference/Proofs/Json/RoundTrip.lean

Reading back a value that was written over several lines.

Design.  What is written reads back if it is a value at all: every string is a text, and every number has digits
where digits belong (`Writable`).  Each constructor gets one lemma, which says that its text is read back in front
of anything that cannot be part of a number, given that the texts inside it are (`Reads`).  Line breaks and
indentation never matter, because every reader skips blanks first.  The reader is given more steps than the text
has characters, and every step into a value leaves a character behind.

    read? (pretty v)  =  some v
-/
import GrammarInference.Proofs.Json.Scalars

namespace GrammarInference

namespace Json

/-! ### Blanks -/

theorem skipBlanks_append {blanks l : List Char} (h : ∀ c ∈ blanks, isBlank c = true) :
    skipBlanks (blanks ++ l) = skipBlanks l :=
  List.dropWhile_append_of_pos h

theorem skipBlanks_newLine (depth : Nat) (l : List Char) : skipBlanks (newLine depth ++ l) = skipBlanks l := by
  apply skipBlanks_append
  intro c hc
  rcases List.mem_cons.mp hc with rfl | hc
  · decide
  · obtain rfl := List.eq_of_mem_replicate hc
    decide

theorem skipBlanks_cons {c : Char} (h : isBlank c = false) (l : List Char) : skipBlanks (c :: l) = c :: l := by
  rw [skipBlanks, List.dropWhile_cons_of_neg (by simp [h])]

section

variable {l l' : List Char} (h : skipBlanks l = skipBlanks l')

include h

/-- Blanks in front of a value do not matter. -/
theorem readValue?_congr (fuel : Nat) : readValue? fuel l = readValue? fuel l' := by
  cases fuel with
  | zero => rfl
  | succ fuel => rw [readValue?, readValue?, h]

theorem readItems?_congr (fuel : Nat) : readItems? fuel l = readItems? fuel l' := by
  cases fuel with
  | zero => rfl
  | succ fuel => rw [readItems?, readItems?, readValue?_congr h]

theorem readMembers?_congr (fuel : Nat) : readMembers? fuel l = readMembers? fuel l' := by
  cases fuel with
  | zero => rfl
  | succ fuel => rw [readMembers?, readMembers?, h]

end

/-! ### Values that can be written -/

/-- All strings are texts, and all numbers can be shown. -/
inductive Writable : Json → Prop where
  | null : Writable .null
  | boolean (b : Bool) : Writable (.boolean b)
  | number {l : Literal} (h : l.WellFormed) : Writable (.number l)
  | string (s : String) : Writable (.string (some s))
  | array {items : List Json} (h : ∀ v ∈ items, Writable v) : Writable (.array items)
  | object {members : List (Option String × Json)} (hkeys : ∀ m ∈ members, m.1.isSome = true)
      (hvalues : ∀ m ∈ members, Writable m.2) : Writable (.object members)

/-- The text of the value is read back, whatever cannot belong to it follows. -/
structure Reads (v : Json) : Prop where
  /-- The text starts with a character that tells a value from a blank and from the end of an array. -/
  head : ∀ depth, ∃ c l, prettyAt depth v = c :: l ∧ isBlank c = false ∧ c ≠ ']'
  /-- It is read, in as many steps as it has characters. -/
  read : ∀ depth fuel rest, Delimited rest → (prettyAt depth v).length < fuel →
    readValue? fuel (prettyAt depth v ++ rest) = some (v, rest)

theorem Reads.skipBlanks {v : Json} (h : Reads v) (depth : Nat) (l : List Char) :
    Json.skipBlanks (prettyAt depth v ++ l) = prettyAt depth v ++ l := by
  obtain ⟨c, l', heq, hblank, -⟩ := h.head depth
  rw [heq, List.cons_append, skipBlanks_cons hblank]

/-! ### Words, numbers and strings -/

theorem reads_null : Reads .null where
  head := fun _ => ⟨_, _, rfl, by decide, by decide⟩
  read := by
    intro depth fuel rest _ hfuel
    obtain ⟨fuel, rfl⟩ := Nat.exists_eq_add_of_le' (Nat.zero_lt_of_lt hfuel)
    rfl

theorem reads_boolean (b : Bool) : Reads (.boolean b) := by
  constructor
  · intro _
    cases b with
    | true => exact ⟨_, _, rfl, by decide, by decide⟩
    | false => exact ⟨_, _, rfl, by decide, by decide⟩
  · intro depth fuel rest _ hfuel
    obtain ⟨fuel, rfl⟩ := Nat.exists_eq_add_of_le' (Nat.zero_lt_of_lt hfuel)
    cases b with
    | true => rfl
    | false => rfl

/-- A digit starts a number and nothing else. -/
theorem ne_of_isAsciiDigit {d c : Char} (hd : isAsciiDigit d = true) (hc : isAsciiDigit c = false) : d ≠ c := by
  rintro rfl
  rw [hd] at hc
  cases hc

theorem isBlank_of_isAsciiDigit {d : Char} (hd : isAsciiDigit d = true) : isBlank d = false := by
  have hne : ∀ c, isAsciiDigit c = false → decide (d = c) = false := by
    intro c hc
    exact decide_eq_false (ne_of_isAsciiDigit hd hc)
  rw [isBlank, hne ' ' rfl, hne '\t' rfl, hne '\n' rfl, hne '\r' rfl]
  rfl

theorem reads_number {l : Literal} (hl : l.WellFormed) : Reads (.number l) := by
  obtain ⟨d, ds, hwhole⟩ := List.exists_cons_of_ne_nil hl.whole.1
  have hd : isAsciiDigit d = true := hl.whole.2 d (hwhole ▸ List.mem_cons_self)
  have htext : ∀ depth, prettyAt depth (.number l) = l.text := fun _ => by rw [prettyAt]
  cases hneg : l.negative with
  | true =>
    have hsign : l.text = '-' :: (l.whole ++ (fractionText l.fraction ++ exponentText l.exponent)) := by
      rw [Literal.text_eq, hneg]
      rfl
    constructor
    · intro depth
      exact ⟨_, _, (htext depth).trans hsign, by decide, by decide⟩
    · intro depth fuel rest hrest hfuel
      obtain ⟨fuel, rfl⟩ := Nat.exists_eq_add_of_le' (Nat.zero_lt_of_lt hfuel)
      have hread := readMagnitude?_text hrest hl
      rw [hneg] at hread
      rw [htext, hsign, List.cons_append, readValue?, skipBlanks_cons (by decide)]
      exact hread
  | false =>
    have hsign : l.text = d :: (ds ++ (fractionText l.fraction ++ exponentText l.exponent)) := by
      rw [Literal.text_eq, hneg, hwhole]
      rfl
    constructor
    · intro depth
      exact ⟨d, _, (htext depth).trans hsign, isBlank_of_isAsciiDigit hd, ne_of_isAsciiDigit hd rfl⟩
    · intro depth fuel rest hrest hfuel
      obtain ⟨fuel, rfl⟩ := Nat.exists_eq_add_of_le' (Nat.zero_lt_of_lt hfuel)
      have hread := readMagnitude?_text hrest hl
      rw [hneg, hwhole, List.cons_append, List.cons_append] at hread
      have hquote := ne_of_isAsciiDigit hd (c := quoteMark) rfl
      have harray := ne_of_isAsciiDigit hd (c := '[') rfl
      have hobject := ne_of_isAsciiDigit hd (c := Char.ofNat 123) rfl
      have hminus := ne_of_isAsciiDigit hd (c := '-') rfl
      rw [htext, hsign, List.cons_append, readValue?, skipBlanks_cons (isBlank_of_isAsciiDigit hd)]
      simp only [if_neg hquote, if_neg harray, if_neg hobject, if_neg hminus, hd, if_pos, hread]

theorem stringText_append (s : String) (rest : List Char) :
    stringText s ++ rest = quoteMark :: (s.toList.flatMap escapeChar ++ quoteMark :: rest) := by
  simp [stringText]

theorem reads_string (s : String) : Reads (.string (some s)) where
  head := fun _ => ⟨quoteMark, _, rfl, by decide, by decide⟩
  read := by
    intro depth fuel rest _ hfuel
    obtain ⟨fuel, rfl⟩ := Nat.exists_eq_add_of_le' (Nat.zero_lt_of_lt hfuel)
    rw [prettyAt, Option.getD_some, stringText_append, readValue?, skipBlanks_cons (by decide)]
    simp only [if_pos, readString?_flatMap_escapeChar, Option.map_some]

/-! ### Arrays -/

theorem delimited_cons {c : Char} (hdigit : isAsciiDigit c = false) (hc : c ≠ '.' ∧ c ≠ 'e' ∧ c ≠ 'E')
    (l : List Char) : Delimited (c :: l) := by
  intro x hx
  cases hx
  exact ⟨hdigit, hc⟩

theorem delimited_newLine (depth : Nat) (l : List Char) : Delimited (newLine depth ++ l) :=
  delimited_cons rfl (by decide) _

theorem delimited_prettyItems (depth depth' : Nat) (items : List Json) (l : List Char) :
    Delimited (prettyItems depth items ++ (newLine depth' ++ l)) := by
  cases items with
  | nil => exact delimited_newLine depth' l
  | cons v items =>
    rw [prettyItems]
    exact delimited_cons rfl (by decide) _

/-- The items of an array are read up to its end. -/
theorem readItems?_prettyItems {v : Json} {items : List Json} (h : ∀ w ∈ v :: items, Reads w) {depth fuel : Nat}
    (depth' : Nat) (hfuel : (prettyAt depth v).length + (prettyItems depth items).length + 1 < fuel) (rest : List Char) :
    readItems? fuel (prettyAt depth v ++ (prettyItems depth items ++ (newLine depth' ++ ']' :: rest))) =
      some (v :: items, rest) := by
  induction items generalizing v fuel with
  | nil =>
    obtain ⟨fuel, rfl⟩ := Nat.exists_eq_add_of_le' (Nat.zero_lt_of_lt hfuel)
    have hv := (h v List.mem_cons_self).read depth fuel _ (delimited_prettyItems depth depth' [] (']' :: rest))
      (by omega)
    rw [readItems?, hv]
    simp only [prettyItems, List.nil_append, skipBlanks_newLine]
    rw [skipBlanks_cons (by decide)]
    rfl
  | cons w items ih =>
    obtain ⟨fuel, rfl⟩ := Nat.exists_eq_add_of_le' (Nat.zero_lt_of_lt hfuel)
    have hv := (h v List.mem_cons_self).read depth fuel _
      (delimited_prettyItems depth depth' (w :: items) (']' :: rest)) (by omega)
    have htext : prettyItems depth (w :: items) ++ (newLine depth' ++ ']' :: rest) =
        ',' :: (newLine depth ++
          (prettyAt depth w ++ (prettyItems depth items ++ (newLine depth' ++ ']' :: rest)))) := by
      simp [prettyItems]
    have hlen : (prettyItems depth (w :: items)).length =
        1 + (newLine depth).length + (prettyAt depth w).length + (prettyItems depth items).length := by
      simp [prettyItems]
      omega
    have hline : 0 < (newLine depth).length := Nat.zero_lt_succ _
    have hleft : (prettyAt depth w).length + (prettyItems depth items).length + 1 < fuel := by omega
    have hrest := ih (fun x hx => h x (List.mem_cons_of_mem v hx)) hleft
    rw [readItems?, hv, htext]
    simp only [skipBlanks_cons (show isBlank ',' = false by decide)]
    rw [readItems?_congr (skipBlanks_newLine depth _), hrest, Option.map_some]

theorem reads_array {items : List Json} (h : ∀ v ∈ items, Reads v) : Reads (.array items) := by
  cases items with
  | nil =>
    constructor
    · exact fun _ => ⟨'[', _, rfl, by decide, by decide⟩
    · intro depth fuel rest _ hfuel
      obtain ⟨fuel, rfl⟩ := Nat.exists_eq_add_of_le' (Nat.zero_lt_of_lt hfuel)
      rfl
  | cons v items =>
    have htext : ∀ depth rest, prettyAt depth (.array (v :: items)) ++ rest = '[' :: (newLine (depth + 1) ++
        (prettyAt (depth + 1) v ++ (prettyItems (depth + 1) items ++ (newLine depth ++ ']' :: rest)))) := by
      intro depth rest
      simp [prettyAt]
    constructor
    · intro depth
      have hstart := htext depth []
      rw [List.append_nil] at hstart
      exact ⟨'[', _, hstart, by decide, by decide⟩
    · intro depth fuel rest _ hfuel
      have hlen := congrArg List.length (htext depth [])
      simp only [List.append_nil, List.length_cons, List.length_append, List.length_nil] at hlen
      obtain ⟨fuel, rfl⟩ := Nat.exists_eq_add_of_le' (Nat.zero_lt_of_lt hfuel)
      have hv := h v List.mem_cons_self
      have hleft : (prettyAt (depth + 1) v).length + (prettyItems (depth + 1) items).length + 1 < fuel := by omega
      have hitems := readItems?_prettyItems h depth hleft rest
      obtain ⟨c, l, hc, hblank, hend⟩ := hv.head (depth + 1)
      rw [htext, readValue?, skipBlanks_cons (by decide)]
      have hmark : '[' ≠ quoteMark := by decide
      simp only [if_neg hmark, if_pos, skipBlanks_newLine, hv.skipBlanks]
      split
      · rename_i heq
        rw [hc, List.cons_append] at heq
        exact absurd (List.cons.inj heq).1 hend
      · rw [hitems, Option.map_some]

/-! ### Objects -/

theorem delimited_prettyMembers (depth depth' : Nat) (members : List (Option String × Json)) (l : List Char) :
    Delimited (prettyMembers depth members ++ (newLine depth' ++ l)) := by
  rcases members with - | ⟨⟨k, v⟩, members⟩
  · exact delimited_newLine depth' l
  · rw [prettyMembers]
    exact delimited_cons rfl (by decide) _

/-- The text of a member. -/
def memberText (depth : Nat) (m : Option String × Json) : List Char :=
  stringText (m.1.getD "") ++ (':' :: ' ' :: prettyAt depth m.2)

/-- A key is read, and so is the value behind it; then come further members, or the end of the object. -/
theorem readMembers?_memberText {m : Option String × Json} (hkey : m.1.isSome = true) (hvalue : Reads m.2)
    {depth fuel : Nat} (hfuel : (prettyAt depth m.2).length < fuel) {rest : List Char} (hrest : Delimited rest) :
    (∀ l, skipBlanks rest = ',' :: l → readMembers? (fuel + 1) (memberText depth m ++ rest) =
      (readMembers? fuel l).map fun p => (m :: p.1, p.2)) ∧
    ∀ l, skipBlanks rest = Char.ofNat 125 :: l →
      readMembers? (fuel + 1) (memberText depth m ++ rest) = some ([m], l) := by
  obtain ⟨k, v⟩ := m
  obtain ⟨s, rfl⟩ := Option.isSome_iff_exists.mp hkey
  have hblank : skipBlanks (' ' :: (prettyAt depth v ++ rest)) = skipBlanks (prettyAt depth v ++ rest) :=
    skipBlanks_append (List.forall_mem_singleton.mpr rfl)
  have hread : readValue? fuel (' ' :: (prettyAt depth v ++ rest)) = some (v, rest) := by
    rw [readValue?_congr hblank]
    exact hvalue.read depth fuel rest hrest hfuel
  have htext : memberText depth (some s, v) ++ rest =
      quoteMark :: (s.toList.flatMap escapeChar ++ quoteMark :: ':' :: ' ' :: (prettyAt depth v ++ rest)) := by
    simp [memberText, stringText]
  rw [htext, readMembers?, skipBlanks_cons (by decide)]
  simp only [ne_eq, not_true_eq_false, if_false, readString?_flatMap_escapeChar,
    skipBlanks_cons (show isBlank ':' = false by decide), hread]
  exact ⟨fun l hl => by rw [hl]; rfl, fun l hl => by rw [hl]; rfl⟩

/-- The members of an object are read up to its end. -/
theorem readMembers?_prettyMembers {m : Option String × Json} {members : List (Option String × Json)}
    (hkeys : ∀ x ∈ m :: members, x.1.isSome = true) (hvalues : ∀ x ∈ m :: members, Reads x.2) {depth fuel : Nat}
    (depth' : Nat) (hfuel : (memberText depth m).length + (prettyMembers depth members).length + 1 < fuel)
    (rest : List Char) :
    readMembers? fuel (memberText depth m ++
        (prettyMembers depth members ++ (newLine depth' ++ Char.ofNat 125 :: rest))) = some (m :: members, rest) := by
  have hvalue : ∀ x : Option String × Json, (prettyAt depth x.2).length + 2 ≤ (memberText depth x).length := by
    intro x
    simp [memberText]
  induction members generalizing m fuel with
  | nil =>
    obtain ⟨fuel, rfl⟩ := Nat.exists_eq_add_of_le' (Nat.zero_lt_of_lt hfuel)
    have hm := hvalue m
    refine (readMembers?_memberText (hkeys m List.mem_cons_self) (hvalues m List.mem_cons_self) (by omega)
      (delimited_prettyMembers depth depth' [] _)).2 rest ?_
    rw [prettyMembers, List.nil_append, skipBlanks_newLine]
    exact skipBlanks_cons (by decide) rest
  | cons x members ih =>
    obtain ⟨fuel, rfl⟩ := Nat.exists_eq_add_of_le' (Nat.zero_lt_of_lt hfuel)
    have hm := hvalue m
    have htext : prettyMembers depth (x :: members) ++ (newLine depth' ++ Char.ofNat 125 :: rest) =
        ',' :: (newLine depth ++ (memberText depth x ++
          (prettyMembers depth members ++ (newLine depth' ++ Char.ofNat 125 :: rest)))) := by
      simp [prettyMembers, memberText]
    have hlen : (prettyMembers depth (x :: members)).length =
        1 + (newLine depth).length + (memberText depth x).length + (prettyMembers depth members).length := by
      simp [prettyMembers, memberText]
      omega
    have hline : 0 < (newLine depth).length := Nat.zero_lt_succ _
    have hleft : (memberText depth x).length + (prettyMembers depth members).length + 1 < fuel := by omega
    have hrest := ih (fun y hy => hkeys y (List.mem_cons_of_mem m hy))
      (fun y hy => hvalues y (List.mem_cons_of_mem m hy)) hleft
    have hcomma := congrArg skipBlanks htext
    rw [skipBlanks_cons (by decide)] at hcomma
    have hfirst : (prettyAt depth m.2).length < fuel := by omega
    rw [(readMembers?_memberText (hkeys m List.mem_cons_self) (hvalues m List.mem_cons_self) hfirst
      (delimited_prettyMembers depth depth' (x :: members) _)).1 _ hcomma,
      readMembers?_congr (skipBlanks_newLine depth _), hrest, Option.map_some]

theorem reads_object {members : List (Option String × Json)} (hkeys : ∀ m ∈ members, m.1.isSome = true)
    (hvalues : ∀ m ∈ members, Reads m.2) : Reads (.object members) := by
  cases members with
  | nil =>
    constructor
    · exact fun _ => ⟨Char.ofNat 123, _, rfl, by decide, by decide⟩
    · intro depth fuel rest _ hfuel
      obtain ⟨fuel, rfl⟩ := Nat.exists_eq_add_of_le' (Nat.zero_lt_of_lt hfuel)
      rfl
  | cons m members =>
    have htext : ∀ depth rest, prettyAt depth (.object (m :: members)) ++ rest = Char.ofNat 123 ::
        (newLine (depth + 1) ++ (memberText (depth + 1) m ++
          (prettyMembers (depth + 1) members ++ (newLine depth ++ Char.ofNat 125 :: rest)))) := by
      intro depth rest
      simp [prettyAt, memberText]
    constructor
    · intro depth
      have hstart := htext depth []
      rw [List.append_nil] at hstart
      exact ⟨Char.ofNat 123, _, hstart, by decide, by decide⟩
    · intro depth fuel rest _ hfuel
      have hlen := congrArg List.length (htext depth [])
      simp only [List.append_nil, List.length_cons, List.length_append, List.length_nil] at hlen
      obtain ⟨fuel, rfl⟩ := Nat.exists_eq_add_of_le' (Nat.zero_lt_of_lt hfuel)
      have hleft : (memberText (depth + 1) m).length + (prettyMembers (depth + 1) members).length + 1 < fuel := by
        omega
      have hmembers := readMembers?_prettyMembers hkeys hvalues depth hleft rest
      have hkey : ∀ l, memberText (depth + 1) m ++ l =
          quoteMark :: ((m.1.getD "").toList.flatMap escapeChar ++ quoteMark :: ':' :: ' ' ::
            (prettyAt (depth + 1) m.2 ++ l)) := by
        intro l
        simp [memberText, stringText]
      have hquote : Char.ofNat 123 ≠ quoteMark := by decide
      have harray : Char.ofNat 123 ≠ '[' := by decide
      have hend : quoteMark ≠ Char.ofNat 125 := by decide
      rw [hkey] at hmembers
      rw [htext, readValue?, skipBlanks_cons (by decide)]
      simp only [if_neg hquote, if_neg harray, if_pos, skipBlanks_newLine, hkey]
      rw [skipBlanks_cons (by decide)]
      simp only [if_neg hend, hmembers, Option.map_some]

/-! ### All values -/

theorem Writable.reads {v : Json} (h : Writable v) : Reads v := by
  induction h with
  | null => exact reads_null
  | boolean b => exact reads_boolean b
  | number h => exact reads_number h
  | string s => exact reads_string s
  | array _ ih => exact reads_array ih
  | object hkeys _ ih => exact reads_object hkeys ih

/-- What is written is read back. -/
theorem Writable.read?_pretty {v : Json} (h : Writable v) : read? v.pretty = some v := by
  have hread := h.reads.read 0 _ [] delimited_nil (Nat.lt_succ_self _)
  rw [List.append_nil] at hread
  rw [read?, pretty, String.toList_ofList]
  simp only [hread]
  rfl

end Json

end GrammarInference
