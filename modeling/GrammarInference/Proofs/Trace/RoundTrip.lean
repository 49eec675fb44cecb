/-
GrammarInference/Proofs/Trace/RoundTrip.lean

Traces survive being written to a text and read again.

Design.  From the inside out, every type that a record is made of is read back from the value that it is written as:
numbers from their digits, identifiers as the texts they are, since only a number in the text would be read as a
number, and records from their members.  What is left is the order of the records.  The keys are sorted as texts when
they are written, but a trace is determined by which record stands under which key (`ofRecords_eq_ok_iff`), and the key
of every position denotes that position.

    ofJsonText t.toJsonText  =  .ok t
-/
import GrammarInference.Proofs.Grammar.Json
import GrammarInference.Proofs.Trace.Validation
import GrammarInference.Trace.Json

namespace GrammarInference

/-! ### Numbers -/

namespace Json

theorem isDigits_toDigits (n : Nat) : IsDigits (Nat.toDigits 10 n) :=
  ⟨Nat.toDigits_ne_nil, fun _ h => Nat.isDigit_of_mem_toDigits (by decide) (by decide) h⟩

/-- No number but zero starts with a zero. -/
theorem toDigits_eq_zero (n : Nat) (h : (Nat.toDigits 10 n).head? = some '0') : Nat.toDigits 10 n = ['0'] := by
  induction n using Nat.strongRecOn with
  | ind n ih =>
    rcases Nat.lt_or_ge n 10 with hn | hn
    · rw [Nat.toDigits_of_lt_base hn] at h ⊢
      rw [Option.some.inj h]
    · rw [Nat.toDigits_of_base_le (by decide) hn, List.head?_append_of_ne_nil _ Nat.toDigits_ne_nil] at h
      -- what stands before the last digit would be zero
      have hzero := congrArg (Nat.ofDigitChars 10 · 0) (ih (n / 10) (by omega) h)
      have hdiv : n / 10 = 0 := Nat.ofDigitChars_ten_toDigits.symm.trans hzero
      omega

theorem wellFormed_ofNat (n : Nat) : (Literal.ofNat n).WellFormed where
  whole := isDigits_toDigits n
  zero := toDigits_eq_zero n
  fraction := fun _ h => by cases h
  exponent := fun _ h => by cases h

theorem le_ofDigitChars (l : List Char) (v : Nat) : v ≤ Nat.ofDigitChars 10 l v := by
  rw [Nat.ofDigitChars_eq_ofDigitChars_zero]
  exact Nat.le_add_right_of_le (Nat.le_mul_of_pos_left v (Nat.pow_pos (by decide)))

theorem collectWhole_eq (l : List Char) {v : Nat} (h : Nat.ofDigitChars 10 l v ≤ maxNatural) :
    collectWhole ⟨v, 0, true⟩ l = ⟨Nat.ofDigitChars 10 l v, 0, true⟩ := by
  induction l generalizing v with
  | nil => rfl
  | cons c l ih =>
    have hnext : 10 * v + (c.toNat - '0'.toNat) = v * 10 + digitValue c := by
      rw [Nat.mul_comm]
      rfl
    rw [Nat.ofDigitChars_cons, hnext] at h ⊢
    rw [collectWhole, if_pos ⟨rfl, Nat.le_trans (le_ofDigitChars l _) h⟩]
    exact ih h

theorem value_ofNat {n : Nat} (h : n < UInt64.size) : (Literal.ofNat n).value = some (.natural n) := by
  have hn : Nat.ofDigitChars 10 (Nat.toDigits 10 n) 0 = n := Nat.ofDigitChars_ten_toDigits
  have hwhole := collectWhole_eq (Nat.toDigits 10 n) (v := 0) (by rw [hn]; exact Nat.le_pred_of_lt h)
  rw [hn] at hwhole
  unfold Literal.value Literal.ofNat
  rw [hwhole]
  rfl

theorem toNatural?_ofNat {bound n : Nat} (hbound : bound ≤ UInt64.size) (h : n < bound) :
    toNatural? bound (ofNat n) = some n := by
  rw [ofNat, toNatural?, value_ofNat (Nat.lt_of_lt_of_le h hbound)]
  exact if_pos h

theorem toUInt64?_ofNat (w : UInt64) : toUInt64? (ofNat w.toNat) = some w := by
  rw [toUInt64?, toNatural?_ofNat (Nat.le_refl _) w.toNat_lt_size, Option.map_some, UInt64.ofNat_toNat]

theorem toUInt32?_ofNat (w : UInt32) : toUInt32? (ofNat w.toNat) = some w := by
  rw [toUInt32?, toNatural?_ofNat (by decide) w.toNat_lt_size, Option.map_some, UInt32.ofNat_toNat]

/-- Lists are read back if their elements are. -/
theorem toList?_map {α : Type} {decode : Json → Option α} {encode : α → Json} (h : ∀ a, decode (encode a) = some a)
    (l : List α) : toList? decode (.array (l.map encode)) = some l := by
  rw [toList?, List.mapM_map]
  have hmap := mapM_eq_some_map (f := decode ∘ encode) (k := id) (l := l) fun a _ => h a
  rwa [List.map_id] at hmap

theorem writable_ofNat (n : Nat) : (ofNat n).Writable := .number (wellFormed_ofNat n)

theorem writable_ofString (s : String) : (ofString s).Writable := .string s

/-- Lists can be written if their elements can. -/
theorem writable_array_map {α : Type} {encode : α → Json} (h : ∀ a, (encode a).Writable) (l : List α) :
    (array (l.map encode)).Writable :=
  .array (List.forall_mem_map.mpr fun a _ => h a)

theorem writable_object_nil : (object []).Writable := .object (List.forall_mem_nil _) (List.forall_mem_nil _)

/-- Objects can be written if their members can. -/
theorem Writable.member {key : String} {v : Json} {members : List (Option String × Json)}
    (h : (Json.object members).Writable) (hv : v.Writable) : (Json.object ((some key, v) :: members)).Writable := by
  cases h with
  | object hkeys hvalues =>
    exact .object (List.forall_mem_cons.mpr ⟨rfl, hkeys⟩) (List.forall_mem_cons.mpr ⟨hv, hvalues⟩)

end Json

/-! ### Records -/

theorem LoopIteration.ofJson?_toJson (l : LoopIteration) : ofJson? l.toJson = some l := by
  have hmembers : l.toJson.toRecord? ["loopheader", "iterationcount"] =
      some [some (.ofString l.header), some (.ofNat l.count.toNat)] := rfl
  have hheader : (Json.ofString l.header).toIdentifier? = some l.header := rfl
  simp only [ofJson?, hmembers, hheader, Json.toUInt64?_ofNat, Option.bind_eq_bind, Option.bind_some, Option.pure_def]

theorem Frame.ofJson?_toJson (f : Frame) : ofJson? f.toJson = some f := by
  have hmembers : f.toJson.toRecord? ["callee", "callsite", "loopiterations"] =
      some [some (.ofString f.callee), some (.ofString f.callsite),
        some (.array (f.loops.map LoopIteration.toJson))] := rfl
  have hcallee : (Json.ofString f.callee).toText? = some f.callee := rfl
  have hcallsite : (Json.ofString f.callsite).toIdentifier? = some f.callsite := rfl
  have hloops := Json.toList?_map LoopIteration.ofJson?_toJson f.loops
  simp only [ofJson?, hmembers, hcallee, hcallsite, Json.orDefault, hloops, Option.bind_eq_bind, Option.bind_some,
    Option.pure_def]

theorem PositionRecord.ofJson?_toJson (r : PositionRecord) : ofJson? r.toJson = some r := by
  have hmembers : r.toJson.toRecord? ["readorders", "executioncontexts", "solutions"] =
      some [some (.array (r.readOrders.map fun o => .ofNat o.toNat)),
        some (.array (r.contexts.map fun c => .array (c.map Frame.toJson))),
        some (.array (r.solutions.map fun v => .ofNat v.toNat))] := rfl
  have horders := Json.toList?_map Json.toUInt64?_ofNat r.readOrders
  have hcontexts := Json.toList?_map (Json.toList?_map Frame.ofJson?_toJson) r.contexts
  have hsolutions := Json.toList?_map Json.toUInt32?_ofNat r.solutions
  simp only [ofJson?, hmembers, Json.orDefault, horders, hcontexts, hsolutions, Option.bind_eq_bind, Option.bind_some,
    Option.pure_def]

/-! ### What can be written -/

theorem LoopIteration.writable_toJson (l : LoopIteration) : l.toJson.Writable :=
  (Json.writable_object_nil.member (Json.writable_ofNat _)).member (Json.writable_ofString _)

theorem Frame.writable_toJson (f : Frame) : f.toJson.Writable := by
  have hloops := Json.writable_array_map LoopIteration.writable_toJson f.loops
  exact ((Json.writable_object_nil.member hloops).member (Json.writable_ofString _)).member (Json.writable_ofString _)

theorem PositionRecord.writable_toJson (r : PositionRecord) : r.toJson.Writable := by
  have horders := Json.writable_array_map (fun o : UInt64 => Json.writable_ofNat o.toNat) r.readOrders
  have hcontexts := Json.writable_array_map (Json.writable_array_map Frame.writable_toJson) r.contexts
  have hsolutions := Json.writable_array_map (fun v : UInt32 => Json.writable_ofNat v.toNat) r.solutions
  exact ((Json.writable_object_nil.member hsolutions).member hcontexts).member horders

/-! ### Traces -/

namespace Trace

variable {t : Trace}

/-- The records in the order in which they are written. -/
def sortedRecords (t : Trace) : List (String × PositionRecord) :=
  t.toRecords.mergeSort fun a b => !decide (b.1 < a.1)

theorem perm_sortedRecords (t : Trace) : t.sortedRecords.Perm t.toRecords := List.mergeSort_perm ..

theorem toRecords_eq (t : Trace) : t.toRecords = t.numbered.map fun e => (toString e.1, e.2) := by
  rw [toRecords, numbered, List.map_map]
  rfl

theorem nodup_keys_sortedRecords (t : Trace) : (t.sortedRecords.map Prod.fst).Nodup := by
  have hkeys : t.toRecords.map Prod.fst = (List.range t.positions.length).map toString := by
    rw [toRecords_eq, ← map_fst_swap_zipIdx, List.map_map, List.map_map, ← numbered]
    rfl
  refine (t.perm_sortedRecords.map Prod.fst).nodup_iff.mpr ?_
  rw [hkeys]
  exact List.nodup_range.map fun i j h => eq_of_toString_eq h

/-- The keys that are written are read as the positions that they were made of. -/
theorem map_numbered?_toRecords (t : Trace) : t.toRecords.map numbered? = t.numbered.map some := by
  rw [toRecords_eq, List.map_map]
  refine List.map_congr_left fun e he => ?_
  obtain ⟨p, r⟩ := e
  have hp : p < t.positions.length := (List.getElem?_eq_some_iff.mp (mem_numbered.mp he)).1
  exact numbered?_eq_some_iff.mpr ⟨denotes_toString (Nat.lt_of_lt_of_le hp t.size_le), rfl⟩

theorem ofRecords_sortedRecords (t : Trace) : ofRecords ⟨t.sortedRecords, t.nodup_keys_sortedRecords⟩ = .ok t := by
  refine ofRecords_eq_ok_iff.mpr ((t.perm_sortedRecords.map numbered?).trans (.of_eq ?_))
  exact t.map_numbered?_toRecords

/-- The members of the object that is written. -/
def toJson (t : Trace) : Json := .object (t.sortedRecords.map fun e => (some e.1, e.2.toJson))

theorem writable_toJson (t : Trace) : t.toJson.Writable :=
  .object (List.forall_mem_map.mpr fun _ _ => rfl) (List.forall_mem_map.mpr fun e _ => e.2.writable_toJson)

theorem toMembers?_toJson (t : Trace) : t.toJson.toMembers? PositionRecord.ofJson? = some t.sortedRecords := by
  rw [toJson, Json.toMembers?, List.mapM_map]
  have hmembers := mapM_eq_some_map (l := t.sortedRecords) (k := id)
    (f := (fun m => do let k ← m.1; let r ← PositionRecord.ofJson? m.2; return (k, r)) ∘
      fun e => (some e.1, e.2.toJson)) fun e _ => by
        simp only [Function.comp_apply, PositionRecord.ofJson?_toJson]
        rfl
  rwa [List.map_id] at hmembers

/-- **Trace files round-trip.**  The text that is written for a trace is read as that trace, with every record at its
position, whatever the names in it are and whatever numbers it holds. -/
theorem trace_text_roundtrip (t : Trace) : ofJsonText t.toJsonText = .ok t := by
  have hlist : OrderedMap.ofList t.sortedRecords = ⟨t.sortedRecords, t.nodup_keys_sortedRecords⟩ :=
    OrderedMap.ofList_entries ⟨t.sortedRecords, t.nodup_keys_sortedRecords⟩
  have hread : Json.read? t.toJsonText = some t.toJson := t.writable_toJson.read?_pretty
  rw [ofJsonText, hread]
  dsimp only
  rw [ofJson, toMembers?_toJson]
  dsimp only
  rw [hlist, ofRecords_sortedRecords]

end Trace

end GrammarInference
