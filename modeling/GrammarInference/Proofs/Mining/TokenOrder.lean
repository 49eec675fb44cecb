/-
GrammarInference/Proofs/Mining/TokenOrder.lean

The order of tokens in the grammar of their samples.

Design.  Whether a trace gives a sample is decided by its solutions alone, and not by what is drawn (`Readable`), so
which tokens have a sample does not depend on the order of the traces.  A trace that gives none stops at a value that
is no byte, and what it saw before stays in the alphabet of its token (`Refuses`).  Tokens are listed in the order of their
identifiers.  An identifier has a rank, zero for a text that is no number and one more than its value for a number;
one token precedes another by rank, or for equal ranks by the text (`Precedes`).  This is a strict order, and a list
that increases in it is determined by its elements.
-/
import GrammarInference.Mining.Tokens
import GrammarInference.Proofs.Derivation.Productivity
import GrammarInference.Proofs.Grammar.Symbols
import Mathlib.Data.List.Nodup
import Mathlib.Data.List.Perm.Subperm

namespace GrammarInference

/-- Nothing is chosen from a list only if there is nothing in it. -/
theorem RandomStream.eq_nil_of_choose {α : Type} {r r' : RandomStream} {l : List α} (h : r.choose l = (none, r')) :
    l = [] := by
  by_contra hne
  obtain ⟨a, r₁, ha⟩ := exists_choose hne r
  rw [h] at ha
  cases ha

namespace TokenMiner

variable {config : MinerConfig} {m m' : TokenMiner} {t : TokenTrace} {ts : List TokenTrace} {id : String}

/-! ### Traces that give a sample -/

theorem byteChar_of_lt {v : Nat} (h : v < 256) : byteChar v = .ok (Char.ofNat v) := if_pos h

theorem byteChar_of_le {v : Nat} (h : 256 ≤ v) : byteChar v = .error (.solutionOutOfRange v) :=
  if_neg (Nat.not_lt_of_le h)

/-- All values are bytes. -/
def AreBytes (l : List Nat) : Prop := ∀ v ∈ l, v < 256

/-- The character is one of the values, which is not zero. -/
def Shows (l : List Nat) (c : Char) : Prop := ∃ v ∈ l, v ≠ 0 ∧ Char.ofNat v = c

theorem shows_append {l l' : List Nat} {c : Char} : Shows (l ++ l') c ↔ Shows l c ∨ Shows l' c := by
  simp only [Shows, List.mem_append, or_and_right, exists_or]

/-- If all solutions are bytes, those that are not zero are added. -/
theorem addSolutions_of_areBytes {l : List Nat} (h : AreBytes l) (alphabet : SortedSet Char) :
    ∃ alphabet', addSolutions alphabet l = (.ok (), alphabet') ∧
      ∀ c, c ∈ alphabet' ↔ c ∈ alphabet ∨ Shows l c := by
  induction l generalizing alphabet with
  | nil => exact ⟨alphabet, rfl, fun c => ⟨.inl, fun h => h.resolve_right fun ⟨_, hv, _⟩ => List.not_mem_nil hv⟩⟩
  | cons v l ih =>
    obtain ⟨hv, hl⟩ := List.forall_mem_cons.mp h
    rw [addSolutions]
    by_cases hzero : v = 0
    · obtain ⟨alphabet', heq, hmem⟩ := ih hl alphabet
      refine ⟨alphabet', by rw [if_pos hzero, heq], fun c => ?_⟩
      simp [hmem, Shows, hzero]
    · obtain ⟨alphabet', heq, hmem⟩ := ih hl (alphabet.insert (Char.ofNat v))
      refine ⟨alphabet', by simp only [if_neg hzero, byteChar_of_lt hv, heq], fun c => ?_⟩
      rw [hmem, SortedSet.mem_insert, or_comm (a := c = _), or_assoc]
      simp [Shows, hzero, eq_comm]

/-- If some solution is no byte, adding them fails at the first such one, and keeps what was added before. -/
theorem addSolutions_of_not_areBytes {l : List Nat} (h : ¬AreBytes l) (alphabet : SortedSet Char) :
    ∃ front v back alphabet', l = front ++ v :: back ∧ AreBytes front ∧ 256 ≤ v ∧
      addSolutions alphabet l = (.error (.solutionOutOfRange v), alphabet') ∧
      ∀ c, c ∈ alphabet' ↔ c ∈ alphabet ∨ Shows front c := by
  induction l generalizing alphabet with
  | nil => exact absurd nofun h
  | cons u l ih =>
    rw [addSolutions]
    rcases Nat.lt_or_ge u 256 with hu | hu
    · have hl : ¬AreBytes l := fun hl => h (List.forall_mem_cons.mpr ⟨hu, hl⟩)
      by_cases hzero : u = 0
      · obtain ⟨front, v, back, alphabet', rfl, hfront, hv, heq, hmem⟩ := ih hl alphabet
        refine ⟨u :: front, v, back, alphabet', rfl, List.forall_mem_cons.mpr ⟨hu, hfront⟩, hv, ?_, fun c => ?_⟩
        · rw [if_pos hzero, heq]
        · simp [hmem, Shows, hzero]
      · obtain ⟨front, v, back, alphabet', rfl, hfront, hv, heq, hmem⟩ := ih hl (alphabet.insert (Char.ofNat u))
        refine ⟨u :: front, v, back, alphabet', rfl, List.forall_mem_cons.mpr ⟨hu, hfront⟩, hv, ?_, fun c => ?_⟩
        · simp only [if_neg hzero, byteChar_of_lt hu, heq]
        · rw [hmem, SortedSet.mem_insert, or_comm (a := c = _), or_assoc]
          simp [Shows, hzero, eq_comm]
    · have hne : u ≠ 0 := by omega
      refine ⟨[], u, l, alphabet, rfl, nofun, hu, ?_, fun c => ?_⟩
      · rw [if_neg hne, byteChar_of_le hu]
      · simp [Shows]

/-- If all solutions of all positions are bytes, a sample is drawn from them, and all of them are seen. -/
theorem drawSample_of_areBytes {positions : List PositionRecord} (h : ∀ r ∈ positions, AreBytes r.values) (d : Draw) :
    ∃ cs d', drawSample d positions = (.ok cs, d') ∧
      (∀ c ∈ cs, ∃ r ∈ positions, ∃ v ∈ r.values, Char.ofNat v = c) ∧
      ∀ c, c ∈ d'.alphabet ↔ c ∈ d.alphabet ∨ ∃ r ∈ positions, Shows r.values c := by
  induction positions generalizing d with
  | nil => exact ⟨[], d, rfl, nofun, fun c => ⟨.inl, fun h => h.resolve_right nofun⟩⟩
  | cons r positions ih =>
    obtain ⟨hr, hpositions⟩ := List.forall_mem_cons.mp h
    rw [drawSample]
    rcases hchoose : d.random.choose r.values with ⟨- | v, random⟩
    · -- there is no solution, so that nothing is drawn or seen
      have hempty := RandomStream.eq_nil_of_choose hchoose
      obtain ⟨cs, d', heq, hcs, hmem⟩ := ih hpositions { d with random := random }
      refine ⟨cs, d', heq, fun c hc => ?_, fun c => ?_⟩
      · obtain ⟨r', hr', hv⟩ := hcs c hc
        exact ⟨r', List.mem_cons_of_mem r hr', hv⟩
      · rw [hmem]
        simp [Shows, hempty]
    · have hv := RandomStream.mem_of_choose hchoose
      obtain ⟨alphabet, hadd, hadded⟩ := addSolutions_of_areBytes hr d.alphabet
      obtain ⟨cs, d', heq, hcs, hmem⟩ := ih hpositions ⟨random, alphabet⟩
      refine ⟨Char.ofNat v :: cs, d', ?_, List.forall_mem_cons.mpr ⟨?_, fun c hc => ?_⟩, fun c => ?_⟩
      · simp only [byteChar_of_lt (hr v hv), hadd, heq]
      · exact ⟨r, List.mem_cons_self, v, hv, rfl⟩
      · obtain ⟨r', hr', hv'⟩ := hcs c hc
        exact ⟨r', List.mem_cons_of_mem r hr', hv'⟩
      · rw [hmem, hadded, or_assoc]
        simp

/-- The random stream behind the draws for some positions. -/
def streamAfter (random : RandomStream) (positions : List PositionRecord) : RandomStream :=
  positions.foldl (fun random r => (random.choose r.values).2) random

/-- `Refuses random positions seen v`: while a sample is drawn from the positions, the value `v` is refused, as it is no
byte, and the solutions `seen` were added before. -/
inductive Refuses (random : RandomStream) (positions : List PositionRecord) : List Nat → Nat → Prop
  /-- The value that is drawn for a position is refused, before any solution of the position is added. -/
  | drawn (before : List PositionRecord) {after : List PositionRecord} {r : PositionRecord} {v : Nat} :
      positions = before ++ r :: after →
      (∀ p ∈ before, AreBytes p.values) → ((streamAfter random before).choose r.values).1 = some v → 256 ≤ v →
      Refuses random positions (before.flatMap PositionRecord.values) v
  /-- A byte is drawn for a position, and then a solution of the position is refused. -/
  | listed (before : List PositionRecord) {after : List PositionRecord} {r : PositionRecord} {front back : List Nat}
      {u v : Nat} :
      positions = before ++ r :: after → (∀ p ∈ before, AreBytes p.values) →
      ((streamAfter random before).choose r.values).1 = some u → u < 256 → r.values = front ++ v :: back →
      AreBytes front → 256 ≤ v → Refuses random positions (before.flatMap PositionRecord.values ++ front) v

/-- A position whose solutions are bytes is passed. -/
theorem Refuses.cons {random : RandomStream} {positions : List PositionRecord} {r : PositionRecord} {seen : List Nat}
    {v : Nat} (hr : AreBytes r.values) (h : Refuses (random.choose r.values).2 positions seen v) :
    Refuses random (r :: positions) (r.values ++ seen) v := by
  cases h with
  | @drawn before after p v hsplit hbefore hdraw hv =>
    exact .drawn (r :: before) (congrArg (r :: ·) hsplit) (List.forall_mem_cons.mpr ⟨hr, hbefore⟩) hdraw hv
  | @listed before after p front back u v hsplit hbefore hdraw hu hvalues hfront hv =>
    rw [← List.append_assoc]
    exact .listed (r :: before) (congrArg (r :: ·) hsplit) (List.forall_mem_cons.mpr ⟨hr, hbefore⟩) hdraw
      hu hvalues hfront hv

/-- If some solution is no byte, there is no sample, and exactly what was seen before is added. -/
theorem drawSample_of_not_areBytes {positions : List PositionRecord} (h : ¬∀ r ∈ positions, AreBytes r.values)
    (d : Draw) : ∃ seen v d', Refuses d.random positions seen v ∧
      drawSample d positions = (.error (.solutionOutOfRange v), d') ∧
      ∀ c, c ∈ d'.alphabet ↔ c ∈ d.alphabet ∨ Shows seen c := by
  induction positions generalizing d with
  | nil => exact absurd nofun h
  | cons r positions ih =>
    rw [drawSample]
    by_cases hr : AreBytes r.values
    · have hrest : ¬∀ r ∈ positions, AreBytes r.values := fun hrest => h (List.forall_mem_cons.mpr ⟨hr, hrest⟩)
      rcases hchoose : d.random.choose r.values with ⟨- | u, random⟩
      · have hempty := RandomStream.eq_nil_of_choose hchoose
        obtain ⟨seen, v, d', hrefuses, heq, hmem⟩ := ih hrest { d with random := random }
        refine ⟨r.values ++ seen, v, d', .cons hr (hchoose ▸ hrefuses), heq, fun c => ?_⟩
        rw [hmem, hempty]
        rfl
      · obtain ⟨alphabet, hadd, hadded⟩ := addSolutions_of_areBytes hr d.alphabet
        obtain ⟨seen, v, d', hrefuses, heq, hmem⟩ := ih hrest ⟨random, alphabet⟩
        refine ⟨r.values ++ seen, v, d', .cons hr (hchoose ▸ hrefuses), ?_, fun c => ?_⟩
        · simp only [byteChar_of_lt (hr u (RandomStream.mem_of_choose hchoose)), hadd, heq]
        · rw [hmem, hadded, or_assoc, shows_append]
    · -- the position has a solution, so that something is drawn for it
      have hne : r.values ≠ [] := fun hempty => hr (hempty ▸ nofun)
      obtain ⟨u, random, hchoose⟩ := RandomStream.exists_choose hne d.random
      have hdrawn : ((streamAfter d.random []).choose r.values).1 = some u := congrArg Prod.fst hchoose
      rw [hchoose]
      rcases Nat.lt_or_ge u 256 with hu | hu
      · obtain ⟨front, v, back, alphabet, hvalues, hfront, hv, hadd, hmem⟩ := addSolutions_of_not_areBytes hr d.alphabet
        refine ⟨front, v, ⟨random, alphabet⟩, .listed [] rfl nofun hdrawn hu hvalues hfront hv, ?_, hmem⟩
        simp only [byteChar_of_lt hu, hadd]
      · refine ⟨[], u, { d with random := random }, .drawn [] rfl nofun hdrawn hu, ?_, fun c => ?_⟩
        · simp only [byteChar_of_le hu]
        · simp [Shows]

/-- A trace gives a sample if all solutions of its positions are bytes, but for those that are dropped at the end. -/
def Readable (config : MinerConfig) (t : TokenTrace) : Prop :=
  ∀ r ∈ dropTrailing config.order PositionRecord.values t.trace.positions, AreBytes r.values

/-- The samples of a token. -/
def samplesOf (m : TokenMiner) (id : String) : OrderedSet String := (m.samples.get? id).getD ∅

/-- The characters of a token. -/
def alphabetOf (m : TokenMiner) (id : String) : SortedSet Char := (m.alphabets.get? id).getD ∅

/-- What a trace adds: one sample if it is readable, and characters in any case. -/
structure Adds (m : TokenMiner) (t : TokenTrace) (m' : TokenMiner) : Prop where
  /-- The settings stay. -/
  config_eq : m'.config = m.config
  /-- A readable trace adds one sample to its token, all of which is seen. -/
  readable : Readable m.config t → ∃ s : String,
    m'.samples = m.samples.insert t.tokenId ((m.samplesOf t.tokenId).insert s) ∧
      ∀ c ∈ s.toList, c = '\x00' ∨ c ∈ m'.alphabetOf t.tokenId
  /-- Any other trace adds no sample. -/
  unreadable : ¬Readable m.config t → m'.samples = m.samples
  /-- Characters are only added. -/
  kept : ∀ id, ∀ c ∈ m.alphabetOf id, c ∈ m'.alphabetOf id

/-- One alphabet grows, and the others stay. -/
theorem mem_alphabets_insert {alphabet : SortedSet Char} (h : ∀ c ∈ m.alphabetOf id, c ∈ alphabet) (id' : String) :
    ∀ c ∈ m.alphabetOf id', c ∈ ((m.alphabets.insert id alphabet).get? id').getD ∅ := by
  intro c hc
  rw [OrderedMap.get?_insert]
  split
  · rename_i hid
    exact h c (hid ▸ hc)
  · exact hc

/-- A trace that is not readable gives no sample, and to its token the characters that were seen before the refusal. -/
theorem addTrace_of_not_readable (h : ¬Readable m.config t) : ∃ (seen : List Nat) (v : Nat) (d : Draw),
    Refuses m.random (dropTrailing m.config.order PositionRecord.values t.trace.positions) seen v ∧
    m.addTrace t = (.error (.solutionOutOfRange v), { m with
      random := d.random
      alphabets := m.alphabets.insert t.tokenId d.alphabet }) ∧
    ∀ c, c ∈ d.alphabet ↔ c ∈ m.alphabetOf t.tokenId ∨ Shows seen c := by
  obtain ⟨seen, v, d, hrefuses, hdraw, hseen⟩ := drawSample_of_not_areBytes h ⟨m.random, m.alphabetOf t.tokenId⟩
  refine ⟨seen, v, d, hrefuses, ?_, hseen⟩
  rw [alphabetOf] at hdraw
  rw [addTrace, hdraw]

/-- A trace is accepted exactly if it is readable. -/
theorem addTrace_spec (m : TokenMiner) (t : TokenTrace) :
    ((m.addTrace t).1 = .ok () ↔ Readable m.config t) ∧ Adds m t (m.addTrace t).2 := by
  by_cases hread : Readable m.config t
  · obtain ⟨cs, d, hdraw, hcs, hseen⟩ := drawSample_of_areBytes hread ⟨m.random, m.alphabetOf t.tokenId⟩
    have hadd : m.addTrace t = (.ok (), { m with
        random := d.random
        alphabets := m.alphabets.insert t.tokenId d.alphabet
        samples := m.samples.insert t.tokenId ((m.samplesOf t.tokenId).insert (String.ofList cs)) }) := by
      rw [alphabetOf] at hdraw
      rw [addTrace, hdraw]
      rfl
    rw [hadd]
    refine ⟨⟨fun _ => hread, fun _ => rfl⟩, rfl, fun _ => ⟨String.ofList cs, rfl, ?_⟩, absurd hread, ?_⟩
    · intro c hc
      rw [String.toList_ofList] at hc
      obtain ⟨r, hr, v, hv, rfl⟩ := hcs c hc
      by_cases hzero : v = 0
      · exact .inl (by rw [hzero])
      · refine .inr ?_
        rw [alphabetOf, OrderedMap.get?_insert, if_pos rfl]
        exact (hseen _).mpr (.inr ⟨r, hr, v, hv, hzero, rfl⟩)
    · exact mem_alphabets_insert fun c hc => (hseen c).mpr (.inl hc)
  · obtain ⟨seen, v, d, -, hadd, hseen⟩ := addTrace_of_not_readable hread
    rw [hadd]
    refine ⟨⟨nofun, (absurd · hread)⟩, rfl, (absurd · hread), fun _ => rfl, ?_⟩
    exact mem_alphabets_insert fun c hc => (hseen c).mpr (.inl hc)

/-- Adds traces one after the other; one that is not accepted gives no sample. -/
def addTraces (m : TokenMiner) (ts : List TokenTrace) : TokenMiner := ts.foldl (fun m t => (m.addTrace t).2) m

/-- One of the traces is one of the token, and is accepted. -/
def IsSampled (config : MinerConfig) (ts : List TokenTrace) (id : String) : Prop :=
  ∃ t ∈ ts, t.tokenId = id ∧ ((new config).addTrace t).1 = .ok ()

theorem isSampled_iff : IsSampled config ts id ↔ ∃ t ∈ ts, t.tokenId = id ∧ Readable config t :=
  exists_congr fun t => and_congr_right fun _ => and_congr_right fun _ => (addTrace_spec (new config) t).1

/-- One more trace may give one more token. -/
theorem Adds.mem_keys_iff (h : Adds m t m') :
    id ∈ m'.samples.keys ↔ id ∈ m.samples.keys ∨ t.tokenId = id ∧ Readable m.config t := by
  by_cases hread : Readable m.config t
  · obtain ⟨s, hs, -⟩ := h.readable hread
    rw [hs, OrderedMap.keys_insert]
    split
    · rename_i hmem
      exact ⟨.inl, fun h => h.elim (·) fun h => h.1 ▸ hmem⟩
    · rw [List.mem_append, List.mem_singleton]
      simp [hread, eq_comm]
  · rw [h.unreadable hread]
    simp [hread]

theorem mem_keys_addTraces : id ∈ (m.addTraces ts).samples.keys ↔
    id ∈ m.samples.keys ∨ ∃ t ∈ ts, t.tokenId = id ∧ Readable m.config t := by
  induction ts generalizing m with
  | nil => simp [addTraces]
  | cons t ts ih =>
    have hadds := (addTrace_spec m t).2
    show id ∈ ((m.addTrace t).2.addTraces ts).samples.keys ↔ _
    rw [ih, hadds.mem_keys_iff, hadds.config_eq, or_assoc]
    simp

/-! ### The order of identifiers -/

/-- Zero for a text that is no number, and one more than its value for a number. -/
def rank (id : String) : Nat :=
  match parseWord? id.toList with
  | none => 0
  | some n => n.toNat + 1

/-- One token is listed before another: its rank is smaller, or the ranks are equal and its text is. -/
def Precedes (a b : String) : Prop := rank a < rank b ∨ rank a = rank b ∧ a < b

theorem Precedes.asymm {a b : String} (h : Precedes a b) : ¬Precedes b a := by
  rintro (h' | ⟨heq, h'⟩)
  · rcases h with h | ⟨heq, -⟩ <;> omega
  · rcases h with h | ⟨-, h⟩
    · omega
    · exact StrictOrder.asymm h h'

theorem Precedes.trans {a b c : String} (hab : Precedes a b) (hbc : Precedes b c) : Precedes a c := by
  rcases hab with hab | ⟨heq, hab⟩
  · rcases hbc with hbc | ⟨heq', -⟩
    · exact .inl (hab.trans hbc)
    · exact .inl (heq' ▸ hab)
  · rcases hbc with hbc | ⟨heq', hbc⟩
    · exact .inl (heq ▸ hbc)
    · exact .inr ⟨heq.trans heq', StrictOrder.trans hab hbc⟩

/-- Of two tokens one precedes the other. -/
theorem precedes_connex {a b : String} (hne : a ≠ b) : Precedes a b ∨ Precedes b a := by
  rcases Nat.lt_trichotomy (rank a) (rank b) with h | h | h
  · exact .inl (.inl h)
  · by_cases hab : a < b
    · exact .inl (.inr ⟨h, hab⟩)
    · by_cases hba : b < a
      · exact .inr (.inr ⟨h.symm, hba⟩)
      · exact absurd (StrictOrder.connex hab hba) hne
  · exact .inr (.inl h)

/-- Tokens are compared by rank and text. -/
theorem idLe_iff {a b : String} : idLe a b = true ↔ ¬Precedes b a := by
  unfold idLe Precedes rank
  rcases parseWord? a.toList with - | m <;> rcases parseWord? b.toList with - | n
  · simp
  · simp
  · simp
  · simp only [Bool.or_eq_true, decide_eq_true_eq, Bool.and_eq_true, Bool.not_eq_true', decide_eq_false_iff_not,
      ← UInt64.toNat_inj, Nat.add_right_cancel_iff, Nat.add_lt_add_iff_right]
    constructor
    · rintro (h | ⟨h, h'⟩) (hlt | ⟨heq, hlt⟩)
      · omega
      · omega
      · omega
      · exact h' hlt
    · intro h
      rcases Nat.lt_trichotomy m.toNat n.toNat with hlt | heq | hlt
      · exact .inl hlt
      · exact .inr ⟨heq, fun hba => h (.inr ⟨heq.symm, hba⟩)⟩
      · exact absurd (.inl hlt) h

/-- One number is listed before another: its value is smaller, or the values are equal and its text is. -/
def NumberPrecedes (a b : String) : Prop :=
  ∃ m n, parseWord? a.toList = some m ∧ parseWord? b.toList = some n ∧ (m.toNat < n.toNat ∨ m = n ∧ a < b)

theorem rank_eq_zero_iff {a : String} : rank a = 0 ↔ parseWord? a.toList = none := by
  rw [rank]
  rcases parseWord? a.toList with - | n <;> simp

theorem rank_of_some {a : String} {n : UInt64} (h : parseWord? a.toList = some n) : rank a = n.toNat + 1 := by
  rw [rank, h]

/-- Two lists in the order of tokens with the same elements are the same. -/
theorem eq_of_pairwise_precedes {l l' : List String} (hl : l.Pairwise Precedes) (hl' : l'.Pairwise Precedes)
    (h : ∀ id, id ∈ l ↔ id ∈ l') : l = l' := by
  have hnodup : ∀ {l : List String}, l.Pairwise Precedes → l.Nodup := by
    refine fun hl => hl.imp fun {a b} hab => ?_
    rintro rfl
    exact hab.asymm hab
  have hperm : l.Perm l' := (List.perm_ext_iff_of_nodup (hnodup hl) (hnodup hl')).mpr h
  exact hperm.eq_of_pairwise (fun _ _ _ _ hab hba => absurd hba hab.asymm) hl hl'

theorem mem_sortedIds : id ∈ m.sortedIds ↔ id ∈ m.samples.keys := List.mem_mergeSort

theorem nodup_sortedIds (m : TokenMiner) : m.sortedIds.Nodup :=
  (List.mergeSort_perm ..).nodup_iff.mpr m.samples.nodup_keys

theorem pairwise_sortedIds (m : TokenMiner) : m.sortedIds.Pairwise Precedes := by
  have hle : m.sortedIds.Pairwise fun a b => idLe a b = true := by
    refine List.pairwise_mergeSort (fun a b c hab hbc => ?_) (fun a b => ?_) m.samples.keys
    · rw [idLe_iff] at hab hbc ⊢
      intro hca
      by_cases heq : a = b
      · exact hbc (heq ▸ hca)
      · exact hbc (hca.trans ((precedes_connex heq).resolve_right hab))
    · rw [Bool.or_eq_true, idLe_iff, idLe_iff]
      exact Classical.not_and_iff_not_or_not.mp fun h => h.1.asymm h.2
  exact (hle.and m.nodup_sortedIds).imp fun {a b} h => (precedes_connex h.2).resolve_right (idLe_iff.mp h.1)

/-- In order, the tokens with a sample are texts and then numbers. -/
theorem sortedIds_eq_append (m : TokenMiner) : ∃ texts numbers : List String, m.sortedIds = texts ++ numbers ∧
    (∀ id, id ∈ texts ↔ id ∈ m.samples.keys ∧ parseWord? id.toList = none) ∧ texts.Pairwise (· < ·) ∧
    (∀ id, id ∈ numbers ↔ id ∈ m.samples.keys ∧ ∃ n, parseWord? id.toList = some n) ∧
    numbers.Pairwise NumberPrecedes := by
  let texts := m.sortedIds.filter fun id => (parseWord? id.toList).isNone
  let numbers := m.sortedIds.filter fun id => (parseWord? id.toList).isSome
  have htexts : ∀ id, id ∈ texts ↔ id ∈ m.samples.keys ∧ parseWord? id.toList = none := fun id => by
    rw [List.mem_filter, mem_sortedIds, Option.isNone_iff_eq_none]
  have hnumbers : ∀ id, id ∈ numbers ↔ id ∈ m.samples.keys ∧ ∃ n, parseWord? id.toList = some n := fun id => by
    rw [List.mem_filter, mem_sortedIds, Option.isSome_iff_exists]
  have hsorted := m.pairwise_sortedIds
  refine ⟨texts, numbers, ?_, htexts, ?_, hnumbers, ?_⟩
  · -- both sides are in the order of tokens, as every text precedes every number
    refine eq_of_pairwise_precedes hsorted (List.pairwise_append.mpr ⟨hsorted.filter _, hsorted.filter _, ?_⟩) ?_
    · intro a ha b hb
      obtain ⟨n, hn⟩ := ((hnumbers b).mp hb).2
      refine .inl ?_
      rw [rank_eq_zero_iff.mpr ((htexts a).mp ha).2, rank_of_some hn]
      exact Nat.succ_pos _
    · intro id
      rw [List.mem_append, htexts, hnumbers, mem_sortedIds]
      rcases parseWord? id.toList with - | n <;> simp
  · refine (hsorted.filter _).imp_of_mem fun {a b} ha hb hab => ?_
    have ha' := rank_eq_zero_iff.mpr ((htexts a).mp ha).2
    have hb' := rank_eq_zero_iff.mpr ((htexts b).mp hb).2
    exact (hab.resolve_left (by omega)).2
  · refine (hsorted.filter _).imp_of_mem fun {a b} ha hb hab => ?_
    obtain ⟨n, hn⟩ := ((hnumbers a).mp ha).2
    obtain ⟨k, hk⟩ := ((hnumbers b).mp hb).2
    refine ⟨n, k, hn, hk, ?_⟩
    rw [Precedes, rank_of_some hn, rank_of_some hk, Nat.add_lt_add_iff_right, Nat.add_right_cancel_iff,
      UInt64.toNat_inj] at hab
    exact hab

/-! ### The names of the grammar -/

/-- The two nonterminals of a token: that of its samples, and its own. -/
def names (id : String) : List String := [externalName id, tokenName id]

theorem toList_externalName (id : String) :
    (externalName id).toList = "<__external_".toList ++ (id.toList ++ ['>']) := by
  simp [externalName, String.toList_append]

theorem toList_tokenName (id : String) : (tokenName id).toList = "<TOK_".toList ++ (id.toList ++ ['>']) := by
  simp [tokenName, String.toList_append]

theorem externalName_ne_tokenName (a b : String) : externalName a ≠ tokenName b := by
  intro h
  have h' := congrArg String.toList h
  rw [toList_externalName, toList_tokenName] at h'
  cases h'

theorem externalName_injective : Function.Injective externalName := by
  intro a b h
  have h' := congrArg String.toList h
  rw [toList_externalName, toList_externalName] at h'
  exact String.toList_inj.mp (List.append_cancel_right (List.append_cancel_left h'))

theorem tokenName_injective : Function.Injective tokenName := by
  intro a b h
  have h' := congrArg String.toList h
  rw [toList_tokenName, toList_tokenName] at h'
  exact String.toList_inj.mp (List.append_cancel_right (List.append_cancel_left h'))

/-- Different tokens have different names. -/
theorem nodup_flatMap_names {ids : List String} (h : ids.Nodup) : (ids.flatMap names).Nodup := by
  refine List.nodup_flatMap.mpr ⟨fun id _ => ?_, h.imp fun {a b} hne => ?_⟩
  · simp [names, externalName_ne_tokenName]
  · intro n ha hb
    rcases List.mem_pair.mp ha with rfl | rfl
    · rcases List.mem_pair.mp hb with h | h
      · exact hne (externalName_injective h)
      · exact externalName_ne_tokenName a b h
    · rcases List.mem_pair.mp hb with h | h
      · exact externalName_ne_tokenName b a h.symm
      · exact hne (tokenName_injective h)

/-- The samples of a token are the alternatives of its first name, to which its second name refers. -/
theorem entries_rawGrammar (m : TokenMiner) : m.rawGrammar.entries = m.sortedIds.flatMap fun id =>
    [(externalName id, (m.samplesOf id).toList.map fun s => [.terminal s]),
      (tokenName id, [[.nonterminal (externalName id)]])] := by
  refine OrderedMap.foldl_insert_entries (m := OrderedMap.empty) ?_
  show (List.map Prod.fst (m.sortedIds.flatMap _)).Nodup
  rw [List.map_flatMap]
  exact nodup_flatMap_names m.nodup_sortedIds

theorem keys_rawGrammar (m : TokenMiner) : m.rawGrammar.keys = m.sortedIds.flatMap names := by
  rw [OrderedMap.keys, entries_rawGrammar, List.map_flatMap]
  rfl

/-- **Tokens are listed in an order of their own, texts before numbers.**  Let any traces be added in any
configuration; those that are not accepted give no sample.  The grammar of the samples has two names for each token
with a sample, that of its samples and its own right behind it.  The tokens whose identifier is no number come first,
in the order of their texts, and then those with a number, in the order of their values, equal ones in that of their
texts.  So the names and their order are the same for all sequences of the same traces. -/
theorem rawGrammar_order (config : MinerConfig) (ts : List TokenTrace) : ∃ texts numbers : List String,
    (∀ id, id ∈ texts ↔ IsSampled config ts id ∧ parseWord? id.toList = none) ∧ texts.Pairwise (· < ·) ∧
    (∀ id, id ∈ numbers ↔ IsSampled config ts id ∧ ∃ n, parseWord? id.toList = some n) ∧
    numbers.Pairwise NumberPrecedes ∧
    ((new config).addTraces ts).rawGrammar.keys =
      (texts ++ numbers).flatMap (fun id => [externalName id, tokenName id]) ∧
    ∀ ts', (∀ t, t ∈ ts' ↔ t ∈ ts) →
      ((new config).addTraces ts').rawGrammar.keys = ((new config).addTraces ts).rawGrammar.keys := by
  have hkeys : ∀ ts id, id ∈ ((new config).addTraces ts).samples.keys ↔ IsSampled config ts id := fun ts id =>
    (mem_keys_addTraces.trans (or_iff_right List.not_mem_nil)).trans isSampled_iff.symm
  obtain ⟨texts, numbers, heq, htexts, htexts', hnumbers, hnumbers'⟩ := ((new config).addTraces ts).sortedIds_eq_append
  simp only [hkeys] at htexts hnumbers
  refine ⟨texts, numbers, htexts, htexts', hnumbers, hnumbers', ?_, fun ts' hts' => ?_⟩
  · rw [keys_rawGrammar, heq]
    rfl
  · rw [keys_rawGrammar, keys_rawGrammar]
    have hids : ((new config).addTraces ts').sortedIds = ((new config).addTraces ts).sortedIds := by
      refine eq_of_pairwise_precedes (pairwise_sortedIds _) (pairwise_sortedIds _) fun id => ?_
      rw [mem_sortedIds, mem_sortedIds, hkeys, hkeys]
      simp only [IsSampled, hts']
    rw [hids]

/-- A token of one letter. -/
def letterToken (id : String) : TokenTrace where
  tokenId := id
  trace :=
    { positions := [⟨[1], [[]], [97]⟩]
      nonempty := List.cons_ne_nil _ _
      consistent := List.forall_mem_singleton.mpr ⟨rfl, List.cons_ne_nil _ _⟩
      size_le := Nat.le_of_ble_eq_true rfl }

/-- A token with a number is listed behind one without. -/
theorem rawGrammar_order_letterToken : parseWord? "1".toList = some 1 ∧ parseWord? "x".toList = none ∧
    ((new {}).addTrace (letterToken "1")).1 = .ok () ∧
    (((new {}).addTrace (letterToken "1")).2.addTrace (letterToken "x")).1 = .ok () ∧
    ((new {}).addTraces [letterToken "1", letterToken "x"]).rawGrammar.keys =
      ["<__external_x>", "<TOK_x>", "<__external_1>", "<TOK_1>"] := by
  have hids : ((new {}).addTraces [letterToken "1", letterToken "x"]).samples.keys = ["1", "x"] := by decide +kernel
  have hprecedes : Precedes "x" "1" := .inl (by decide +kernel)
  have hsorted : ((new {}).addTraces [letterToken "1", letterToken "x"]).sortedIds = ["x", "1"] := by
    refine eq_of_pairwise_precedes (pairwise_sortedIds _) (List.pairwise_pair.mpr hprecedes) fun id => ?_
    rw [mem_sortedIds, hids, List.mem_pair, List.mem_pair, or_comm]
  refine ⟨by decide +kernel, by decide +kernel, by decide +kernel, by decide +kernel, ?_⟩
  rw [keys_rawGrammar, hsorted]
  rfl

end TokenMiner

end GrammarInference
