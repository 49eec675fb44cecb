/-
GrammarInference/Proofs/Earley/Recognizer.lean

The recognizer decides whether a nonterminal derives an input.

Design.  With a deadline that never comes, the chart is finished: it is sound, the alternatives of the start
nonterminal stand at its first position, and every item is closed (`build_never`).  The work on a set ends
because its items are used up, and not because the bound on it is reached, since the bound is the size that a
set can have.  In a finished chart, an item behind whose dot the parts derive what follows in the input reaches
the end of these parts (`Finished.mem_of_derives`).  This is an induction on the derivation, and the step for a
nonterminal is where the two ways over it meet: a nonterminal that derives the empty string is skipped, and any
other is completed by an item that began earlier.

    recognizeFrom (.ofGrammar g) start input .never = .accepted  ↔  g derives input from start
-/
import GrammarInference.Proofs.Earley.Closure

namespace GrammarInference

/-- A deadline that never comes stops nothing. -/
theorem Checkpoint.tick_of_never {cp : Checkpoint} (h : cp.deadline = .never) :
    cp.tick = (false, { cp with steps := cp.steps + 1 }) := by
  simp [tick, h, Deadline.hasPassed]

namespace Earley

variable {g : Grammar} {input : Array Char}

namespace Chart

variable {c c' : Chart} {j : Nat}

/-! ### Filling the sets -/

theorem Grows.getElem?_eq {k : Nat} (h : Grows k c c') {m : Nat} (hm : m < (c.listAt j).length) :
    (c'.listAt j)[m]? = (c.listAt j)[m]? := by
  obtain ⟨l, hl⟩ := h.isPrefix j
  rw [← hl, List.getElem?_append_left hm]

/-- If the items with small numbers are closed, and there are no others, then all are closed. -/
theorem forall_closed_of_length_le {i : Nat} (hlen : (c.listAt j).length ≤ i)
    (hclosed : ∀ (m : Nat) (a : Item), m < i → (c.listAt j)[m]? = some a → Closed g input c j a) :
    ∀ a ∈ c.listAt j, Closed g input c j a := by
  intro a ha
  obtain ⟨m, hm⟩ := List.getElem?_of_mem ha
  have hlt : m < (c.listAt j).length := (List.getElem?_eq_some_iff.mp hm).1
  exact hclosed m a (Nat.lt_of_lt_of_le hlt hlen) hm

/-- The work on a set closes all its items. -/
theorem fillSet_never {fuel i : Nat} {cp : Checkpoint} (hc : Sound g input c) (hcp : cp.deadline = .never)
    (hfuel : capacity (.ofGrammar g) j ≤ i + fuel)
    (hclosed : ∀ (m : Nat) (a : Item), m < i → (c.listAt j)[m]? = some a → Closed g input c j a) :
    ∃ c' cp', fillSet (.ofGrammar g) input j fuel i c cp = some (c', cp') ∧ cp'.deadline = .never ∧
      Extends g input j c c' ∧ ∀ a ∈ c'.listAt j, Closed g input c' j a := by
  induction fuel generalizing i c cp with
  | zero =>
    have hlen := Nat.le_trans (hc.length_listAt_le j) hfuel
    exact ⟨c, cp, rfl, hcp, hc.extends_refl j, forall_closed_of_length_le hlen hclosed⟩
  | succ fuel ih =>
    rw [fillSet, item?_eq]
    rcases hi : (c.listAt j)[i]? with - | item
    · have hlen := List.getElem?_eq_none_iff.mp hi
      exact ⟨c, cp, rfl, hcp, hc.extends_refl j, forall_closed_of_length_le hlen hclosed⟩
    · obtain ⟨hext, hitem⟩ := process_spec hc (List.mem_of_getElem? hi)
      have hlt : i < (c.listAt j).length := (List.getElem?_eq_some_iff.mp hi).1
      -- one more item is closed, and those before it stay closed
      have hclosed' : ∀ (m : Nat) (a : Item), m < i + 1 →
          ((c.process (.ofGrammar g) input j item).listAt j)[m]? = some a →
          Closed g input (c.process (.ofGrammar g) input j item) j a := by
        intro m a hm ha
        rw [hext.grows.getElem?_eq (by omega)] at ha
        rcases Nat.lt_succ_iff_lt_or_eq.mp hm with hmi | rfl
        · exact (hclosed m a hmi ha).mono hext.grows (Nat.le_refl j)
        · obtain rfl : item = a := Option.some.inj (hi.symm.trans ha)
          exact hitem
      have hcp₁ : { cp with steps := cp.steps + 1 }.deadline = .never := hcp
      rw [Checkpoint.tick_of_never hcp]
      obtain ⟨c', cp', hfill, hcp', hext', hall⟩ := ih hext.sound hcp₁ (by omega) hclosed'
      exact ⟨c', cp', hfill, hcp', hext.trans hext', hall⟩

/-- The work on all sets from `j` on closes all items. -/
theorem fillSets_never {left : Nat} {cp : Checkpoint} (hc : Sound g input c) (hcp : cp.deadline = .never)
    (hleft : j + left = input.size + 1)
    (hclosed : ∀ k, k < j → ∀ a ∈ c.listAt k, Closed g input c k a) :
    ∃ c', fillSets (.ofGrammar g) input left j c cp = some c' ∧ Extends g input j c c' ∧
      ∀ k, ∀ a ∈ c'.listAt k, Closed g input c' k a := by
  induction left generalizing j c cp with
  | zero =>
    refine ⟨c, rfl, hc.extends_refl j, fun k a ha => hclosed k ?_ a ha⟩
    have hk := hc.le_of_mem ha
    omega
  | succ left ih =>
    obtain ⟨c₁, cp₁, hfill, hcp₁, hext, hall⟩ := fillSet_never (i := 0) (j := j) hc hcp
      (Nat.le_of_eq (Nat.zero_add _).symm) (fun m a hm => absurd hm (Nat.not_lt_zero m))
    -- the sets before `j` did not change, and the one at `j` is closed now
    have hclosed₁ : ∀ k, k < j + 1 → ∀ a ∈ c₁.listAt k, Closed g input c₁ k a := by
      intro k hk a ha
      rcases Nat.lt_succ_iff_lt_or_eq.mp hk with hkj | rfl
      · rw [hext.grows.eq_of_lt k hkj] at ha
        exact (hclosed k hkj a ha).mono hext.grows (Nat.le_of_lt hkj)
      · exact hall a ha
    obtain ⟨c₂, hsets, hext₂, hall₂⟩ := ih hext.sound hcp₁ (by omega) hclosed₁
    refine ⟨c₂, ?_, ⟨hext₂.sound, hext.grows.trans (hext₂.grows.of_le (Nat.le_succ j))⟩, hall₂⟩
    rw [fillSets, hfill]
    exact hsets

/-! ### The finished chart -/

/-- The chart of an input for `start`: sound, started, and closed. -/
structure Finished (g : Grammar) (input : Array Char) (start : String) (c : Chart) : Prop where
  /-- All items are derived. -/
  sound : Sound g input c
  /-- The alternatives of `start` begin at the first position. -/
  started : ∀ k ∈ (Table.ofGrammar g).alternatives start, ⟨k, 0, 0⟩ ∈ c.listAt 0
  /-- All items are closed. -/
  closed : ∀ j, ∀ a ∈ c.listAt j, Closed g input c j a

/-- Without a deadline the chart gets finished. -/
theorem build_never (g : Grammar) (input : Array Char) (start : String) :
    ∃ c, build (.ofGrammar g) input start .never = some c ∧ Finished g input start c := by
  obtain ⟨hext, hstart⟩ := predict_spec (sound_replicate g input) (Nat.zero_le _) start
  have hcp : (Checkpoint.start .never period).deadline = .never := rfl
  obtain ⟨c, hfill, hext', hall⟩ := fillSets_never (j := 0) hext.sound hcp (Nat.zero_add _)
    fun k hk => absurd hk (Nat.not_lt_zero k)
  exact ⟨c, hfill, hext'.sound, fun k hk => hext'.grows.mem (hstart k hk), hall⟩

variable {start : String}

/-- The part at which the dot of an item stands, read off its rule. -/
theorem part?_of_drop_eq {i : Item} {p : Production} {x : Symbol} {r : Rule}
    (hp : (Table.ofGrammar g).productions[i.production]? = some p) (hdrop : p.rule.drop i.dot = x :: r) :
    (Table.ofGrammar g).part? i.production i.dot = some (Part.ofSymbol x) := by
  have hget : p.rule[i.dot]? = some x := by
    rw [← List.head?_drop, hdrop, List.head?_cons]
  rw [p.getElem?_rule] at hget
  obtain ⟨y, hy, rfl⟩ := Option.map_eq_some_iff.mp hget
  rw [Table.part?_of_production hp, hy, Part.ofSymbol_symbol]

theorem part?_length_rule {k : Nat} {p : Production} (hp : (Table.ofGrammar g).productions[k]? = some p) :
    (Table.ofGrammar g).part? k p.rule.length = none := by
  rw [Table.part?_of_production hp, p.length_rule]
  exact Array.getElem?_eq_none (Nat.le_refl _)

/-- A waiting item gets over a nonterminal that derives what follows. -/
theorem Finished.advance_mem (h : Finished g input start c) {i : Item} {k m : Nat} {p : Production} {n : String}
    (hi : i ∈ c.listAt j) (hwaits : i.Waits (.ofGrammar g) n) (hjm : j ≤ m)
    (hk : (Table.ofGrammar g).productions[k]? = some p) (hlhs : p.lhs = n)
    (hdone : ⟨k, p.rule.length, j⟩ ∈ c.listAt m) : i.advance ∈ c.listAt m := by
  have hnone := part?_length_rule hk
  have hlhs' : (Table.ofGrammar g).lhs k = n := (Table.lhs_of_production hk).trans hlhs
  rcases Nat.eq_or_lt_of_le hjm with rfl | hlt
  · -- the nonterminal derives the empty string
    have hlang := (h.sound.derived j _ hdone).complete hnone
    rw [segment_self] at hlang
    exact (h.closed j i hi).skipped n hwaits (Table.mem_nullable_iff.mpr (hlhs' ▸ hlang))
  · exact (h.closed m _ hdone).completed hnone hlt i hi (hlhs'.symm ▸ hwaits)

/-- An item reaches the end of the parts behind its dot if they derive what follows. -/
theorem Finished.mem_of_derives (h : Finished g input start c) {r : Rule} {w : List Char}
    (hd : Grammar.Derives g r w) {i : Item} {p : Production} {k : Nat} {rest : Rule} (hi : i ∈ c.listAt j)
    (hp : (Table.ofGrammar g).productions[i.production]? = some p) (hdrop : p.rule.drop i.dot = r ++ rest)
    (hjk : j ≤ k) (hk : k ≤ input.size) (hseg : segment input j k = w) :
    { i with dot := i.dot + r.length } ∈ c.listAt k := by
  induction hd generalizing i j p k rest with
  | nil =>
    have hlen : k - j = 0 := by rw [← length_segment hk, hseg, List.length_nil]
    obtain rfl : j = k := by omega
    exact hi
  | @terminal t r w _ ih =>
    obtain ⟨hle, htext, hrest⟩ := (segment_eq_append_iff hjk hk).mp hseg
    have hpart := part?_of_drop_eq hp hdrop
    have hmatch : matchesAt input j input.size t.toList = true :=
      (matchesAt_iff (by omega) (Nat.le_refl _)).mpr ⟨by omega, htext⟩
    have hadv := (h.closed j i hi).scanned _ hpart hmatch
    have hdrop' : p.rule.drop i.advance.dot = r ++ rest := by
      show p.rule.drop (i.dot + 1) = r ++ rest
      rw [← List.drop_drop, hdrop]
      rfl
    have hend := ih hadv hp hdrop' hle hk hrest
    rwa [List.length_cons, Nat.add_comm r.length, ← Nat.add_assoc]
  | @nonterminal n body r u v hb _ _ ihBody ih =>
    obtain ⟨hle, hbody, hrest⟩ := (segment_eq_append_iff hjk hk).mp hseg
    have hpart : i.Waits (.ofGrammar g) n := part?_of_drop_eq hp hdrop
    obtain ⟨m, q, hq, hlhs, hrule⟩ := Table.exists_production hb
    -- the alternative that is used was begun, by induction it is completed, and then `i` gets over `n`
    have hpred := (h.closed j i hi).predicted n hpart m (Table.mem_alternatives_iff.mpr ⟨q, hq, hlhs⟩)
    have hdropBody : q.rule.drop 0 = body ++ [] := by rw [List.drop_zero, List.append_nil, hrule]
    have hdone := ihBody hpred hq hdropBody (Nat.le_add_right j u.length) (Nat.le_trans hle hk) hbody
    rw [← hrule, Nat.zero_add] at hdone
    have hadv := h.advance_mem hi hpart (Nat.le_add_right j _) hq hlhs hdone
    have hdrop' : p.rule.drop i.advance.dot = r ++ rest := by
      show p.rule.drop (i.dot + 1) = r ++ rest
      rw [← List.drop_drop, hdrop]
      rfl
    have hend := ih hadv hp hdrop' hle hk hrest
    rwa [List.length_cons, Nat.add_comm r.length, ← Nat.add_assoc]

/-- An alternative that was begun is completed wherever a derivation by it ends. -/
theorem Finished.complete_mem (h : Finished g input start c) {m k : Nat} {p : Production}
    (hbegun : ⟨m, 0, j⟩ ∈ c.listAt j) (hp : (Table.ofGrammar g).productions[m]? = some p) (hjk : j ≤ k)
    (hk : k ≤ input.size) (hd : Grammar.Derives g p.rule (segment input j k)) :
    ⟨m, p.rule.length, j⟩ ∈ c.listAt k := by
  have hdrop : p.rule.drop 0 = p.rule ++ [] := by rw [List.drop_zero, List.append_nil]
  have hmem := h.mem_of_derives hd hbegun hp hdrop hjk hk rfl
  rwa [Nat.zero_add] at hmem

/-- The finished chart answers whether `start` derives the input. -/
theorem Finished.accepts_iff (h : Finished g input start c) :
    c.accepts (.ofGrammar g) start input.size = true ↔ Grammar.InLanguage g start input.toList := by
  rw [accepts, ← Array.any_toList, List.any_eq_true]
  constructor
  · rintro ⟨i, hi, hcond⟩
    simp only [Bool.and_eq_true, beq_iff_eq, Option.isNone_iff_eq_none] at hcond
    obtain ⟨⟨horigin, rfl⟩, hnone⟩ := hcond
    have hlang := (h.sound.derived input.size i hi).complete hnone
    rwa [horigin, segment_zero_size] at hlang
  · rintro ⟨body, hb, hd⟩
    obtain ⟨m, p, hp, hlhs, rfl⟩ := Table.exists_production hb
    rw [← segment_zero_size] at hd
    have hbegun := h.started m (Table.mem_alternatives_iff.mpr ⟨p, hp, hlhs⟩)
    refine ⟨_, h.complete_mem hbegun hp (Nat.zero_le _) (Nat.le_refl _) hd, ?_⟩
    show (true && (Table.ofGrammar g).lhs m == start && _) = true
    rw [Table.lhs_of_production hp, hlhs, part?_length_rule hp]
    simp

end Chart

/-! ### Recognition -/

/-- No list of items is longer than the bound on the loop over it, so the loops end with the lists. -/
structure Chart.WithinBounds (t : Table) (c : Chart) : Prop where
  /-- The items of a set run out. -/
  items_end : ∀ j, c.item? j (Chart.capacity t j) = none
  /-- The items that wait for a nonterminal run out. -/
  waiting_end : ∀ j n, c.waiting? j n (Chart.capacity t j) = none

theorem Chart.Sound.withinBounds {c : Chart} (hc : Chart.Sound g input c) : c.WithinBounds (.ofGrammar g) where
  items_end := by
    intro j
    rw [Chart.item?_eq]
    exact List.getElem?_eq_none (hc.length_listAt_le j)
  waiting_end := by
    intro j n
    rw [hc.consistent.waiting?_eq]
    exact List.getElem?_eq_none (Nat.le_trans (List.length_filter_le _ _) (hc.length_listAt_le j))

/-- Without a deadline the answer is read off the finished chart. -/
theorem recognizeFrom_never (g : Grammar) (start input : String) :
    ∃ c, Chart.build (.ofGrammar g) input.toList.toArray start .never = some c ∧
      Chart.Finished g input.toList.toArray start c ∧
      recognizeFrom (.ofGrammar g) start input .never =
        if c.accepts (.ofGrammar g) start input.toList.toArray.size then .accepted else .rejected := by
  obtain ⟨c, hbuild, hfin⟩ := Chart.build_never g input.toList.toArray start
  exact ⟨c, hbuild, hfin, by rw [recognizeFrom, hbuild]⟩

theorem recognizeFrom_never_eq_accepted_iff {g : Grammar} {start input : String} :
    recognizeFrom (.ofGrammar g) start input .never = .accepted ↔ Grammar.InLanguage g start input.toList := by
  obtain ⟨c, -, hfin, hrec⟩ := recognizeFrom_never g start input
  have hacc := hfin.accepts_iff
  rw [List.toList_toArray] at hacc
  rw [hrec, ← hacc]
  split <;> simp_all

/-- **The recognizer decides the language.**  With a deadline that never comes it accepts exactly the inputs
that the nonterminal derives, and rejects all others.  Its loops end because nothing is left to do. -/
theorem recognizeFrom_decides (g : Grammar) (start input : String) :
    (recognizeFrom (.ofGrammar g) start input .never = .accepted ↔
      Grammar.Derives g [.nonterminal start] input.toList) ∧
    (recognizeFrom (.ofGrammar g) start input .never = .rejected ↔
      ¬ Grammar.Derives g [.nonterminal start] input.toList) ∧
    ∃ c, Chart.build (.ofGrammar g) input.toList.toArray start .never = some c ∧
      c.WithinBounds (.ofGrammar g) := by
  obtain ⟨c, hbuild, hfin, hrec⟩ := recognizeFrom_never g start input
  have hbounds : ∃ c, Chart.build (.ofGrammar g) input.toList.toArray start .never = some c ∧
      c.WithinBounds (.ofGrammar g) := ⟨c, hbuild, hfin.sound.withinBounds⟩
  rw [Grammar.derives_singleton_iff, ← recognizeFrom_never_eq_accepted_iff, hrec]
  refine ⟨Iff.rfl, ?_, hbounds⟩
  split <;> simp

end Earley

end GrammarInference
