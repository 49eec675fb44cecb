/-
GrammarInference/Proofs/Earley/Closure.lean

The finished chart is sound and closed.

Design.  An item is `Closed` in a chart if everything that it asks for is there: the alternatives of the
nonterminal behind its dot, the item behind a nullable one or behind a text that matches, and, for a complete
item, the advance of all items that wait where it began.  The last is asked only of complete items that began
earlier.  A complete item that begins where it ends meets a waiting list that is still growing, and misses what
comes later; those items get over the nonterminal because it is nullable.  Processing an item closes it
(`process_spec`), and it stays closed, since the list that a complete item looks at no longer grows.
-/
import GrammarInference.Proofs.Earley.Items

namespace GrammarInference

namespace Earley

variable {g : Grammar} {input : Array Char}

namespace Chart

variable {c c' c'' : Chart} {j : Nat}

/-- The chart `c'` comes from `c` by adding derived items at position `j` and behind it. -/
structure Extends (g : Grammar) (input : Array Char) (j : Nat) (c c' : Chart) : Prop where
  /-- All items are derived. -/
  sound : Sound g input c'
  /-- The lists grew. -/
  grows : Grows j c c'

theorem Sound.extends_refl (hc : Sound g input c) (j : Nat) : Extends g input j c c := ⟨hc, .refl j c⟩

theorem Extends.trans (h : Extends g input j c c') (h' : Extends g input j c' c'') : Extends g input j c c'' :=
  ⟨h'.sound, h.grows.trans h'.grows⟩

theorem Sound.extends_add (hc : Sound g input c) {k : Nat} {i : Item} (hjk : j ≤ k) (hk : k ≤ input.size)
    (hi : i.Derived g input k) : Extends g input j c (c.add (.ofGrammar g) k i) :=
  ⟨hc.add hk hi, (grows_add hc.consistent (hc.lt_size hk) i).of_le hjk⟩

/-! ### Prediction -/

/-- Prediction adds every alternative of the nonterminal. -/
theorem predict_spec (hc : Sound g input c) (hj : j ≤ input.size) (n : String) :
    Extends g input j c (c.predict (.ofGrammar g) j n) ∧
      ∀ k ∈ (Table.ofGrammar g).alternatives n, ⟨k, 0, j⟩ ∈ (c.predict (.ofGrammar g) j n).listAt j := by
  have hstart : ∀ k ∈ (Table.ofGrammar g).alternatives n, Item.Derived g input j ⟨k, 0, j⟩ :=
    fun k hk => Item.Derived.start hk j
  rw [predict]
  generalize (Table.ofGrammar g).alternatives n = ks at hstart ⊢
  induction ks generalizing c with
  | nil => exact ⟨hc.extends_refl j, fun k hk => absurd hk List.not_mem_nil⟩
  | cons k ks ih =>
    obtain ⟨hk, hks⟩ := List.forall_mem_cons.mp hstart
    have hadd := hc.extends_add (Nat.le_refl j) hj hk
    obtain ⟨hext, hmem⟩ := ih hadd.sound hks
    refine ⟨hadd.trans hext, List.forall_mem_cons.mpr ⟨?_, hmem⟩⟩
    exact hext.grows.mem (mem_listAt_add hc.consistent (hc.lt_size hj) _)

/-! ### Completion -/

/-- Items that wait at `o` are advanced to `j` by a derivation of their nonterminal in between. -/
theorem complete_extends {o : Nat} {n : String} (hc : Sound g input c) (hj : j ≤ input.size) (ho : o ≤ j)
    (hn : Grammar.InLanguage g n (segment input o j)) (fuel k : Nat) :
    Extends g input j c (complete (.ofGrammar g) j o n fuel k c) := by
  induction fuel generalizing k c with
  | zero => exact hc.extends_refl j
  | succ fuel ih =>
    rw [complete]
    rcases hw : c.waiting? o n k with - | i
    · exact hc.extends_refl j
    · rw [hc.consistent.waiting?_eq] at hw
      obtain ⟨hi, hwaits⟩ := List.mem_filter.mp (List.mem_of_getElem? hw)
      have hadv : i.advance.Derived g input j :=
        (hc.derived o i hi).advance (of_decide_eq_true hwaits) ho (Grammar.derives_singleton_iff.mpr hn)
      have hadd := hc.extends_add (Nat.le_refl j) hj hadv
      exact hadd.trans (ih hadd.sound (k + 1))

/-- Completion at a later position advances every waiting item from number `k` on. -/
theorem advance_mem_complete {o : Nat} {n : String} (hc : Sound g input c) (hj : j ≤ input.size) (ho : o < j)
    (hn : Grammar.InLanguage g n (segment input o j)) {fuel k : Nat}
    (hfuel : ((c.listAt o).filter fun i => decide (i.Waits (.ofGrammar g) n)).length ≤ k + fuel) {m : Nat}
    (hkm : k ≤ m) {i : Item}
    (hi : ((c.listAt o).filter fun i => decide (i.Waits (.ofGrammar g) n))[m]? = some i) :
    i.advance ∈ (complete (.ofGrammar g) j o n fuel k c).listAt j := by
  induction fuel generalizing k c with
  | zero =>
    have hm : m < _ := (List.getElem?_eq_some_iff.mp hi).1
    omega
  | succ fuel ih =>
    rw [complete]
    rcases hw : c.waiting? o n k with - | a
    · -- the list ended before its item number `m`
      rw [hc.consistent.waiting?_eq, List.getElem?_eq_none_iff] at hw
      have hm : m < _ := (List.getElem?_eq_some_iff.mp hi).1
      omega
    · rw [hc.consistent.waiting?_eq] at hw
      obtain ⟨ha, hwaits⟩ := List.mem_filter.mp (List.mem_of_getElem? hw)
      have hadv : a.advance.Derived g input j :=
        (hc.derived o a ha).advance (of_decide_eq_true hwaits) (Nat.le_of_lt ho)
          (Grammar.derives_singleton_iff.mpr hn)
      have hadd := hc.extends_add (Nat.le_refl j) hj hadv
      -- only the list at `j` grows, so the list that is read stays as it is
      have hsame : (c.add (.ofGrammar g) j a.advance).listAt o = c.listAt o := hadd.grows.eq_of_lt o ho
      rcases Nat.eq_or_lt_of_le hkm with rfl | hlt
      · rw [hw, Option.some.injEq] at hi
        subst hi
        have hext := complete_extends hadd.sound hj (Nat.le_of_lt ho) hn fuel (k + 1)
        exact hext.grows.mem (mem_listAt_add hc.consistent (hc.lt_size hj) _)
      · refine ih hadd.sound ?_ hlt ?_
        · rw [hsame]
          omega
        · rw [hsame]
          exact hi

/-! ### Closed items -/

/-- Everything that the item at `j` asks for is in the chart. -/
structure Closed (g : Grammar) (input : Array Char) (c : Chart) (j : Nat) (i : Item) : Prop where
  /-- The alternatives of a nonterminal behind the dot. -/
  predicted : ∀ n, i.Waits (.ofGrammar g) n →
    ∀ k ∈ (Table.ofGrammar g).alternatives n, ⟨k, 0, j⟩ ∈ c.listAt j
  /-- The item behind a nullable nonterminal. -/
  skipped : ∀ n, i.Waits (.ofGrammar g) n → n ∈ (Table.ofGrammar g).nullable → i.advance ∈ c.listAt j
  /-- The item behind a text. -/
  scanned : ∀ w, (Table.ofGrammar g).part? i.production i.dot = some (.text w) →
    matchesAt input j input.size w = true → i.advance ∈ c.listAt (j + w.length)
  /-- The items that wait where a complete item began. -/
  completed : (Table.ofGrammar g).part? i.production i.dot = none → i.origin < j →
    ∀ a ∈ c.listAt i.origin, a.Waits (.ofGrammar g) ((Table.ofGrammar g).lhs i.production) →
      a.advance ∈ c.listAt j

/-- A closed item stays closed. -/
theorem Closed.mono {i : Item} {k : Nat} (h : Closed g input c j i) (hgrows : Grows k c c') (hjk : j ≤ k) :
    Closed g input c' j i where
  predicted := fun n hn k hk => hgrows.mem (h.predicted n hn k hk)
  skipped := fun n hn hnull => hgrows.mem (h.skipped n hn hnull)
  scanned := fun w hw hmatch => hgrows.mem (h.scanned w hw hmatch)
  completed := by
    intro hnone ho a ha hwaits
    rw [hgrows.eq_of_lt i.origin (Nat.lt_of_lt_of_le ho hjk)] at ha
    exact hgrows.mem (h.completed hnone ho a ha hwaits)

theorem Closed.of_name {i : Item} {n : String} (hpart : i.Waits (.ofGrammar g) n)
    (hpred : ∀ k ∈ (Table.ofGrammar g).alternatives n, ⟨k, 0, j⟩ ∈ c.listAt j)
    (hskip : n ∈ (Table.ofGrammar g).nullable → i.advance ∈ c.listAt j) : Closed g input c j i := by
  have hname : ∀ m, i.Waits (.ofGrammar g) m → n = m := fun m hm => by simpa using hpart.symm.trans hm
  refine ⟨?_, ?_, ?_, ?_⟩
  · rintro m hm
    obtain rfl := hname m hm
    exact hpred
  · rintro m hm
    obtain rfl := hname m hm
    exact hskip
  · exact fun w hw => absurd (hpart.symm.trans hw) (by simp)
  · exact fun hnone => absurd (hpart.symm.trans hnone) (by simp)

theorem Closed.of_text {i : Item} {w : List Char}
    (hpart : (Table.ofGrammar g).part? i.production i.dot = some (.text w))
    (hscan : matchesAt input j input.size w = true → i.advance ∈ c.listAt (j + w.length)) :
    Closed g input c j i := by
  refine ⟨?_, ?_, ?_, ?_⟩
  · exact fun n hn => absurd (hpart.symm.trans hn) (by simp)
  · exact fun n hn => absurd (hpart.symm.trans hn) (by simp)
  · intro w' hw'
    obtain rfl : w = w' := by simpa using hpart.symm.trans hw'
    exact hscan
  · exact fun hnone => absurd (hpart.symm.trans hnone) (by simp)

theorem Closed.of_none {i : Item} (hpart : (Table.ofGrammar g).part? i.production i.dot = none)
    (hcomplete : i.origin < j → ∀ a ∈ c.listAt i.origin,
      a.Waits (.ofGrammar g) ((Table.ofGrammar g).lhs i.production) → a.advance ∈ c.listAt j) :
    Closed g input c j i := by
  refine ⟨?_, ?_, ?_, fun _ => hcomplete⟩
  · exact fun n hn => absurd (hpart.symm.trans hn) (by simp)
  · exact fun n hn => absurd (hpart.symm.trans hn) (by simp)
  · exact fun w hw => absurd (hpart.symm.trans hw) (by simp)

/-! ### Processing an item -/

theorem process_name_spec (hc : Sound g input c) {i : Item} (hi : i ∈ c.listAt j) {n : String}
    (hpart : i.Waits (.ofGrammar g) n) :
    Extends g input j c (c.process (.ofGrammar g) input j i) ∧
      Closed g input (c.process (.ofGrammar g) input j i) j i := by
  have hj : j ≤ input.size := hc.le_of_mem hi
  obtain ⟨hext, hpred⟩ := predict_spec hc hj n
  rw [process, show (Table.ofGrammar g).part? i.production i.dot = some (.name n) from hpart]
  by_cases hnull : (Table.ofGrammar g).nullable.contains n = true
  · have hempty : Grammar.Derives g [Part.symbol (.name n)] (segment input j j) := by
      rw [segment_self]
      exact Grammar.derives_singleton_iff.mpr (Table.mem_nullable_iff.mp (List.contains_iff_mem.mp hnull))
    have hadd := hext.sound.extends_add (Nat.le_refl j) hj
      ((hc.derived j i hi).advance hpart (Nat.le_refl j) hempty)
    simp only [if_pos hnull]
    refine ⟨hext.trans hadd, .of_name hpart (fun k hk => hadd.grows.mem (hpred k hk)) fun _ => ?_⟩
    exact mem_listAt_add hext.sound.consistent (hext.sound.lt_size hj) _
  · simp only [if_neg hnull]
    exact ⟨hext, .of_name hpart hpred fun hn => absurd (List.contains_iff_mem.mpr hn) hnull⟩

theorem process_text_spec (hc : Sound g input c) {i : Item} (hi : i ∈ c.listAt j) {w : List Char}
    (hpart : (Table.ofGrammar g).part? i.production i.dot = some (.text w)) :
    Extends g input j c (c.process (.ofGrammar g) input j i) ∧
      Closed g input (c.process (.ofGrammar g) input j i) j i := by
  have hj : j ≤ input.size := hc.le_of_mem hi
  rw [process, hpart]
  by_cases hmatch : matchesAt input j input.size w = true
  · obtain ⟨hle, hseg⟩ := (matchesAt_iff hj (Nat.le_refl _)).mp hmatch
    have hw : Grammar.Derives g [Part.symbol (.text w)] (segment input j (j + w.length)) := by
      rw [hseg, Part.symbol, Grammar.derives_terminal_iff, String.toList_ofList]
    have hadv := (hc.derived j i hi).advance hpart (Nat.le_add_right j w.length) hw
    simp only [if_pos hmatch]
    refine ⟨hc.extends_add (Nat.le_add_right j _) hle hadv, .of_text hpart fun _ => ?_⟩
    exact mem_listAt_add hc.consistent (hc.lt_size hle) _
  · simp only [if_neg hmatch]
    exact ⟨hc.extends_refl j, .of_text hpart fun h => absurd h hmatch⟩

theorem process_none_spec (hc : Sound g input c) {i : Item} (hi : i ∈ c.listAt j)
    (hpart : (Table.ofGrammar g).part? i.production i.dot = none) :
    Extends g input j c (c.process (.ofGrammar g) input j i) ∧
      Closed g input (c.process (.ofGrammar g) input j i) j i := by
  have hj : j ≤ input.size := hc.le_of_mem hi
  have hder : i.Derived g input j := hc.derived j i hi
  have hn := hder.complete hpart
  have hext := complete_extends hc hj hder.origin_le hn (capacity (.ofGrammar g) i.origin) 0
  rw [process, hpart]
  refine ⟨hext, .of_none hpart fun ho a ha hwaits => ?_⟩
  have ha' : a ∈ (c.listAt i.origin).filter
      fun a => decide (a.Waits (.ofGrammar g) ((Table.ofGrammar g).lhs i.production)) :=
    List.mem_filter.mpr ⟨hext.grows.eq_of_lt i.origin ho ▸ ha, decide_eq_true hwaits⟩
  obtain ⟨m, hm⟩ := List.getElem?_of_mem ha'
  refine advance_mem_complete hc hj ho hn ?_ (Nat.zero_le m) hm
  rw [Nat.zero_add]
  exact Nat.le_trans (List.length_filter_le _ _) (hc.length_listAt_le i.origin)

/-- Processing an item extends the chart by derived items and closes it. -/
theorem process_spec (hc : Sound g input c) {i : Item} (hi : i ∈ c.listAt j) :
    Extends g input j c (c.process (.ofGrammar g) input j i) ∧
      Closed g input (c.process (.ofGrammar g) input j i) j i := by
  rcases hpart : (Table.ofGrammar g).part? i.production i.dot with - | w | n
  · exact process_none_spec hc hi hpart
  · exact process_text_spec hc hi hpart
  · exact process_name_spec hc hi hpart

end Chart

end Earley

end GrammarInference
