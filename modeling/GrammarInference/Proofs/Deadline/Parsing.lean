/-
GrammarInference/Proofs/Deadline/Parsing.lean

How long a parse lasts under a deadline that has passed.

Design.  A count of steps `Lasts` for some more steps if none of them is one at which a passed deadline is found.
Each loop takes a number of steps that its result shows: the work on a chart takes one for each of its items, since
every item is processed once (`Chart.build_counted`), and the search for a tree takes one for each question for a fit
(`Search.derive_counted`).  Under any deadline a loop either lasts for that number of steps, and then gives what it
gives without a deadline, or it gives up.

    build t input start d = if it lasts for as many steps as there are items then some c else none
-/
import GrammarInference.Proofs.Earley.Moves
import GrammarInference.Proofs.Earley.Parse

namespace GrammarInference

/-! ### Counts of steps -/

namespace Checkpoint

variable {cp : Checkpoint} {m n : Nat}

/-- The count some steps later. -/
def later (cp : Checkpoint) (n : Nat) : Checkpoint := { cp with steps := cp.steps + n }

/-- None of the next steps is one at which it is found that the deadline has passed. -/
def Lasts (cp : Checkpoint) (n : Nat) : Prop :=
  cp.deadline.hasPassed = true → ∀ k, k < n → (cp.steps + k + 1) % cp.period ≠ 0

instance (cp : Checkpoint) (n : Nat) : Decidable (cp.Lasts n) :=
  inferInstanceAs (Decidable (cp.deadline.hasPassed = true → ∀ k, k < n → (cp.steps + k + 1) % cp.period ≠ 0))

@[simp] theorem later_zero (cp : Checkpoint) : cp.later 0 = cp := rfl

@[simp] theorem lasts_zero (cp : Checkpoint) : cp.Lasts 0 := fun _ k hk => absurd hk (Nat.not_lt_zero k)

theorem later_later (cp : Checkpoint) (m n : Nat) : (cp.later m).later n = cp.later (m + n) := by
  simp only [later, Nat.add_assoc]

/-- Lasting for some steps and then for some more. -/
theorem lasts_add_iff : cp.Lasts (m + n) ↔ cp.Lasts m ∧ (cp.later m).Lasts n := by
  constructor
  · intro h
    refine ⟨fun hd k hk => h hd k (by omega), fun hd k hk => ?_⟩
    have hk' := h hd (m + k) (by omega)
    rwa [← Nat.add_assoc cp.steps] at hk'
  · rintro ⟨hm, hn⟩ hd k hk
    rcases Nat.lt_or_ge k m with hlt | hge
    · exact hm hd k hlt
    · have hk' := hn hd (k - m) (by omega)
      have hsum : cp.steps + m + (k - m) + 1 = cp.steps + k + 1 := by omega
      rwa [later, hsum] at hk'

theorem tick_eq (cp : Checkpoint) : cp.tick = (!decide (cp.Lasts 1), cp.later 1) := by
  refine Prod.ext ?_ rfl
  show (decide ((cp.steps + 1) % cp.period = 0) && cp.deadline.hasPassed) = !decide (cp.Lasts 1)
  by_cases hlook : (cp.steps + 1) % cp.period = 0 <;> cases hd : cp.deadline.hasPassed <;>
    simp [Lasts, hlook, hd]

theorem lasts_of_never (h : cp.deadline = .never) (n : Nat) : cp.Lasts n := by
  intro hd
  rw [h] at hd
  cases hd

/-- A fresh count under a deadline that has passed lasts until the first look. -/
theorem lasts_start_iff {d : Deadline} (hd : d.hasPassed = true) {period : Nat} (hperiod : 0 < period) :
    (start d period).Lasts n ↔ n < period := by
  have hmax : max period 1 = period := Nat.max_eq_left hperiod
  constructor
  · intro h
    by_contra hle
    have hlook : (0 + (period - 1) + 1) % max period 1 ≠ 0 := h hd (period - 1) (by omega)
    have hsum : 0 + (period - 1) + 1 = period := by omega
    rw [hmax, hsum, Nat.mod_self] at hlook
    exact hlook rfl
  · intro hn _ k hk
    rw [start, hmax]
    show (0 + k + 1) % period ≠ 0
    rw [Nat.mod_eq_of_lt (by omega)]
    omega

end Checkpoint

namespace Earley

open Checkpoint (lasts_add_iff tick_eq lasts_of_never)

variable {g : Grammar} {input : Array Char} {start : String}

/-! ### Charts -/

namespace Chart

variable {c : Chart} {j : Nat}

/-- The number of items at the positions before `j`. -/
def countBefore (c : Chart) : Nat → Nat
  | 0 => 0
  | j + 1 => c.countBefore j + (c.listAt j).length

/-- The number of items at all positions. -/
def itemCount (c : Chart) : Nat := c.countBefore c.size

theorem length_listAt_le_itemCount (c : Chart) (j : Nat) : (c.listAt j).length ≤ c.itemCount := by
  have hbefore : ∀ k, j < k → (c.listAt j).length ≤ c.countBefore k := by
    intro k hjk
    induction k with
    | zero => exact absurd hjk (Nat.not_lt_zero j)
    | succ k ih =>
      rw [countBefore]
      rcases Nat.lt_succ_iff_lt_or_eq.mp hjk with hlt | rfl
      · exact Nat.le_trans (ih hlt) (Nat.le_add_right _ _)
      · exact Nat.le_add_left _ _
  by_cases hj : j < c.size
  · exact hbefore c.size hj
  · rw [listAt_of_le (Nat.le_of_not_lt hj)]
    exact Nat.zero_le _

/-- The work on a set takes one step for each item from number `i` on. -/
theorem fillSet_counted {fuel i : Nat} (hc : Sound g input c) (hi : i ≤ (c.listAt j).length)
    (hfuel : capacity (.ofGrammar g) j ≤ i + fuel) :
    ∃ c' n, Extends g input j c c' ∧ (c'.listAt j).length = i + n ∧
      ∀ cp, fillSet (.ofGrammar g) input j fuel i c cp = if cp.Lasts n then some (c', cp.later n) else none := by
  induction fuel generalizing i c with
  | zero =>
    have hlen := hc.length_listAt_le j
    exact ⟨c, 0, hc.extends_refl j, by omega, fun cp => by simp [fillSet]⟩
  | succ fuel ih =>
    rcases hitem : (c.listAt j)[i]? with - | item
    · have hlen := List.getElem?_eq_none_iff.mp hitem
      exact ⟨c, 0, hc.extends_refl j, by omega, fun cp => by simp [fillSet, item?_eq, hitem]⟩
    · obtain ⟨hext, -⟩ := process_spec hc (List.mem_of_getElem? hitem)
      have hlt : i < (c.listAt j).length := (List.getElem?_eq_some_iff.mp hitem).1
      have hgrown := (hext.grows.isPrefix j).length_le
      obtain ⟨c', n, hext', hlen, hfill⟩ := ih (i := i + 1) hext.sound (by omega) (by omega)
      refine ⟨c', 1 + n, hext.trans hext', by omega, fun cp => ?_⟩
      simp only [fillSet, item?_eq, hitem, tick_eq, lasts_add_iff]
      by_cases hone : cp.Lasts 1
      · simp [hone, hfill, Checkpoint.later_later]
      · simp [hone]

/-- The work on all sets from `j` on takes one step for each of their items. -/
theorem fillSets_counted {left : Nat} (hc : Sound g input c) (hleft : j + left = input.size + 1) :
    ∃ c' n, Extends g input j c c' ∧ c'.countBefore (j + left) = c'.countBefore j + n ∧
      ∀ cp, fillSets (.ofGrammar g) input left j c cp = if cp.Lasts n then some c' else none := by
  induction left generalizing j c with
  | zero => exact ⟨c, 0, hc.extends_refl j, rfl, fun cp => by simp [fillSets]⟩
  | succ left ih =>
    obtain ⟨c₁, n₁, hext₁, hlen₁, hfill₁⟩ :=
      fillSet_counted (i := 0) (j := j) hc (Nat.zero_le _) (Nat.le_of_eq (Nat.zero_add _).symm)
    obtain ⟨c₂, n₂, hext₂, hcount₂, hfill₂⟩ := ih (j := j + 1) hext₁.sound (by omega)
    refine ⟨c₂, n₁ + n₂, ⟨hext₂.sound, hext₁.grows.trans (hext₂.grows.of_le (Nat.le_succ j))⟩, ?_, fun cp => ?_⟩
    · -- the set at `j` does not change any more
      have hset : c₂.countBefore (j + 1) = c₂.countBefore j + (c₁.listAt j).length := by
        rw [countBefore, hext₂.grows.eq_of_lt j (Nat.lt_succ_self j)]
      have hsum : j + (left + 1) = j + 1 + left := by omega
      rw [hsum, hcount₂, hset, hlen₁]
      omega
    · simp only [fillSets, hfill₁, lasts_add_iff]
      by_cases hset : cp.Lasts n₁
      · simp [hset, hfill₂]
      · simp [hset]

/-- The chart takes one step for each of its items. -/
theorem build_counted (g : Grammar) (input : Array Char) (start : String) :
    ∃ c, build (.ofGrammar g) input start .never = some c ∧
      ∀ d, build (.ofGrammar g) input start d =
        if (Checkpoint.start d period).Lasts c.itemCount then some c else none := by
  obtain ⟨hext, -⟩ := predict_spec (sound_replicate g input) (Nat.zero_le _) start
  obtain ⟨c, n, hext', hcount, hfill⟩ := fillSets_counted (j := 0) hext.sound (Nat.zero_add _)
  have hsize : c.size = 0 + (input.size + 1) := by
    rw [hext'.grows.size_eq, hext.grows.size_eq, Array.size_replicate, Nat.zero_add]
  have hitems : c.itemCount = n := by
    rw [itemCount, hsize, hcount]
    exact Nat.zero_add n
  refine ⟨c, ?_, fun d => ?_⟩
  · have hlasts : (Checkpoint.start .never period).Lasts n := lasts_of_never rfl n
    rw [build]
    simp only [hfill, if_pos hlasts]
  · rw [build, hitems]
    exact hfill _

end Chart

/-! ### Searches -/

namespace Search

variable {s : Search} {d : Deadline}

/-- The number of questions for fits among some moves. -/
def asks : List Move → Nat
  | [] => 0
  | .ask :: ms => asks ms + 1
  | _ :: ms => asks ms

theorem asks_cons (m : Move) (ms : List Move) : asks (m :: ms) = asks [m] + asks ms := by
  cases m with
  | ask => exact Nat.add_comm _ _
  | _ => exact (Nat.zero_add _).symm

/-- Only questions for fits are counted. -/
theorem Move.checkpoint_play (m : Move) (s : Search) :
    (m.play s).1 = !decide (s.checkpoint.Lasts (asks [m])) ∧
      (m.play s).2.checkpoint = s.checkpoint.later (asks [m]) := by
  cases m with
  | ask =>
    rw [play, tick_eq]
    exact ⟨rfl, rfl⟩
  | fail gap cuts =>
    refine ⟨by simp [play, asks], ?_⟩
    show (s.fail gap cuts).checkpoint = s.checkpoint
    rw [Search.fail]
    split <;> rfl
  | _ => exact ⟨by simp [play, asks], rfl⟩

/-- Moves are broken off exactly if the count of their questions for fits does not last. -/
theorem playAll_counted (ms : List Move) (s : Search) :
    ((playAll ms s).1 = false ↔ s.checkpoint.Lasts (asks ms)) ∧
      (after ms s).checkpoint.steps = s.checkpoint.steps + asks ms := by
  induction ms generalizing s with
  | nil => exact ⟨by simp [playAll, asks], rfl⟩
  | cons m ms ih =>
    obtain ⟨hstop, hcount⟩ := m.checkpoint_play s
    obtain ⟨hrest, hsteps⟩ := ih (m.play s).2
    constructor
    · rw [asks_cons, lasts_add_iff, ← hcount, ← hrest, playAll]
      rcases hm : m.play s with ⟨- | -, s₁⟩
      · rw [hm] at hstop
        simp only [Bool.false_eq, Bool.not_eq_false', decide_eq_true_eq] at hstop
        simp [hstop]
      · rw [hm] at hstop
        simp only [Bool.true_eq, Bool.not_eq_true', decide_eq_false_iff_not] at hstop
        simp [hstop]
    · rw [after_cons, hsteps, hcount, asks_cons m ms, ← Nat.add_assoc]
      rfl

/-- Under a deadline that has passed, a search is broken off exactly if it asks for as many fits as there are steps to
the first look, and else comes to the same answer in the same state. -/
theorem derive_of_hasPassed (ctx : Context) (fuel : Nat) (q : Span) (arena : Arena) (hd : d.hasPassed = true) :
    let r := derive ctx fuel q ⟨arena, [], ∅, 0, .start .never period⟩
    if period ≤ r.2.checkpoint.steps then
      (derive ctx fuel q ⟨arena, [], ∅, 0, .start d period⟩).1 = .interrupted
    else derive ctx fuel q ⟨arena, [], ∅, 0, .start d period⟩ = (r.1, r.2.under d) := by
  obtain ⟨ms, answer, hplay, -⟩ := (isPlayed_derive_and_fit ctx fuel).1 q (.begun arena)
  have hnever := hplay .never
  have hpassed := hplay d
  obtain ⟨-, hsteps⟩ := playAll_counted ms (.begun arena)
  obtain ⟨hlasts, -⟩ := playAll_counted ms ((Search.begun arena).under d)
  have hcount : ((Search.begun arena).under d).checkpoint.Lasts (asks ms) ↔ asks ms < period :=
    Checkpoint.lasts_start_iff hd (by decide)
  have hasks : (after ms (.begun arena)).checkpoint.steps = asks ms := hsteps.trans (Nat.zero_add _)
  rw [hcount] at hlasts
  rw [playAll_never] at hnever
  change derive ctx fuel q ⟨arena, [], ∅, 0, .start .never period⟩ = _ at hnever
  change derive ctx fuel q ⟨arena, [], ∅, 0, .start d period⟩ = _ at hpassed
  rw [hnever, hpassed]
  have hstate : (settle answer (false, after ms (.begun arena))).2 = after ms (.begun arena) := by
    cases answer <;> rfl
  simp only [hstate, hasks]
  by_cases hle : period ≤ asks ms
  · have hstop : (playAll ms ((Search.begun arena).under d)).1 = true := by
      rw [← Bool.not_eq_false, hlasts]
      exact Nat.not_lt_of_le hle
    rw [if_pos hle]
    rcases hms : playAll ms ((Search.begun arena).under d) with ⟨stop, s₁⟩
    rw [hms] at hstop
    obtain rfl : stop = true := hstop
    rfl
  · rw [if_neg hle, playAll_under (hlasts.mpr (Nat.lt_of_not_le hle))]
    cases answer <;> rfl

end Search

/-! ### Recognition and parsing -/

/-- The number of items of the complete chart. -/
def itemCount (t : Table) (start input : String) : Nat :=
  match Chart.build t input.toList.toArray start .never with
  | none => 0
  | some c => c.itemCount

/-- The chart has an item for each alternative of the start nonterminal. -/
theorem length_alternatives_le_itemCount (g : Grammar) (start input : String) (h : (g.alternatives start).Nodup) :
    (g.alternatives start).length ≤ itemCount (.ofGrammar g) start input := by
  obtain ⟨c, hbuild, hfin⟩ := Chart.build_never g input.toList.toArray start
  have hsub : g.alternatives start ⊆ (c.listAt 0).map fun i =>
      (((Table.ofGrammar g).productions[i.production]?).map Production.rule).getD [] := by
    intro r hr
    obtain ⟨k, p, hp, hlhs, hrule⟩ := Table.exists_production hr
    refine List.mem_map.mpr ⟨⟨k, 0, 0⟩, hfin.started k (Table.mem_alternatives_iff.mpr ⟨p, hp, hlhs⟩), ?_⟩
    rw [hp, Option.map_some, Option.getD_some, hrule]
  have hle := (h.subperm hsub).length_le
  rw [List.length_map] at hle
  simp only [itemCount, hbuild]
  exact Nat.le_trans hle (c.length_listAt_le_itemCount 0)

/-- The number of questions for fits that the search for a tree asks without a deadline; there is no search if the
chart does not accept. -/
def fitCount (t : Table) (arena : Arena) (start input : String) : Nat :=
  let chars := input.toList.toArray
  match Chart.build t chars start .never with
  | none => 0
  | some c =>
    if !c.accepts t start chars.size then 0
    else (Search.derive ⟨t, chars, .ofChart t c⟩ (Search.depthBound t chars.size) ⟨0, chars.size, start⟩
      ⟨arena, [], ∅, 0, .start .never Search.period⟩).2.checkpoint.steps

/-- Under a deadline that has passed, recognition times out exactly if the chart has as many items as there are steps
to the first look, and else comes to the same answer. -/
theorem recognizeFrom_of_hasPassed (g : Grammar) (start input : String) {d : Deadline} (hd : d.hasPassed = true) :
    recognizeFrom (.ofGrammar g) start input d =
      if Chart.period ≤ itemCount (.ofGrammar g) start input then .timeout
      else recognizeFrom (.ofGrammar g) start input .never := by
  obtain ⟨c, hnever, hbuild⟩ := Chart.build_counted g input.toList.toArray start
  rw [recognizeFrom, recognizeFrom, itemCount, hnever, hbuild d]
  by_cases hlasts : (Checkpoint.start d Chart.period).Lasts c.itemCount
  · have hlt := (Checkpoint.lasts_start_iff hd (by decide)).mp hlasts
    simp only [if_pos hlasts, if_neg (Nat.not_le_of_lt hlt)]
  · have hge := Nat.le_of_not_lt (mt (Checkpoint.lasts_start_iff hd (by decide)).mpr hlasts)
    simp only [if_neg hlasts, if_pos hge]

/-- Under a deadline that has passed, parsing times out exactly if the chart has as many items, or the search asks
for as many fits, as there are steps to the first look, and else gives the same tree at the same address. -/
theorem parseFrom_of_hasPassed (g : Grammar) (arena : Arena) (start input : String) {d : Deadline}
    (hd : d.hasPassed = true) :
    if Chart.period ≤ itemCount (.ofGrammar g) start input ∨
        Search.period ≤ fitCount (.ofGrammar g) arena start input then
      (parseFrom (.ofGrammar g) arena start input d).1 = .timeout
    else parseFrom (.ofGrammar g) arena start input d = parseFrom (.ofGrammar g) arena start input .never := by
  obtain ⟨c, hnever, hbuild⟩ := Chart.build_counted g input.toList.toArray start
  rw [parseFrom, parseFrom, itemCount, fitCount, hnever, hbuild d]
  by_cases hlasts : (Checkpoint.start d Chart.period).Lasts c.itemCount
  · have hlt := (Checkpoint.lasts_start_iff hd (by decide)).mp hlasts
    simp only [if_pos hlasts, Nat.not_le_of_lt hlt, false_or]
    cases haccepts : c.accepts (.ofGrammar g) start input.toList.toArray.size with
    | false =>
      have hnone : ¬Search.period ≤ 0 := by decide
      simp only [Bool.not_false, if_true, if_neg hnone]
    | true =>
      have hsearch := Search.derive_of_hasPassed ⟨.ofGrammar g, input.toList.toArray, .ofChart (.ofGrammar g) c⟩
        (Search.depthBound (.ofGrammar g) input.toList.toArray.size) ⟨0, input.toList.toArray.size, start⟩ arena hd
      simp only [Bool.not_true, Bool.false_eq_true, if_false]
      generalize Search.derive _ _ _ ⟨arena, [], ∅, 0, .start .never Search.period⟩ = r at hsearch ⊢
      generalize Search.derive _ _ _ ⟨arena, [], ∅, 0, .start d Search.period⟩ = r' at hsearch ⊢
      by_cases hle : Search.period ≤ r.2.checkpoint.steps
      · simp only [if_pos hle] at hsearch ⊢
        obtain ⟨answer, s⟩ := r'
        obtain rfl : answer = .interrupted := hsearch
        rfl
      · simp only [if_neg hle] at hsearch ⊢
        obtain ⟨answer, s⟩ := r
        subst hsearch
        cases answer <;> rfl
  · have hge := Nat.le_of_not_lt (mt (Checkpoint.lasts_start_iff hd (by decide)).mpr hlasts)
    simp only [if_neg hlasts, hge, true_or, if_true]

end Earley

end GrammarInference
