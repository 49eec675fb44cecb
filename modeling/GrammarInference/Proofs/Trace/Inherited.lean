/-
GrammarInference/Proofs/Trace/Inherited.lean

Which read a position keeps that took one over.

Design.  A position takes over the read that the position before it holds at that moment, and is not told when that
read is given up later.  So the repair is followed from stage to stage: what each round finds, with all positions
filled (`stage`), and which position gives its read up then (`givesUp?`).  The invariant (`Inherits`) says of every
position that took over a read when it did so last, and whether the position before it has given that read up since;
one stage keeps it (`Inherits.next`).
-/
import GrammarInference.Proofs.Trace.Work
import GrammarInference.Proofs.Trace.Kept

namespace GrammarInference

namespace Repair

variable {t : Trace} {s f f' : Repair} {b c : Candidate} {cs : List Candidate} {p q k : Nat}

/-! ### Filling -/

/-- The newest read of the position before number `j` in a list of positions behind `previous`. -/
def before (previous : Option Candidate) (l : List (List Candidate)) : Nat → Option Candidate
  | 0 => previous
  | j + 1 => l[j]?.bind List.head?

/-- A position with a read keeps its reads, and one without takes over the read before it. -/
theorem inherit_cases {previous : Option Candidate} {l l' : List (List Candidate)} {ps : List Nat}
    (h : inherit previous p l = some (l', ps)) :
    (∀ q ∈ ps, ∃ j, q = p + j ∧ l[j]? = some []) ∧ ∀ j,
      (∀ c cs, l[j]? = some (c :: cs) → l'[j]? = some (c :: cs)) ∧
        (l[j]? = some [] → ∃ b, before previous l' j = some b ∧ l'[j]? = some [takeOver b]) := by
  induction l generalizing previous p l' ps with
  | nil =>
    cases h
    refine ⟨fun q hq => absurd hq List.not_mem_nil, fun j => ⟨fun c cs hc => ?_, fun hj => ?_⟩⟩
    · cases hc
    · cases hj
  | cons ds rest ih =>
    -- the first position has the read `d` then, and the rest is behind it
    obtain ⟨d, ds', l₁, ps₁, h₁, rfl, hps, hfirst⟩ : ∃ d ds' l₁ ps₁, inherit (some d) (p + 1) rest = some (l₁, ps₁) ∧
        l' = (d :: ds') :: l₁ ∧ (∀ q ∈ ps, (q = p ∧ ds = []) ∨ q ∈ ps₁) ∧
          (ds = d :: ds' ∨ ds = [] ∧ ds' = [] ∧ ∃ b, previous = some b ∧ d = takeOver b) := by
      cases ds with
      | cons d ds =>
        rw [inherit, Option.map_eq_some_iff] at h
        obtain ⟨⟨l₁, ps₁⟩, h₁, heq⟩ := h
        cases heq
        exact ⟨d, ds, l₁, ps, h₁, rfl, fun q hq => .inr hq, .inl rfl⟩
      | nil =>
        cases previous with
        | none => cases h
        | some b =>
          rw [inherit, Option.map_eq_some_iff] at h
          obtain ⟨⟨l₁, ps₁⟩, h₁, heq⟩ := h
          cases heq
          refine ⟨takeOver b, [], l₁, ps₁, h₁, rfl, fun q hq => ?_, .inr ⟨rfl, rfl, b, rfl, rfl⟩⟩
          exact (List.mem_cons.mp hq).imp_left fun hq => ⟨hq, rfl⟩
    obtain ⟨htaken, hrest⟩ := ih h₁
    refine ⟨fun q hq => ?_, fun j => ?_⟩
    · rcases hps q hq with ⟨rfl, rfl⟩ | hq
      · exact ⟨0, rfl, rfl⟩
      · obtain ⟨j, rfl, hj⟩ := htaken q hq
        exact ⟨j + 1, by omega, hj⟩
    · cases j with
      | zero =>
        rcases hfirst with rfl | ⟨rfl, rfl, b, rfl, rfl⟩
        · refine ⟨fun c cs hc => hc, fun hnil => ?_⟩
          cases hnil
        · refine ⟨fun c cs hc => ?_, fun _ => ⟨b, rfl, rfl⟩⟩
          cases hc
      | succ j =>
        refine ⟨(hrest j).1, fun hj => ?_⟩
        obtain ⟨b, hb, hl⟩ := (hrest j).2 hj
        refine ⟨b, ?_, hl⟩
        cases j with
        | zero => exact hb
        | succ j => exact hb

theorem fill_eq_some (h : s.fill = some f) : ∃ l ps, inherit none 0 s.candidates = some (l, ps) ∧
    f = { s with candidates := l, inherited := ps.foldl SortedSet.insert s.inherited } := by
  rw [fill, Option.map_eq_some_iff] at h
  obtain ⟨⟨l, ps⟩, hl, rfl⟩ := h
  exact ⟨l, ps, hl, rfl⟩

theorem fill_kept (h : s.fill = some f) (hc : s.candidates[p]? = some (c :: cs)) :
    f.candidates[p]? = some (c :: cs) := by
  obtain ⟨l, ps, hl, rfl⟩ := fill_eq_some h
  exact ((inherit_cases hl).2 p).1 c cs hc

/-- There is a position before one that takes a read over. -/
theorem fill_taken (h : s.fill = some f) (hq : s.candidates[q]? = some []) : ∃ p b bs, q = p + 1 ∧
    f.candidates[p]? = some (b :: bs) ∧ f.candidates[q]? = some [takeOver b] := by
  obtain ⟨l, ps, hl, rfl⟩ := fill_eq_some h
  obtain ⟨b, hbefore, htaken⟩ := ((inherit_cases hl).2 q).2 hq
  cases q with
  | zero => cases hbefore
  | succ p =>
    obtain ⟨bs, hp, hhead⟩ := Option.bind_eq_some_iff.mp hbefore
    obtain ⟨bs, rfl⟩ := List.head?_eq_some_iff.mp hhead
    exact ⟨p, b, bs, rfl, hp, htaken⟩

theorem mem_inherited_of_fill (h : s.fill = some f) (hq : q ∈ f.inherited) :
    q ∈ s.inherited ∨ s.candidates[q]? = some [] := by
  obtain ⟨l, ps, hl, rfl⟩ := fill_eq_some h
  rcases mem_foldl_insert.mp hq with hq | hq
  · obtain ⟨j, rfl, hj⟩ := (inherit_cases hl).1 q hq
    exact .inr (by rwa [Nat.zero_add])
  · exact .inl hq

theorem popped_fill (h : s.fill = some f) : f.popped = s.popped := by
  obtain ⟨l, ps, -, rfl⟩ := fill_eq_some h
  rfl

theorem getElem?_pop_self (f : Repair) (p : Nat) : (f.pop p).candidates[p]? = f.candidates[p]?.map List.tail :=
  List.getElem?_modify_eq List.tail p f.candidates

theorem getElem?_pop_of_ne (f : Repair) (h : q ≠ p) : (f.pop q).candidates[p]? = f.candidates[p]? :=
  List.getElem?_modify_ne List.tail f.candidates h

/-! ### Stages -/

/-- The chosen orders increase from position to position. -/
def InOrder (f : Repair) : Prop := (longestIncreasing f.orders).length = f.candidates.length

instance (f : Repair) : Decidable f.InOrder := inferInstanceAs (Decidable (_ = _))

/-- The position that gives up its read, unless the orders increase. -/
def givesUp? (f : Repair) : Option Nat := if f.InOrder then none else f.odd (longestIncreasing f.orders)

/-- What round `k` of a repair finds, with all positions filled. -/
def stage (s : Repair) : Nat → Option Repair
  | 0 => s.fill
  | k + 1 => (s.stage k).bind fun f => f.givesUp?.bind fun p => (f.pop p).fill

theorem stage_succ_eq_some (h : s.stage (k + 1) = some f) :
    ∃ g p, s.stage k = some g ∧ g.givesUp? = some p ∧ (g.pop p).fill = some f := by
  obtain ⟨g, hg, hnext⟩ := Option.bind_eq_some_iff.mp h
  obtain ⟨p, hp, hfill⟩ := Option.bind_eq_some_iff.mp hnext
  exact ⟨g, p, hg, hp, hfill⟩

theorem stage_pop (hfill : s.fill = some f) (hp : f.givesUp? = some p) (k : Nat) :
    (f.pop p).stage k = s.stage (k + 1) := by
  induction k with
  | zero => rw [stage, stage, stage, hfill, Option.bind_some, hp, Option.bind_some]
  | succ k ih => rw [stage, ih, ← stage]

/-- A repair ends with a stage that is in order. -/
theorem exists_stage_of_run {rounds left : Nat} (h : s.run rounds left = .ok f) :
    ∃ k, s.stage k = some f ∧ f.InOrder := by
  induction left generalizing s rounds with
  | zero =>
    rw [run] at h
    rcases hfill : s.fill with - | f₁
    · rw [hfill] at h
      cases h
    · simp only [hfill] at h
      split at h
      · rename_i hdone
        cases h
        exact ⟨0, hfill, hdone⟩
      · cases h
  | succ left ih =>
    rw [run] at h
    rcases hfill : s.fill with - | f₁
    · rw [hfill] at h
      cases h
    · simp only [hfill] at h
      split at h
      · rename_i hdone
        cases h
        exact ⟨0, hfill, hdone⟩
      · rename_i hmissed
        rcases hodd : f₁.odd (longestIncreasing f₁.orders) with - | p
        · rw [hodd] at h
          cases h
        · simp only [hodd] at h
          obtain ⟨k, hk, hdone⟩ := ih h
          have hp : f₁.givesUp? = some p := (if_neg hmissed).trans hodd
          exact ⟨k + 1, by rwa [← stage_pop hfill hp], hdone⟩

/-- There are no stages behind one that is in order. -/
theorem stage_eq_none (hk : s.stage k = some f) (hdone : f.InOrder) {i : Nat} (hi : k < i) : s.stage i = none := by
  obtain ⟨j, rfl⟩ := Nat.exists_eq_add_of_le hi
  induction j with
  | zero => rw [Nat.add_zero, stage, hk, Option.bind_some, givesUp?, if_pos hdone, Option.bind_none]
  | succ j ih => rw [← Nat.add_assoc, stage, ih (by omega), Option.bind_none]

theorem Follows.stage (h : Follows t s) (hk : s.stage k = some f) : Follows t f ∧ f.Filled := by
  induction k generalizing f with
  | zero =>
    obtain ⟨f₁, hfill, hf⟩ := h.fill
    obtain rfl : f₁ = f := Option.some.inj (hfill.symm.trans hk)
    exact hf
  | succ k ih =>
    obtain ⟨g, p, hg, hp, hfill⟩ := stage_succ_eq_some hk
    rw [givesUp?] at hp
    split at hp
    · cases hp
    · obtain ⟨f₁, hfill₁, hf⟩ := ((ih hg).1.pop (odd_eq_some hp)).fill
      obtain rfl : f₁ = f := Option.some.inj (hfill₁.symm.trans hfill)
      exact hf

end Repair

/-! ### Giving up and taking over -/

namespace Trace

open Repair

/-- In round `k` position `p` gives up the read `c`. -/
def GivesUp (t : Trace) (k p : Nat) (c : Candidate) : Prop :=
  ∃ f cs, (start t).stage k = some f ∧ f.givesUp? = some p ∧ f.candidates[p]? = some (c :: cs)

/-- Before round `j` position `p + 1` has no read, and takes over the read `b` of position `p`. -/
structure TakesOver (t : Trace) (j p : Nat) (b : Candidate) : Prop where
  /-- It was never read, or has just given up its last read. -/
  unread : (j = 0 ∧ t.readCount (p + 1) = 0) ∨ ∃ i c, j = i + 1 ∧ t.GivesUp i (p + 1) c
  /-- It stands behind the read that position `p` has then. -/
  taken : ∃ f bs, (start t).stage j = some f ∧ f.candidates[p]? = some (b :: bs) ∧
    f.candidates[p + 1]? = some [takeOver b]

/-- From round `j` on position `p` gives nothing up. -/
def KeepsFrom (t : Trace) (j p : Nat) : Prop := ∀ i c, j ≤ i → ¬t.GivesUp i p c

/-- When the orders increase, position `p` has the read `c`. -/
def Settles (t : Trace) (p : Nat) (c : Candidate) : Prop :=
  ∃ k f cs, (start t).stage k = some f ∧ f.InOrder ∧ f.candidates[p]? = some (c :: cs)

/-- What is known in round `k` of a position that took over the read `b` before round `j`: it has kept it, and so has
the position before it, or that one has given it up since. -/
structure Inherits (t : Trace) (k : Nat) (f : Repair) (j p : Nat) (b : Candidate) : Prop where
  /-- It was taken over before. -/
  le : j ≤ k
  /-- It was taken over from the position before. -/
  takesOver : t.TakesOver j p b
  /-- Nothing was given up since. -/
  keeps : ∀ i c, j ≤ i → i < k → ¬t.GivesUp i (p + 1) c
  /-- It is still there. -/
  holds : f.candidates[p + 1]? = some [takeOver b]
  /-- What the position before has done since. -/
  source : ((∃ bs, f.candidates[p]? = some (b :: bs)) ∧ ∀ i c, j ≤ i → i < k → ¬t.GivesUp i p c) ∨
    ∃ i, j ≤ i ∧ i < k ∧ t.GivesUp i p b

variable {t : Trace} {f f' : Repair} {b c : Candidate} {i j k p q : Nat}

/-- In each round only one position gives up a read, its newest one. -/
theorem GivesUp.eq (h : t.GivesUp k p c) (hf : (start t).stage k = some f) :
    f.givesUp? = some p ∧ ∃ cs, f.candidates[p]? = some (c :: cs) := by
  obtain ⟨f₁, cs, hf₁, hp, hc⟩ := h
  obtain rfl : f₁ = f := Option.some.inj (hf₁.symm.trans hf)
  exact ⟨hp, cs, hc⟩

/-- Nothing is given up when the orders increase. -/
theorem GivesUp.lt (h : t.GivesUp i p c) (hk : (start t).stage k = some f) (hdone : f.InOrder) : i < k := by
  by_contra hle
  rcases Nat.eq_or_lt_of_le (Nat.le_of_not_lt hle) with rfl | hlt
  · obtain ⟨hp, -⟩ := h.eq hk
    rw [givesUp?, if_pos hdone] at hp
    cases hp
  · obtain ⟨f₁, cs, hf₁, -⟩ := h
    rw [stage_eq_none hk hdone hlt] at hf₁
    cases hf₁

/-- A position that gave up a read is recorded. -/
theorem GivesUp.mem_popped (h : t.GivesUp i p c) (hk : (start t).stage k = some f) (hi : i < k) : p ∈ f.popped := by
  induction k generalizing f with
  | zero => cases hi
  | succ k ih =>
    obtain ⟨g, q, hg, hq, hfill⟩ := stage_succ_eq_some hk
    rw [popped_fill hfill, pop, SortedSet.mem_insert]
    rcases Nat.lt_succ_iff_lt_or_eq.mp hi with hlt | rfl
    · exact .inr (ih hg hlt)
    · exact .inl (Option.some.inj ((h.eq hg).1.symm.trans hq))

theorem readCount_of_candidates (h : (start t).candidates[p]? = some []) : t.readCount p = 0 := by
  rw [start, List.getElem?_map, Option.map_eq_some_iff] at h
  obtain ⟨r, hr, hnil⟩ := h
  obtain ⟨hlength, -⟩ := t.consistent r (List.mem_of_getElem? hr)
  have hzero := congrArg List.length hnil
  rw [candidatesOf, List.length_reverse, List.length_zipWith, ← hlength, Nat.min_self] at hzero
  rw [readCount, hr]
  exact hzero

/-- A read that has just been taken over. -/
theorem inherits_of_taken {s : Repair} (hk : (start t).stage k = some f) (hfill : s.fill = some f)
    (hq : s.candidates[q]? = some []) (hunread : (k = 0 ∧ t.readCount q = 0) ∨ ∃ i c, k = i + 1 ∧ t.GivesUp i q c) :
    ∃ p j b, q = p + 1 ∧ t.Inherits k f j p b := by
  obtain ⟨p, b, bs, rfl, hp, htaken⟩ := fill_taken hfill hq
  refine ⟨p, k, b, rfl, Nat.le_refl k, ⟨hunread, f, bs, hk, hp, htaken⟩, ?_, htaken, .inl ⟨⟨bs, hp⟩, ?_⟩⟩
  · exact fun i c hle hlt => absurd hle (Nat.not_le_of_lt hlt)
  · exact fun i c hle hlt => absurd hle (Nat.not_le_of_lt hlt)

/-- One more round, in which another position gives up its read. -/
theorem Inherits.next (h : t.Inherits k f j p b) (hk : (start t).stage k = some f) (hq : f.givesUp? = some q)
    (hne : q ≠ p + 1) (hfill : (f.pop q).fill = some f') : t.Inherits (k + 1) f' j p b := by
  have hother : ∀ r, r ≠ q → ∀ c cs, f.candidates[r]? = some (c :: cs) → f'.candidates[r]? = some (c :: cs) := by
    intro r hr c cs hc
    exact fill_kept hfill ((getElem?_pop_of_ne f hr.symm).trans hc)
  have honly : ∀ r, r ≠ q → (∀ i c, j ≤ i → i < k → ¬t.GivesUp i r c) →
      ∀ i c, j ≤ i → i < k + 1 → ¬t.GivesUp i r c := by
    intro r hr hkeeps i c hle hlt hgives
    rcases Nat.lt_succ_iff_lt_or_eq.mp hlt with hlt | rfl
    · exact hkeeps i c hle hlt hgives
    · exact hr (Option.some.inj ((hgives.eq hk).1.symm.trans hq))
  refine ⟨Nat.le_succ_of_le h.le, h.takesOver, honly (p + 1) hne.symm h.keeps, hother (p + 1) hne.symm _ _ h.holds, ?_⟩
  rcases h.source with ⟨⟨bs, hb⟩, hkeeps⟩ | ⟨i, hle, hlt, hgives⟩
  · by_cases hp : p = q
    · -- the position before gives up the read that was taken over
      subst hp
      exact .inr ⟨k, h.le, Nat.lt_succ_self k, f, bs, hk, hq, hb⟩
    · exact .inl ⟨⟨bs, hother p hp b bs hb⟩, honly p hp hkeeps⟩
  · exact .inr ⟨i, hle, Nat.lt_succ_of_lt hlt, hgives⟩

/-- In every round the positions that took over a read have inherited it. -/
theorem inherits_of_stage (ht : t.readsFirst = true) (hk : (start t).stage k = some f) (hq : q ∈ f.inherited) :
    ∃ p j b, q = p + 1 ∧ t.Inherits k f j p b := by
  induction k generalizing f with
  | zero =>
    rcases mem_inherited_of_fill hk hq with hempty | hnone
    · exact absurd hempty (SortedSet.not_mem_empty q)
    · exact inherits_of_taken hk hk hnone (.inl ⟨rfl, readCount_of_candidates hnone⟩)
  | succ k ih =>
    obtain ⟨g, r, hg, hr, hfill⟩ := stage_succ_eq_some hk
    obtain ⟨-, hfilled⟩ := (follows_start ht).stage hg
    by_cases hnone : (g.pop r).candidates[q]? = some []
    · -- only the position that gives up its read has none
      obtain rfl : r = q := by
        by_contra hne
        rw [getElem?_pop_of_ne g hne] at hnone
        exact hfilled q [] hnone rfl
      -- and it had one until then, since every position has one at each stage
      refine inherits_of_taken hk hfill hnone (.inr ?_)
      rw [getElem?_pop_self, Option.map_eq_some_iff] at hnone
      obtain ⟨cs, hcs, -⟩ := hnone
      obtain ⟨c, cs, rfl⟩ := List.exists_cons_of_ne_nil (hfilled r cs hcs)
      exact ⟨k, c, rfl, g, cs, hg, hr, hcs⟩
    · obtain ⟨p, j, b, rfl, hinherits⟩ := ih hg ((mem_inherited_of_fill hfill hq).resolve_right hnone)
      refine ⟨p, j, b, rfl, hinherits.next hg hr (fun he => hnone ?_) hfill⟩
      subst he
      rw [getElem?_pop_self, hinherits.holds]
      rfl

end Trace

/-! ### Ordering -/

/-- Position `p` of an ordered trace shows the read `c`, without an unobserved call if it was repaired. -/
def OrderedTrace.Shows (o : OrderedTrace) (p : Nat) (c : Candidate) : Prop :=
  ∃ a, o.positions[p]? = some a ∧ a.order = c.order ∧
    a.context = if p ∈ o.inherited.toList ∨ p ∈ o.popped.toList then pruneExternal c.context else c.context

namespace Repair

variable {t : Trace} {s : Repair} {c : Candidate} {cs : List Candidate} {p : Nat}

/-- The positions of an ordered trace show the newest reads that are left. -/
theorem Follows.shows (h : Follows t s) (hfilled : s.Filled) (hc : s.candidates[p]? = some (c :: cs)) :
    OrderedTrace.Shows ⟨s.chosen t, s.inherited, s.popped⟩ p c := by
  obtain ⟨r, hr⟩ := h.exists_record hc
  refine ⟨s.keeping p r c, ?_, rfl, rfl⟩
  rw [hfilled.getElem?_chosen, hr, hc]
  rfl

end Repair

/-- **A position that takes over a read keeps the one it took last.**  It ends just behind the read that the position
before it had when it did so.  This is the read that the position before it keeps, unless that one gave up the read
later: then the position stands behind a read that was discarded. -/
theorem inherited_shows_last_taken (t : Trace) (config : OrderConfig) (o : OrderedTrace)
    (hdrop : config.dropTrailingLookahead = false) (ho : orderTrace t config = .ok o) (q : Nat) (hq : q ∈ o.inherited) :
    ∃ p j b, q = p + 1 ∧ t.TakesOver j p b ∧ t.KeepsFrom j q ∧ o.Shows q (Repair.takeOver b) ∧
      (t.KeepsFrom j p ∧ t.Settles p b ∧ o.Shows p b ∨ p ∈ o.popped ∧ ∃ i, j ≤ i ∧ t.GivesUp i p b) := by
  rw [orderTrace] at ho
  split at ho
  · cases ho
  · rename_i hfirst
    rw [Bool.not_eq_true', Bool.not_eq_false] at hfirst
    rcases hrun : (Repair.start t).run 0 (config.maxRounds t.size) with e | s
    · rw [hrun] at ho
      cases ho
    · rw [hrun] at ho
      cases ho
      have hpositions : dropTrailing config OrderedPosition.solutions (s.chosen t) = s.chosen t :=
        if_neg (by rw [hdrop]; exact Bool.false_ne_true)
      rw [hpositions]
      -- nothing is given up from the last stage on, so what holds up to it holds for good
      obtain ⟨k, hk, hdone⟩ := Repair.exists_stage_of_run hrun
      obtain ⟨hfollows, hfilled⟩ := (Repair.follows_start hfirst).stage hk
      obtain ⟨p, j, b, rfl, hinherits⟩ := Trace.inherits_of_stage hfirst hk hq
      refine ⟨p, j, b, rfl, hinherits.takesOver, ?_, hfollows.shows hfilled hinherits.holds, ?_⟩
      · exact fun i c hle hgives => hinherits.keeps i c hle (hgives.lt hk hdone) hgives
      · rcases hinherits.source with ⟨⟨bs, hb⟩, hkeeps⟩ | ⟨i, hle, hlt, hgives⟩
        · refine .inl ⟨?_, ⟨k, s, bs, hk, hdone, hb⟩, hfollows.shows hfilled hb⟩
          exact fun i c hle hgives => hkeeps i c hle (hgives.lt hk hdone) hgives
        · exact .inr ⟨hgives.mem_popped hk hlt, i, hle, hgives⟩

/-- Position 3 was never read, and takes over the read of position 2, which position 2 has to give up later. -/
def staleTrace : Trace where
  positions := [⟨[1, 6], [[], []], [97]⟩, ⟨[], [], [98]⟩, ⟨[5], [[]], [99]⟩, ⟨[], [], [100]⟩, ⟨[4], [[]], [101]⟩,
    ⟨[], [], [102]⟩]
  nonempty := List.cons_ne_nil _ _
  consistent := by simp [PositionRecord.Consistent]
  size_le := by decide

/-- In the end position 2 stands behind read 1, and position 3 still behind read 5. -/
theorem orderTrace_staleTrace : ∃ o, orderTrace staleTrace { dropTrailingLookahead := false } = .ok o ∧
    o.inherited.toList = [1, 2, 3, 4, 5] ∧
    o.positions.map OrderedPosition.order = [⟨1, 0⟩, ⟨1, 1⟩, ⟨1, 2⟩, ⟨5, 1⟩, ⟨5, 2⟩, ⟨5, 3⟩] :=
  ⟨_, rfl, rfl, rfl⟩

theorem inherited_shows_last_taken_staleTrace : ∃ o, orderTrace staleTrace { dropTrailingLookahead := false } = .ok o ∧
    3 ∈ o.inherited ∧ ∃ p j b, 3 = p + 1 ∧ staleTrace.TakesOver j p b ∧ staleTrace.KeepsFrom j 3 ∧
      o.Shows 3 (Repair.takeOver b) ∧ (staleTrace.KeepsFrom j p ∧ staleTrace.Settles p b ∧ o.Shows p b ∨
        p ∈ o.popped ∧ ∃ i, j ≤ i ∧ staleTrace.GivesUp i p b) := by
  obtain ⟨o, ho, hinherited, -⟩ := orderTrace_staleTrace
  have hmem : 3 ∈ o.inherited := by
    show 3 ∈ o.inherited.toList
    rw [hinherited]
    decide
  exact ⟨o, ho, hmem, inherited_shows_last_taken staleTrace { dropTrailingLookahead := false } o rfl ho 3 hmem⟩

/-- Not every position that takes over a read ends just behind the position before it. -/
theorem not_inherited_follows : ¬∀ (t : Trace) (config : OrderConfig) (o : OrderedTrace),
    config.dropTrailingLookahead = false → orderTrace t config = .ok o → ∀ p, p + 1 ∈ o.inherited →
      ∀ a b, o.positions[p]? = some a → o.positions[p + 1]? = some b → b.order = a.order.next := by
  intro h
  obtain ⟨o, ho, hinherited, horders⟩ := orderTrace_staleTrace
  have hmem : 2 + 1 ∈ o.inherited := by
    show 3 ∈ o.inherited.toList
    rw [hinherited]
    decide
  obtain ⟨a, ha, horder⟩ : ∃ a, o.positions[2]? = some a ∧ a.order = ⟨1, 2⟩ :=
    Option.map_eq_some_iff.mp (by rw [← List.getElem?_map, horders]; rfl)
  obtain ⟨b, hb, horder'⟩ : ∃ b, o.positions[3]? = some b ∧ b.order = ⟨5, 1⟩ :=
    Option.map_eq_some_iff.mp (by rw [← List.getElem?_map, horders]; rfl)
  have hfollows := h staleTrace { dropTrailingLookahead := false } o rfl ho 2 hmem a b ha hb
  rw [horder, horder'] at hfollows
  cases hfollows

end GrammarInference
