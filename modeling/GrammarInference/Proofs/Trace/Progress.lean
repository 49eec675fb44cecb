/-
GrammarInference/Proofs/Trace/Progress.lean

Ordering a trace ends, unless a position takes over again what it has just given up.

Design.  Every round takes some of the work that is left or changes nothing.  A round that changes nothing is repeated
until the bound on the rounds is reached (`Stuck`); without such a round the work at the beginning, all reads times all
positions, bounds the number of rounds.  The repair stands still only where a position gives up the very read that it
would take over.  If no read belongs to two positions, this is the second position, which has taken over the only read
of the first one, and both stand outside the longest increasing subsequence (`Stuck.atFirst`): what conflicts with a
read that was taken over conflicts with the read before it as well, and among two positions outside the one with the
smaller order goes first, unless it cannot spare its read.
-/
import GrammarInference.Proofs.Trace.Kept
import GrammarInference.Proofs.Trace.Longest
import GrammarInference.Proofs.Trace.Work

namespace GrammarInference

namespace Repair

variable {t : Trace} {s s' f f' : Repair} {l l' : List (List Candidate)} {b : Option Candidate} {p : Nat}

/-! ### Rounds -/

/-- Only the candidates decide which position gives up its read. -/
theorem odd_congr (h : s.candidates = s'.candidates) : s.orders = s'.orders ∧ s.odd = s'.odd := by
  cases s
  cases s'
  cases h
  exact ⟨rfl, rfl⟩

/-- Only the candidates decide what is taken over. -/
theorem fill_congr (h : s.candidates = s'.candidates) (hf : s.fill = some f) (hf' : s'.fill = some f') :
    f.candidates = f'.candidates := by
  rw [fill, Option.map_eq_some_iff] at hf hf'
  obtain ⟨⟨l, ps⟩, hl, rfl⟩ := hf
  obtain ⟨⟨l', ps'⟩, hl', rfl⟩ := hf'
  rw [h, hl'] at hl
  cases hl
  rfl

/-- One round, with the candidates before and after it, both times filled. -/
theorem Follows.round (h : Follows t s) (hround : Round s s') : Follows t s' ∧ ∃ f f' p,
    s.fill = some f ∧ s'.fill = some f' ∧ f.odd (longestIncreasing f.orders) = some p ∧ s' = f.pop p ∧
      Gives f.candidates p f'.candidates := by
  obtain ⟨f, p, hfill, -, hodd, rfl⟩ := hround
  obtain ⟨f₁, hfill₁, hfollows, hfilled⟩ := h.fill
  obtain rfl : f = f₁ := Option.some.inj (hfill.symm.trans hfill₁)
  have hspare := odd_eq_some hodd
  have hpop := hfollows.pop hspare
  obtain ⟨f', hfill', -, -⟩ := hpop.fill
  have hp : p < f.candidates.length := by
    obtain ⟨o, ho, -⟩ := odd_cases hodd
    rw [← hfilled.length_orders]
    exact (List.getElem?_eq_some_iff.mp ho).1
  exact ⟨hpop, f, f', p, hfill, hfill', hodd, rfl, hfilled.gives_of_fill_pop hp hspare hfill'⟩

/-- Where an order is missed, there is another round. -/
theorem Follows.exists_round (h : Follows t s) (hmisses : s.Misses) : ∃ s', Round s s' := by
  obtain ⟨f, hfill, hlength⟩ := hmisses
  obtain ⟨f₁, hfill₁, hfollows, hfilled⟩ := h.fill
  obtain rfl : f = f₁ := Option.some.inj (hfill.symm.trans hfill₁)
  obtain ⟨p, hodd⟩ := Option.isSome_iff_exists.mp
    (isSome_odd (hfollows.one_lt_length hfilled hlength) (longestIncreasing f.orders))
  exact ⟨f.pop p, f, p, hfill, hlength, hodd, rfl⟩

theorem Rounds.append {j k : Nat} {s₁ : Repair} (h : Rounds j s s₁) (h' : Rounds k s₁ s') : Rounds (k + j) s s' := by
  induction h with
  | zero => exact h'
  | succ hround _ ih => exact .succ hround (ih h')

theorem Round.run_zero (h : Round s s') (rounds : Nat) : s.run rounds 0 = .error (.unorderableTrace (rounds + 1)) := by
  obtain ⟨f, p, hfill, hlength, -, -⟩ := h
  rw [Repair.run, hfill]
  exact if_neg hlength

theorem Round.run_succ (h : Round s s') (rounds left : Nat) : s.run rounds (left + 1) = s'.run (rounds + 1) left := by
  obtain ⟨f, p, hfill, hlength, hodd, rfl⟩ := h
  rw [Repair.run, hfill]
  simp only [if_neg hlength, hodd]

/-! ### Standing still -/

/-- The position that is to give up its read holds only what it would take over again. -/
def Stuck (s : Repair) : Prop :=
  ∃ f p b bs, s.fill = some f ∧ (longestIncreasing f.orders).length ≠ f.candidates.length ∧
    f.odd (longestIncreasing f.orders) = some (p + 1) ∧
    f.candidates[p]? = some (b :: bs) ∧ f.candidates[p + 1]? = some [takeOver b]

/-- A position that gives up what it takes over stays as it is. -/
theorem Gives.eq_of_taken {bs : List Candidate} {b : Candidate} (h : Gives l (p + 1) l')
    (hb : l[p]? = some (b :: bs)) (hc : l[p + 1]? = some [takeOver b]) : l' = l := by
  cases h with
  | older hp hl =>
    rw [hl, hp, List.getElem?_append_right (Nat.le_refl _), Nat.sub_self] at hc
    cases hc
  | again hp hl =>
    obtain rfl := Nat.succ.inj hp
    rw [hl, List.getElem?_append_right (Nat.le_refl _), Nat.sub_self] at hb
    rw [hl, List.getElem?_append_right (Nat.le_add_right _ 1), Nat.add_sub_cancel_left] at hc
    cases hb
    cases hc
    exact hl.symm

/-- After a round that stands still, every round stands still. -/
theorem Stuck.next (hs : s.Stuck) (h : Follows t s) :
    ∃ s', Round s s' ∧ s'.Stuck ∧ ∀ s'', Round s' s'' → s''.candidates = s'.candidates := by
  obtain ⟨f, p, b, bs, hfill, hlength, hodd, hb, hc⟩ := hs
  have hround : Round s (f.pop (p + 1)) := ⟨f, p + 1, hfill, hlength, hodd, rfl⟩
  obtain ⟨-, f₁, f', p₁, hfill₁, hfill', hodd₁, -, hgives⟩ := h.round hround
  obtain rfl : f = f₁ := Option.some.inj (hfill.symm.trans hfill₁)
  obtain rfl : p + 1 = p₁ := Option.some.inj (hodd.symm.trans hodd₁)
  have hsame : f'.candidates = f.candidates := hgives.eq_of_taken hb hc
  obtain ⟨horders, hodds⟩ := odd_congr hsame
  refine ⟨f.pop (p + 1), hround, ⟨f', p, b, bs, hfill', ?_, ?_, ?_, ?_⟩, ?_⟩
  · rwa [horders, hsame]
  · rw [horders, hodds, hodd]
  · rw [hsame, hb]
  · rw [hsame, hc]
  · rintro s'' ⟨f₂, p₂, hfill₂, -, hodd₂, rfl⟩
    obtain rfl : f' = f₂ := Option.some.inj (hfill'.symm.trans hfill₂)
    rw [horders, hodds, hodd] at hodd₂
    cases hodd₂
    rw [Repair.pop, Repair.pop, hsame]

/-- A repair that stands still at some time does not end within any number of rounds. -/
theorem Rounds.run_of_stuck {k : Nat} (hrounds : Rounds k s s') (h : Follows t s) (hs : s'.Stuck)
    (rounds left : Nat) : s.run rounds left = .error (.unorderableTrace (rounds + left + 1)) := by
  induction left generalizing s s' k rounds with
  | zero =>
    cases hrounds with
    | zero =>
      obtain ⟨s₁, hround, -⟩ := hs.next h
      exact hround.run_zero rounds
    | succ hround _ => exact hround.run_zero rounds
  | succ left ih =>
    cases hrounds with
    | zero =>
      obtain ⟨s₁, hround, hs₁, -⟩ := hs.next h
      rw [hround.run_succ, ih .zero (h.round hround).1 hs₁]
      congr 2
      omega
    | succ hround hrest =>
      rw [hround.run_succ, ih hrest (h.round hround).1 hs]
      congr 2
      omega

/-! ### Progress -/

/-- Until the repair stands still, every round takes some of the work. -/
theorem Rounds.stuck_or_work_le {k : Nat} (hrounds : Rounds k s s') (h : Follows t s) (hfill : s.fill = some f)
    (hs : Shaped f.candidates) : Follows t s' ∧ ∃ f', s'.fill = some f' ∧ Shaped f'.candidates ∧
      ((∃ j s₁, Rounds j s s₁ ∧ s₁.Stuck) ∨ work f'.candidates + k ≤ work f.candidates) := by
  induction hrounds generalizing f with
  | zero => exact ⟨h, f, hfill, hs, .inr (Nat.le_refl _)⟩
  | @succ k s s₁ s' hround _ ih =>
    obtain ⟨h₁, f₀, f₁, p, hfill₀, hfill₁, hodd, rfl, hgives⟩ := h.round hround
    obtain rfl : f = f₀ := Option.some.inj (hfill.symm.trans hfill₀)
    obtain ⟨h', f', hfill', hs', hstuck | hwork⟩ := ih h₁ hfill₁ (hgives.shaped hs)
    · obtain ⟨j, s₂, hrounds, hs₂⟩ := hstuck
      exact ⟨h', f', hfill', hs', .inl ⟨j + 1, s₂, .succ hround hrounds, hs₂⟩⟩
    · refine ⟨h', f', hfill', hs', ?_⟩
      rcases hgives.eq_or_work_lt hs with ⟨pre, post, b, bs, rfl, hl⟩ | hlt
      · obtain ⟨f₂, p₂, hfill₂, hlength, -⟩ := hround
        obtain rfl : f = f₂ := Option.some.inj (hfill.symm.trans hfill₂)
        refine .inl ⟨0, s, .zero, f, pre.length, b, bs, hfill, hlength, hodd, ?_, ?_⟩
        · rw [hl, List.getElem?_append_right (Nat.le_refl _), Nat.sub_self]
          rfl
        · rw [hl, List.getElem?_append_right (Nat.le_add_right _ 1), Nat.add_sub_cancel_left]
          rfl
      · exact .inr (by omega)

/-- What is filled up first agrees with what it was taken over from. -/
theorem inherit_recorded {ps : List Nat} (hl : ∀ cs ∈ l, ∀ c ∈ cs, c.order.offset = 0)
    (h : inherit b p l = some (l', ps)) :
    Shaped l' ∧ lag b l' = 0 ∧ recordedCount l' = recordedCount l ∧ l'.length = l.length := by
  induction l generalizing b p l' ps with
  | nil =>
    cases h
    exact ⟨nofun, rfl, rfl, rfl⟩
  | cons cs rest ih =>
    obtain ⟨hcs, hrest⟩ := List.forall_mem_cons.mp hl
    cases cs with
    | cons c cs =>
      rw [inherit, Option.map_eq_some_iff] at h
      obtain ⟨⟨l₁, ps₁⟩, h₁, heq⟩ := h
      cases heq
      obtain ⟨hshaped, hlag, hcount, hlength⟩ := ih hrest h₁
      refine ⟨List.forall_mem_cons.mpr ⟨.inr hcs, hshaped⟩, ?_, ?_, by rw [List.length_cons, hlength]; rfl⟩
      · rw [lag, isStale_recorded b (hcs c List.mem_cons_self), List.head?_cons, hlag]
        rfl
      · rw [recordedCount_cons, recordedCount_cons, hcount]
    | nil =>
      cases b with
      | none => cases h
      | some b =>
        rw [inherit, Option.map_eq_some_iff] at h
        obtain ⟨⟨l₁, ps₁⟩, h₁, heq⟩ := h
        cases heq
        obtain ⟨hshaped, hlag, hcount, hlength⟩ := ih hrest h₁
        have hshaped' : Shaped ([takeOver b] :: l₁) := List.forall_mem_cons.mpr ⟨.inl (Nat.le_refl 1), hshaped⟩
        refine ⟨hshaped', ?_, ?_, by rw [List.length_cons, hlength]; rfl⟩
        · show (if isStale (some b) [takeOver b] then l₁.length + 1 else 0) + lag (some (takeOver b)) l₁ = 0
          rw [isStale_takeOver, takeOver, hlag]
          rfl
        · show recordedCount ([takeOver b] :: l₁) = recordedCount ([] :: rest)
          rw [recordedCount_cons, recordedCount_cons, hcount, countP_isRecorded_singleton (offset_takeOver_ne_zero b)]
          rfl

end Repair

namespace Trace

/-- The number of all reads. -/
def totalReads (t : Trace) : Nat := (t.positions.flatMap PositionRecord.readOrders).length

/-- The repair comes to stand still. -/
def GetsStuck (t : Trace) : Prop := ∃ k s, Repair.Rounds k (Repair.start t) s ∧ s.Stuck

/-- The repair returns to candidates that it has had before. -/
def Returns (t : Trace) : Prop :=
  ∃ j k s s', Repair.Rounds j (Repair.start t) s ∧ Repair.Rounds (k + 1) s s' ∧ s'.candidates = s.candidates

/-- No read belongs to two positions. -/
def Unshared (t : Trace) : Prop :=
  t.positions.Pairwise fun r r' => ∀ o ∈ r.readOrders, o ∉ r'.readOrders

instance (t : Trace) : Decidable t.Unshared :=
  inferInstanceAs (Decidable (t.positions.Pairwise fun r r' => ∀ o ∈ r.readOrders, o ∉ r'.readOrders))

/-- No read comes before the first read of the first position. -/
def StartsFirst (t : Trace) : Prop :=
  ∀ r ∈ t.positions.head?, ∀ o ∈ r.readOrders.head?, ∀ r' ∈ t.positions, ∀ o' ∈ r'.readOrders, o ≤ o'

instance (t : Trace) : Decidable t.StartsFirst :=
  inferInstanceAs (Decidable
    (∀ r ∈ t.positions.head?, ∀ o ∈ r.readOrders.head?, ∀ r' ∈ t.positions, ∀ o' ∈ r'.readOrders, o ≤ o'))

/-- Put into order, the trace has one read for every position, and their orders increase; only then is the end of
the input dropped. -/
def OrdersAll (t : Trace) (config : OrderConfig) : Prop :=
  ∃ o kept, orderTrace t config = .ok o ∧ o.positions = dropTrailing config OrderedPosition.solutions kept ∧
    kept.map OrderedPosition.solutions = t.positions.map PositionRecord.values ∧
    kept.Pairwise fun a b => a.order < b.order

theorem Unshared.eq_of_reads {t : Trace} (h : t.Unshared) {p q i j base : Nat} {context context' : CallStack}
    (hp : t.Reads p i base context) (hq : t.Reads q j base context') : p = q := by
  obtain ⟨r, o, hr, ho, rfl, -⟩ := hp
  obtain ⟨r', o', hr', ho', heq, -⟩ := hq
  obtain rfl := UInt64.toNat_inj.mp heq
  obtain ⟨hp, rfl⟩ := List.getElem?_eq_some_iff.mp hr
  obtain ⟨hq, rfl⟩ := List.getElem?_eq_some_iff.mp hr'
  have hpairs := List.pairwise_iff_getElem.mp h
  rcases Nat.lt_trichotomy p q with hlt | heq | hgt
  · exact absurd (List.mem_of_getElem? ho') (hpairs p q hp hq hlt o' (List.mem_of_getElem? ho))
  · exact heq
  · exact absurd (List.mem_of_getElem? ho) (hpairs q p hq hp hgt o' (List.mem_of_getElem? ho'))

theorem StartsFirst.le {t : Trace} (h : t.StartsFirst) {p i base base' : Nat} {context context' : CallStack}
    (hfirst : t.Reads 0 0 base context) (hread : t.Reads p i base' context') : base ≤ base' := by
  obtain ⟨r, o, hr, ho, rfl, -⟩ := hfirst
  obtain ⟨r', o', hr', ho', rfl, -⟩ := hread
  rw [← List.head?_eq_getElem?] at hr ho
  exact UInt64.le_iff_toNat_le.mp (h r hr o ho r' (List.mem_of_getElem? hr') o' (List.mem_of_getElem? ho'))

end Trace

namespace Repair

variable {t : Trace} {s s' f : Repair} {b c : Candidate} {p q : Nat} {o o' : ReadOrder}

theorem recordedCount_start (t : Trace) : recordedCount (start t).candidates = t.totalReads := by
  rw [start, Trace.totalReads]
  have hall := t.consistent
  generalize t.positions = records at hall
  induction records with
  | nil => rfl
  | cons r records ih =>
    obtain ⟨hr, hrecords⟩ := List.forall_mem_cons.mp hall
    have hcount : (candidatesOf r).countP isRecorded = r.readOrders.length := by
      have hlength : (candidatesOf r).length = r.readOrders.length := by
        rw [candidatesOf, List.length_reverse, List.length_zipWith, ← hr.1, Nat.min_self]
      rw [← hlength, List.countP_eq_length]
      intro c hc
      rw [candidatesOf, List.mem_reverse, ← List.map_uncurry_zip_eq_zipWith] at hc
      obtain ⟨-, -, rfl⟩ := List.mem_map.mp hc
      rfl
    simp only at ih
    rw [List.map_cons, recordedCount_cons, ih hrecords, hcount, List.flatMap_cons, List.length_append]

/-- At the beginning the work is all reads times all positions. -/
theorem work_start (h : t.readsFirst = true) : ∃ f, (start t).fill = some f ∧ Shaped f.candidates ∧
    work f.candidates = t.totalReads * t.size := by
  obtain ⟨f, hfill, -, -⟩ := (follows_start h).fill
  have hinherit := hfill
  rw [Repair.fill, Option.map_eq_some_iff] at hinherit
  obtain ⟨⟨l', ps⟩, hl', rfl⟩ := hinherit
  have hrecorded : ∀ cs ∈ (start t).candidates, ∀ c ∈ cs, c.order.offset = 0 := by
    intro cs hcs c hc
    obtain ⟨r, hr, rfl⟩ := List.mem_map.mp hcs
    rw [candidatesOf, List.mem_reverse, ← List.map_uncurry_zip_eq_zipWith] at hc
    obtain ⟨-, -, rfl⟩ := List.mem_map.mp hc
    rfl
  obtain ⟨hshaped, hlag, hcount, hlength⟩ := inherit_recorded hrecorded hl'
  refine ⟨_, hfill, hshaped, ?_⟩
  show work l' = _
  rw [work, hlag, hcount, recordedCount_start, hlength, start, List.length_map]
  rfl

theorem Follows.exists_head (h : Follows t f) (hfilled : f.Filled) (ho : f.orders[p]? = some o) :
    ∃ c cs, f.candidates[p]? = some (c :: cs) ∧ c.order = o ∧ Stems t p c := by
  rw [hfilled.getElem?_orders, Option.bind_eq_some_iff] at ho
  obtain ⟨cs, hcs, ho⟩ := ho
  obtain ⟨c, hhead, rfl⟩ := Option.map_eq_some_iff.mp ho
  obtain ⟨rest, rfl⟩ := List.head?_eq_some_iff.mp hhead
  exact ⟨c, rest, hcs, rfl, h.stems hcs c List.mem_cons_self⟩

theorem Filled.orders_of_head (h : f.Filled) {cs : List Candidate} (hc : f.candidates[p]? = some (c :: cs)) :
    f.orders[p]? = some c.order := by
  rw [h.getElem?_orders, hc]
  rfl

/-- Without shared reads, all positions have different orders. -/
theorem Follows.eq_of_order (h : Follows t f) (hfilled : f.Filled) (hu : t.Unshared)
    (hp : f.orders[p]? = some o) (hq : f.orders[q]? = some o) : p = q := by
  obtain ⟨c, -, -, rfl, i, j, hi, hreads⟩ := h.exists_head hfilled hp
  obtain ⟨c', -, -, heq, i', j', hi', hreads'⟩ := h.exists_head hfilled hq
  rw [heq] at hi' hreads'
  have hsame := hu.eq_of_reads hreads hreads'
  omega

/-- If the first position has a single read left, it is its first one. -/
theorem Follows.first_read (h : Follows t f) (hb : f.candidates[0]? = some [b]) :
    b.order.offset = 0 ∧ t.Reads 0 0 b.order.base b.context := by
  obtain ⟨r, hr⟩ := h.exists_record hb
  have hholds := h.holds 0 [b] r hb hr
  have hinherited : 0 ∉ f.inherited := by
    intro hi
    obtain ⟨hoffset, q, i, hq, -⟩ := hholds.inherited hi b (List.mem_singleton_self b)
    omega
  obtain ⟨k, hk⟩ : ∃ k, [b] = (candidatesOf r).drop k := by
    by_cases hp : 0 ∈ f.popped
    · obtain ⟨k, hk⟩ := hholds.popped hinherited hp
      exact ⟨k + 1, hk⟩
    · exact ⟨0, hholds.untouched hinherited hp⟩
  have hget : (candidatesOf r)[k]? = some b := by
    rw [← List.head?_drop, ← hk]
    rfl
  obtain ⟨hoffset, i, hi, hreads⟩ := reads_of_mem_candidatesOf hr hget
  have hcount : t.readCount 0 = (candidatesOf r).length := by
    obtain ⟨hlength, -⟩ := t.consistent r (List.mem_of_getElem? hr)
    rw [Trace.readCount, hr, candidatesOf, List.length_reverse, List.length_zipWith, ← hlength, Nat.min_self]
    rfl
  have hone := congrArg List.length hk
  rw [List.length_drop, ← hcount, List.length_singleton] at hone
  obtain rfl : i = 0 := by omega
  exact ⟨hoffset, hreads⟩

/-- Between a read and what takes it over there is no other order. -/
theorem eq_takeOver_of_lt (h : b.order < o) (h' : ¬(takeOver b).order < o) : o = (takeOver b).order := by
  have h₁ : b.order.base < o.base ∨ b.order.base = o.base ∧ b.order.offset < o.offset := h
  have h₂ : ¬(b.order.base < o.base ∨ b.order.base = o.base ∧ b.order.offset + 1 < o.offset) := h'
  show o = ⟨b.order.base, b.order.offset + 1⟩
  cases o
  rw [ReadOrder.mk.injEq]
  simp only at h₁ h₂
  omega

/-- The first position has a single read left, the second one has taken it over, and some later position keeps an
earlier read. -/
def StuckAtFirst (s : Repair) : Prop :=
  ∃ f b rest q o, s.fill = some f ∧ f.candidates = [b] :: [takeOver b] :: rest ∧ 1 < q ∧
    f.orders[q]? = some o ∧ o < b.order

/-- What conflicts with a read that was taken over conflicts with the read before it: both stand outside. -/
theorem Follows.not_mem_of_takeOver (h : Follows t f) (hfilled : f.Filled) (hu : t.Unshared)
    (hv : f.orders[p]? = some b.order) (hw : f.orders[p + 1]? = some (takeOver b).order)
    (hout : p + 1 ∉ longestIncreasing f.orders) : p ∉ longestIncreasing f.orders := by
  intro hp
  have hincreases := increasesOn_longestIncreasing f.orders
  obtain ⟨q, w, hq, hqw, ⟨hlt, hnot⟩ | ⟨hgt, hnot⟩⟩ := exists_conflict hw hout
  · rcases Nat.lt_succ_iff_lt_or_eq.mp hlt with hlt | rfl
    · exact hnot (StrictOrder.trans (hincreases q p w b.order hlt hq hp hqw hv) (lt_takeOver b))
    · cases hv.symm.trans hqw
      exact hnot (lt_takeOver b)
  · have hbw := hincreases p q b.order w (Nat.lt_of_succ_lt hgt) hp hq hv hqw
    rw [eq_takeOver_of_lt hbw hnot] at hqw
    exact absurd (h.eq_of_order hfilled hu hw hqw) (Nat.ne_of_lt hgt)

/-- If the first position is outside, then some later one that is not keeps an earlier read. -/
theorem Follows.exists_earlier (h : Follows t f) (hfilled : f.Filled) (hu : t.Unshared) (hv : f.orders[0]? = some o)
    (hout : 0 ∉ longestIncreasing f.orders) :
    ∃ q o', q ∈ longestIncreasing f.orders ∧ 0 < q ∧ f.orders[q]? = some o' ∧ o' < o := by
  obtain ⟨q, w, hq, hqw, ⟨hlt, -⟩ | ⟨hgt, hnot⟩⟩ := exists_conflict hv hout
  · exact absurd hlt (Nat.not_lt_zero q)
  · refine ⟨q, w, hq, hgt, hqw, ?_⟩
    by_contra hwo
    rw [StrictOrder.connex hwo hnot] at hqw
    exact absurd (h.eq_of_order hfilled hu hv hqw) (Nat.ne_of_lt hgt)

/-- If only positions that cannot spare their read are outside, then the smallest later order was not taken over. -/
theorem Follows.not_takeOver_of_smallest (h : Follows t f) (hfilled : f.Filled) (hu : t.Unshared)
    (hlength : (longestIncreasing f.orders).length ≠ f.orders.length) (hv : f.orders[p]? = some b.order)
    (hnone : ∀ q o, f.orders[q]? = some o → q ∉ longestIncreasing f.orders → ¬f.CanSpare q)
    (hmin : ∀ q o, f.orders[q]? = some o → 0 < q → ¬o < (takeOver b).order) : False := by
  -- the first position is outside, and the one before the smallest
  obtain ⟨q, v, hqv, hq⟩ := exists_not_mem_longestIncreasing hlength
  have hspare := hnone q v hqv hq
  obtain rfl : q = 0 := by
    by_contra hpos
    exact hspare (.inl (Nat.pos_of_ne_zero hpos))
  obtain rfl : p = 0 := by
    by_contra hpos
    exact hmin p b.order hv (Nat.pos_of_ne_zero hpos) (lt_takeOver b)
  obtain ⟨r, w, -, hpos, hrw, hlt⟩ := h.exists_earlier hfilled hu hv hq
  exact hmin r w hrw hpos (StrictOrder.trans hlt (lt_takeOver b))

/-- Without shared reads, the repair stands still only at the first two positions. -/
theorem Stuck.atFirst (hs : s.Stuck) (h : Follows t s) (hu : t.Unshared) : s.StuckAtFirst := by
  obtain ⟨f, p, b, bs, hfill, hlength, hodd, hb, hc⟩ := hs
  obtain ⟨f₁, hfill₁, hfollows, hfilled⟩ := h.fill
  obtain rfl : f = f₁ := Option.some.inj (hfill.symm.trans hfill₁)
  have hv := hfilled.orders_of_head hb
  have hw := hfilled.orders_of_head hc
  rw [← hfilled.length_orders] at hlength
  obtain ⟨o, ho, hcases⟩ := odd_cases hodd
  obtain rfl : (takeOver b).order = o := Option.some.inj (hw.symm.trans ho)
  rcases hcases with ⟨hout, -, hmin⟩ | ⟨-, hnone, hmin⟩
  · have hp := hfollows.not_mem_of_takeOver hfilled hu hv hw hout
    -- the order of the position before it is smaller, so that one cannot spare its read
    have hspare : ¬f.CanSpare p := fun hcan => hmin p b.order hv hp hcan (lt_takeOver b)
    rw [CanSpare, hb, not_or, Option.getD_some, List.length_cons] at hspare
    obtain rfl : p = 0 := by omega
    obtain rfl : bs = [] := List.eq_nil_of_length_eq_zero (by omega)
    obtain ⟨rest, hrest⟩ : ∃ rest, f.candidates = [b] :: [takeOver b] :: rest := by
      rcases hcandidates : f.candidates with - | ⟨cs, - | ⟨cs', rest⟩⟩
      · rw [hcandidates] at hb
        cases hb
      · rw [hcandidates] at hc
        cases hc
      · rw [hcandidates] at hb hc
        cases hb
        cases hc
        exact ⟨rest, rfl⟩
    obtain ⟨q, w, hq, hpos, hqw, hlt⟩ := hfollows.exists_earlier hfilled hu hv hp
    refine ⟨f, b, rest, q, w, hfill, hrest, Nat.lt_of_le_of_ne hpos ?_, hqw, hlt⟩
    rintro rfl
    exact hout hq
  · exact (hfollows.not_takeOver_of_smallest hfilled hu hlength hv hnone hmin).elim

/-- A repair that starts with the first read of all does not stand still. -/
theorem StuckAtFirst.not_startsFirst (hs : s.StuckAtFirst) (h : Follows t s) : ¬t.StartsFirst := by
  intro hfirst
  obtain ⟨f, b, rest, q, o, hfill, hcandidates, -, ho, hlt⟩ := hs
  obtain ⟨f₁, hfill₁, hfollows, hfilled⟩ := h.fill
  obtain rfl : f = f₁ := Option.some.inj (hfill.symm.trans hfill₁)
  obtain ⟨hoffset, hreads⟩ := hfollows.first_read (b := b) (by rw [hcandidates]; rfl)
  obtain ⟨c, -, -, rfl, r, i, -, hreads'⟩ := hfollows.exists_head hfilled ho
  have hle := hfirst.le hreads hreads'
  have hbelow : c.order.base < b.order.base ∨ c.order.base = b.order.base ∧ c.order.offset < b.order.offset := hlt
  omega

end Repair

/-! ### Ordering -/

namespace Trace

variable {t : Trace}

/-- The repair stands still exactly if it returns to candidates that it has had. -/
theorem getsStuck_iff_returns (h : t.readsFirst = true) : t.GetsStuck ↔ t.Returns := by
  have hstart := Repair.follows_start h
  obtain ⟨f, hfill, hshaped, -⟩ := Repair.work_start h
  constructor
  · rintro ⟨k, s, hrounds, hs⟩
    have hs' := (hrounds.stuck_or_work_le hstart hfill hshaped).1
    obtain ⟨s₁, hround, hs₁, hsame⟩ := hs.next hs'
    obtain ⟨s₂, hround₂, -⟩ := hs₁.next (hs'.round hround).1
    exact ⟨1 + k, 0, s₁, s₂, hrounds.append (.succ hround .zero), .succ hround₂ .zero, hsame s₂ hround₂⟩
  · rintro ⟨j, k, s, s', hrounds, hmore, hsame⟩
    obtain ⟨hs, f₁, hfill₁, hshaped₁, -⟩ := hrounds.stuck_or_work_le hstart hfill hshaped
    obtain ⟨-, f₂, hfill₂, -, ⟨i, s₂, hrounds₂, hs₂⟩ | hwork⟩ := hmore.stuck_or_work_le hs hfill₁ hshaped₁
    · exact ⟨i + j, s₂, hrounds.append hrounds₂, hs₂⟩
    · rw [Repair.fill_congr hsame hfill₂ hfill₁] at hwork
      omega

/-- A repair that does not stand still ends within as many rounds as there are reads and positions. -/
theorem ordersAll_of_not_getsStuck (h : t.readsFirst = true) (hstuck : ¬t.GetsStuck) (config : OrderConfig)
    (hbound : t.totalReads ≤ config.maxRepairRoundsPerPosition) : t.OrdersAll config := by
  have hstart := Repair.follows_start h
  obtain ⟨f, hfill, hshaped, hwork⟩ := Repair.work_start h
  rcases hstart.run 0 (config.maxRounds t.size) with ⟨s, hok, hfollows, hfilled, hdone⟩ | ⟨-, s, hrounds, hmisses⟩
  · have hrun : orderTrace t config =
        .ok ⟨dropTrailing config OrderedPosition.solutions (s.chosen t), s.inherited, s.popped⟩ := by
      rw [orderTrace, h, hok]
      rfl
    refine ⟨_, s.chosen t, hrun, rfl, hfollows.map_solutions_chosen hfilled, ?_⟩
    rw [← List.pairwise_map (f := OrderedPosition.order) (R := (· < ·)), hfollows.map_order_chosen hfilled]
    exact pairwise_of_length_longestIncreasing (hdone.trans hfilled.length_orders.symm)
  · -- one more round would take more work than there is
    exfalso
    have hs := (hrounds.stuck_or_work_le hstart hfill hshaped).1
    obtain ⟨s', hround⟩ := hs.exists_round hmisses
    obtain ⟨-, f', -, -, ⟨j, s₁, hrounds₁, hs₁⟩ | hless⟩ :=
      (hrounds.append (.succ hround .zero)).stuck_or_work_le hstart hfill hshaped
    · exact hstuck ⟨j, s₁, hrounds₁, hs₁⟩
    · have hmax : t.totalReads * t.size ≤ config.maxRounds t.size :=
        Nat.le_trans (Nat.mul_le_mul_right _ hbound) (Nat.le_max_right 1 _)
      omega

theorem orderTrace_of_getsStuck (h : t.readsFirst = true) (hstuck : t.GetsStuck) (config : OrderConfig) :
    orderTrace t config = .error (.unorderableTrace (config.maxRounds t.size + 1)) := by
  obtain ⟨k, s, hrounds, hs⟩ := hstuck
  have hrun := hrounds.run_of_stuck (Repair.follows_start h) hs 0 (config.maxRounds t.size)
  rw [orderTrace, h, hrun, Nat.zero_add]
  rfl

end Trace

/-- **Ordering ends unless it stands still.**  A trace whose first position has a read is put into order over all
positions, with as many rounds for each position as there are reads, or the repair comes to a round that changes
nothing, and then no number of rounds is enough.  Otherwise it never returns to candidates that it has had.  If no
read belongs to two positions, it stands still only where the second position takes over the only read that is left
of the first one and some later position was read before; so it ends if the first read of all is one of the first
position. -/
theorem orderTrace_ends_unless_stuck (t : Trace) (h : t.readsFirst = true) :
    (¬t.GetsStuck → ∀ config : OrderConfig, t.totalReads ≤ config.maxRepairRoundsPerPosition → t.OrdersAll config) ∧
    (t.GetsStuck → ∀ config : OrderConfig,
      orderTrace t config = .error (.unorderableTrace (config.maxRounds t.size + 1))) ∧
    (t.GetsStuck ↔ t.Returns) ∧
    (t.Unshared → (∀ k s, Repair.Rounds k (Repair.start t) s → s.Stuck → s.StuckAtFirst) ∧
      (t.StartsFirst → ¬t.GetsStuck)) := by
  have hstart := Repair.follows_start h
  have hfollows : ∀ k s, Repair.Rounds k (Repair.start t) s → Repair.Follows t s := by
    obtain ⟨f, hfill, hshaped, -⟩ := Repair.work_start h
    exact fun k s hrounds => (hrounds.stuck_or_work_le hstart hfill hshaped).1
  refine ⟨Trace.ordersAll_of_not_getsStuck h, Trace.orderTrace_of_getsStuck h, Trace.getsStuck_iff_returns h,
    fun hu => ⟨fun k s hrounds hs => hs.atFirst (hfollows k s hrounds) hu, ?_⟩⟩
  rintro hfirst ⟨k, s, hrounds, hs⟩
  exact (hs.atFirst (hfollows k s hrounds) hu).not_startsFirst (hfollows k s hrounds) hfirst

/-- In the trace of `rereadTrace` the first read of all is one of the first position, so it is put into order. -/
theorem orderTrace_ends_rereadTrace : rereadTrace.readsFirst = true ∧ rereadTrace.Unshared ∧
    rereadTrace.StartsFirst ∧ rereadTrace.OrdersAll {} ∧ ¬rereadTrace.Returns := by
  obtain ⟨hends, -, hreturns, hunshared⟩ := orderTrace_ends_unless_stuck rereadTrace rfl
  have hfree : rereadTrace.Unshared := by simp [Trace.Unshared, rereadTrace]
  have hfirst : rereadTrace.StartsFirst := by simp [Trace.StartsFirst, rereadTrace]
  have hstuck := (hunshared hfree).2 hfirst
  exact ⟨rfl, hfree, hfirst, hends hstuck {} (by decide), mt hreturns.mpr hstuck⟩

/-- The first position was read after the last two, and the second one never. -/
def lateTrace : Trace where
  positions := [⟨[10], [[]], [97]⟩, ⟨[], [], [98]⟩, ⟨[5], [[]], [99]⟩, ⟨[6], [[]], [100]⟩]
  nonempty := List.cons_ne_nil _ _
  consistent := by simp [PositionRecord.Consistent]
  size_le := by decide

/-- The second position takes over the read of the first one, gives it up, and takes it over again: no bound on the
rounds is large enough. -/
theorem orderTrace_lateTrace : lateTrace.readsFirst = true ∧ lateTrace.Returns ∧
    ∀ config : OrderConfig, orderTrace lateTrace config = .error (.unorderableTrace (config.maxRounds 4 + 1)) := by
  have hstuck : lateTrace.GetsStuck :=
    ⟨0, _, .zero, _, 0, ⟨⟨10, 0⟩, []⟩, [], rfl, by decide, by decide, rfl, rfl⟩
  exact ⟨rfl, (Trace.getsStuck_iff_returns rfl).mp hstuck, Trace.orderTrace_of_getsStuck rfl hstuck⟩

end GrammarInference
