/-
GrammarInference/Proofs/Trace/Patience.lean

The best chains need not be stored: their ends and one link for each position are enough.

Design.  Of each best chain only the position of its end is kept (`Piles.tops`), and for each position the end of the
chain that its value was put behind (`Piles.links`).  The ends are looked through by bisection, since their values
increase, and one of them is written over when a value comes in its place.  The links of the values before stay as
they are, so whatever chain a link was made for can still be read off, and from the end of a best chain it is that
chain (`Deals`).  In the end the links from the last end lead through the positions that are found.
-/
import GrammarInference.Proofs.Trace.Longest

namespace GrammarInference

/-! ### Bisection -/

/-- Looks by bisection for the first number of an interval that is not `low`. -/
def bisect (low : Nat → Bool) (lo hi : Nat) : Nat :=
  if lo < hi then
    let mid := (lo + hi) / 2
    if low mid then bisect low (mid + 1) hi else bisect low lo mid
  else lo
termination_by hi - lo

/-- Where the low numbers stand before the others, bisection finds where they end. -/
theorem bisect_eq {low : Nat → Bool} {lo hi k : Nat} (hlo : lo ≤ k) (hhi : k ≤ hi)
    (hlow : ∀ m < k, low m = true) (hnot : ∀ m, k ≤ m → m < hi → low m = false) : bisect low lo hi = k := by
  fun_induction bisect low lo hi with
  | case1 lo hi hlt mid hmid ih =>
    refine ih (Nat.succ_le_of_lt (Nat.lt_of_not_le fun hk => ?_)) hhi hnot
    rw [hnot mid hk (by omega)] at hmid
    cases hmid
  | case2 lo hi hlt mid hmid ih =>
    have hk : k ≤ mid := Nat.le_of_not_lt fun hk => hmid (hlow mid hk)
    exact ih hlo hk fun m hm hlt => hnot m hm (by omega)
  | case3 lo hi hge => omega

/-! ### Links -/

/-- The positions that the links lead through from a position, if they end within a number of steps. -/
def follow (links : List (Option Nat)) : Nat → Option Nat → Option (List Nat)
  | _, none => some []
  | 0, some _ => none
  | steps + 1, some i => do
    let next ← links[i]?
    let positions ← follow links steps next
    return i :: positions

variable {links : List (Option Nat)} {steps i : Nat} {cursor next : Option Nat} {ps : List Nat}

theorem follow_cons (hi : links[i]? = some next) (h : follow links steps next = some ps) :
    follow links (steps + 1) (some i) = some (i :: ps) := by
  rw [follow, hi, Option.bind_eq_bind, Option.bind_some, h]
  rfl

theorem follow_cons_inv (h : follow links (steps + 1) (some i) = some ps) :
    ∃ next rest, links[i]? = some next ∧ follow links steps next = some rest ∧ ps = i :: rest := by
  obtain ⟨next, hi, h⟩ := Option.bind_eq_some_iff.mp h
  obtain ⟨rest, hrest, heq⟩ := Option.bind_eq_some_iff.mp h
  exact ⟨next, rest, hi, hrest, (Option.some.inj heq).symm⟩

/-- Following links does not need to know how many there are. -/
theorem follow_mono {more : Nat} (h : follow links steps cursor = some ps) (hle : steps ≤ more) :
    follow links more cursor = some ps := by
  induction more generalizing steps cursor ps with
  | zero =>
    obtain rfl := Nat.le_zero.mp hle
    exact h
  | succ more ih =>
    cases cursor with
    | none => cases steps <;> exact h
    | some i =>
      cases steps with
      | zero => cases h
      | succ steps =>
        obtain ⟨next, rest, hi, hrest, rfl⟩ := follow_cons_inv h
        exact follow_cons hi (ih hrest (Nat.le_of_succ_le_succ hle))

/-- A link that is not come by may be changed. -/
theorem follow_set {j : Nat} {x : Option Nat} (h : follow links steps cursor = some ps) (hj : j ∉ ps) :
    follow (links.set j x) steps cursor = some ps := by
  induction steps generalizing cursor ps with
  | zero =>
    cases cursor with
    | none => exact h
    | some i => cases h
  | succ steps ih =>
    cases cursor with
    | none => exact h
    | some i =>
      obtain ⟨next, rest, hi, hrest, rfl⟩ := follow_cons_inv h
      obtain ⟨hji, hj⟩ := not_or.mp (mt List.mem_cons.mpr hj)
      refine follow_cons ?_ (ih hrest hj)
      rw [List.getElem?_set_ne hji, hi]

/-! ### Piles -/

variable {α : Type} [LT α]

/-- The position at which a chain ends, or none of the empty one. -/
def Chain.top (c : Chain α) : Option Nat := c.head?.map Prod.fst

/-- What is kept of the best chains. -/
structure Piles where
  /-- The positions at which they end, shortest chain first. -/
  tops : List Nat
  /-- For each position, the end of the chain that its value was put behind. -/
  links : List (Option Nat)

variable [DecidableLT α]

/-- The number of chains that end below a value. -/
def Piles.place (values : List α) (p : Piles) (v : α) : Nat :=
  bisect (fun m => (p.tops[m]?.bind (values[·]?)).any fun u => decide (u < v)) 0 p.tops.length

/-- Puts the value at a position behind the longest chain that ends below it. -/
def Piles.put (values : List α) (p : Piles) (v : α) (i : Nat) : Piles :=
  let k := p.place values v
  { tops := if k = p.tops.length then p.tops ++ [i] else p.tops.set k i
    links := if k = 0 then p.links else p.links.set i p.tops[k - 1]? }

/-- Puts all values down one after another. -/
def deal (values : List α) : Piles :=
  values.zipIdx.foldl (fun p (v, i) => p.put values v i) ⟨[], List.replicate values.length none⟩

/-- The positions that the links lead through from the end of the longest chain, first position first. -/
def patience (values : List α) : Option (List Nat) :=
  (follow (deal values).links values.length (deal values).tops.getLast?).map List.reverse

/-- The piles stand for the best chains of the values that were put down. -/
structure Deals (values done : List α) (p : Piles) : Prop where
  /-- The ends are those of the chains. -/
  tops : p.tops.map some = (bestChains done.zipIdx).map Chain.top
  /-- The links from an end lead through the positions of its chain. -/
  links : ∀ c ∈ bestChains done.zipIdx, follow p.links c.length c.top = some (c.map Prod.fst)
  /-- What was not put down has no link yet. -/
  unlinked : ∀ j, done.length ≤ j → j < values.length → p.links[j]? = some none
  /-- There is room for all links. -/
  length_links : p.links.length = values.length

variable {values done rest : List α} {p : Piles} {v : α}

theorem Deals.length_tops (h : Deals values done p) : p.tops.length = (bestChains done.zipIdx).length := by
  have hlength := congrArg List.length h.tops
  rwa [List.length_map, List.length_map] at hlength

theorem Deals.getElem?_tops (h : Deals values done p) {m : Nat} {c : Chain α}
    (hc : (bestChains done.zipIdx)[m]? = some c) : p.tops[m]? = c.top := by
  have hm := congrArg (·[m]?) h.tops
  simp only [List.getElem?_map, hc, Option.map_some] at hm
  obtain ⟨i, hi, heq⟩ := Option.map_eq_some_iff.mp hm
  rw [hi, heq]

/-- The value at an end is what its chain ends in. -/
theorem Deals.endsBelow_eq [StrictOrder α] (h : Deals values done p) (hvalues : values = done ++ rest) {m : Nat}
    {c : Chain α} (hc : (bestChains done.zipIdx)[m]? = some c) :
    (p.tops[m]?.bind (values[·]?)).any (fun u => decide (u < v)) = c.endsBelow v := by
  have hbest := isBest_bestChains done.zipIdx
  rw [h.getElem?_tops hc]
  cases c with
  | nil => cases hbest.length_eq m [] hc
  | cons a c =>
    have ha := (hbest.runs _ (List.mem_of_getElem? hc)).getElem?_of_mem List.mem_cons_self
    have hlt := (List.getElem?_eq_some_iff.mp ha).1
    have hvalue : values[a.1]? = some a.2 := by rw [hvalues, List.getElem?_append_left hlt, ha]
    change (values[a.1]?).any (fun u => decide (u < v)) = decide (a.2 < v)
    rw [hvalue]
    rfl

/-- By bisection a value finds the same place as by looking at one chain after another. -/
theorem Deals.place_eq [StrictOrder α] (h : Deals values done p) (hvalues : values = done ++ rest) {k : Nat}
    (hk : k ≤ (bestChains done.zipIdx).length)
    (hbelow : ∀ m c, m < k → (bestChains done.zipIdx)[m]? = some c → c.endsBelow v = true)
    (hrest : ∀ c, (bestChains done.zipIdx)[k]? = some c → c.endsBelow v = false) : p.place values v = k := by
  rw [Piles.place, h.length_tops]
  refine bisect_eq (Nat.zero_le k) hk (fun m hm => ?_) fun m hkm hm => ?_
  · have hc := List.getElem?_eq_getElem (Nat.lt_of_lt_of_le hm hk)
    rw [h.endsBelow_eq hvalues hc]
    exact hbelow m _ hm hc
  · have hc := List.getElem?_eq_getElem hm
    rw [h.endsBelow_eq hvalues hc]
    -- otherwise the chain at the place, which is shorter, would end below the value too
    by_contra hends
    rw [Bool.not_eq_false] at hends
    obtain ⟨j, rfl⟩ := Nat.exists_eq_add_of_le hkm
    obtain ⟨b, hb, hbv⟩ := (isBest_bestChains done.zipIdx).endsBelow_of_le hc hends
    rw [hrest b hb] at hbv
    cases hbv

theorem Piles.getElem?_tops_put {i : Nat} (hplace : p.place values v ≤ p.tops.length) (m : Nat) :
    (p.put values v i).tops[m]? = if m = p.place values v then some i else p.tops[m]? := by
  simp only [Piles.put]
  grind

/-- The new link leads to the end of the chain that the value is put behind. -/
theorem Deals.links_put (h : Deals values done p) (hroom : done.length < values.length) {last : Chain α}
    (hlast : ([] :: bestChains done.zipIdx)[p.place values v]? = some last) :
    (p.put values v done.length).links = p.links.set done.length last.top := by
  simp only [Piles.put]
  cases hk : p.place values v with
  | zero =>
    rw [hk] at hlast
    cases hlast
    obtain ⟨hlt, hnone⟩ := List.getElem?_eq_some_iff.mp (h.unlinked done.length (Nat.le_refl _) hroom)
    change p.links = p.links.set done.length none
    rw [← hnone, List.set_getElem_self]
  | succ k =>
    rw [hk] at hlast
    rw [if_neg (Nat.succ_ne_zero k), Nat.add_sub_cancel, h.getElem?_tops hlast]

/-- The links that were made before lead where they led. -/
theorem Deals.follow_set [StrictOrder α] (h : Deals values done p) {c : Chain α} (hc : c ∈ bestChains done.zipIdx)
    (x : Option Nat) : follow (p.links.set done.length x) c.length c.top = some (c.map Prod.fst) := by
  refine GrammarInference.follow_set (h.links c hc) fun hmem => ?_
  obtain ⟨a, ha, heq⟩ := List.mem_map.mp hmem
  have hrun := isRun_of_mem_bestChains _ c hc
  exact absurd heq (Nat.ne_of_lt (List.getElem?_eq_some_iff.mp (hrun.getElem?_of_mem ha)).1)

/-- One more value keeps the piles in step with the chains. -/
theorem Deals.put [StrictOrder α] (h : Deals values done p) (hvalues : values = done ++ v :: rest) :
    Deals values (done ++ [v]) (p.put values v done.length) := by
  obtain ⟨k, last, hbelow, hk, hrest, hlast, hget⟩ :=
    getElem?_extendChains done.length v [] (bestChains done.zipIdx)
  rw [← bestChains_concat] at hget
  obtain rfl := h.place_eq hvalues hk hbelow hrest
  have hroom : done.length < values.length := by
    rw [hvalues, List.length_append]
    exact Nat.lt_add_of_pos_right (Nat.succ_pos rest.length)
  have hlinks := h.links_put hroom hlast
  refine ⟨List.ext_getElem? fun m => ?_, fun c hc => ?_, fun j hj hlt => ?_, ?_⟩
  · rw [List.getElem?_map, List.getElem?_map, Piles.getElem?_tops_put (h.length_tops ▸ hk), hget]
    split
    · rfl
    · rw [← List.getElem?_map, ← List.getElem?_map, h.tops]
  · obtain ⟨m, hm⟩ := List.getElem?_of_mem hc
    rw [hget] at hm
    rw [hlinks]
    split at hm
    · cases hm
      refine follow_cons (List.getElem?_set_self (h.length_links ▸ hroom)) ?_
      rcases List.mem_cons.mp (List.mem_of_getElem? hlast) with rfl | hmem
      · rfl
      · exact h.follow_set hmem _
    · exact h.follow_set (List.mem_of_getElem? hm) _
  · rw [List.length_append, List.length_singleton] at hj
    rw [hlinks, List.getElem?_set_ne (Nat.ne_of_lt hj)]
    exact h.unlinked j (Nat.le_of_lt hj) hlt
  · rw [hlinks, List.length_set, h.length_links]

theorem deals_deal [StrictOrder α] (values : List α) : Deals values values (deal values) := by
  have hfold : ∀ (rest done : List α) (p : Piles), values = done ++ rest → Deals values done p →
      Deals values values ((rest.zipIdx done.length).foldl (fun p (v, i) => p.put values v i) p) := by
    intro rest
    induction rest with
    | nil =>
      intro done p hvalues h
      rw [List.append_nil] at hvalues
      rwa [← hvalues] at h
    | cons v rest ih =>
      intro done p hvalues h
      have hnext := ih (done ++ [v]) _ (by rw [hvalues, List.append_assoc]; rfl) (h.put hvalues)
      rwa [List.length_append, List.length_singleton] at hnext
  refine hfold values [] _ rfl ⟨rfl, nofun, fun j _ hj => ?_, List.length_replicate⟩
  rw [List.getElem?_replicate, if_pos hj]

/-- **The links are enough.**  They end, and they lead through the positions that the best chains have. -/
theorem patience_eq [StrictOrder α] (values : List α) : patience values = some (longestIncreasing values) := by
  have h := deals_deal values
  rw [patience, longestIncreasing]
  rcases hlast : (bestChains values.zipIdx).getLast? with - | c
  · have hnil := h.length_tops
    rw [List.getLast?_eq_none_iff.mp hlast] at hnil
    rw [List.eq_nil_of_length_eq_zero hnil]
    cases values.length <;> rfl
  · have hc := List.mem_of_getLast? hlast
    have hsteps : c.length ≤ values.length := by
      have hle := (isRun_of_mem_bestChains _ c hc).sublist.length_le
      rwa [List.length_reverse, List.length_map, List.length_zipIdx] at hle
    have htop : (deal values).tops.getLast? = c.top := by
      rw [List.getLast?_eq_getElem?] at hlast ⊢
      rw [h.length_tops, h.getElem?_tops hlast]
    rw [htop, follow_mono (h.links c hc) hsteps]
    rfl

end GrammarInference
