/-
GrammarInference/Proofs/Grammar/Discovery.lean

Which names a search finds, and in which order.

Design.  A name is reached from the start symbol by a number of references, through defined names only (`ReachedBy`).
A breadth-first list has every name that can be reached, each one once, in the order in which they are first mentioned
when the list itself is read from its beginning, so that nearer names come first (`BreadthFirst`).  One visit keeps
this for the names that were visited and those that wait (`Searching.visit`): what a visit adds is one reference
farther than the name that is visited, and so are at most those that wait.  When no name waits any more, the list is
complete.  Pruning keeps the definitions on the list, from which the same names can be reached as before.
-/
import GrammarInference.Proofs.Grammar.Merging

namespace GrammarInference

namespace Grammar

variable {g : Grammar} {start n m : String} {visited queue : List String}

/-! ### Reaching a name -/

/-- `ReachedBy g start k n`: the name `n` is reached from `start` by `k` references, all of them to defined names. -/
inductive ReachedBy (g : Grammar) (start : String) : Nat → String → Prop
  | start : g.contains start = true → ReachedBy g start 0 start
  | mention {k : Nat} {n m : String} : ReachedBy g start k n → m ∈ g.mentions n → g.contains m = true →
      ReachedBy g start (k + 1) m

/-- The name can be reached from `start`. -/
def IsReachable (g : Grammar) (start n : String) : Prop := ∃ k, ReachedBy g start k n

/-- As many references as lead to `b`, or fewer, lead to `a`. -/
def IsNearer (g : Grammar) (start a b : String) : Prop := ∀ k, ReachedBy g start k b → ∃ j ≤ k, ReachedBy g start j a

/-- The defined names that the alternatives of `n` mention, in order. -/
def definedMentions (g : Grammar) (n : String) : List String := (g.mentions n).filter fun m => g.contains m

theorem IsNearer.refl (n : String) : IsNearer g start n n := fun k h => ⟨k, Nat.le_refl k, h⟩

/-- The list has the names that can be reached, in the order of their discovery. -/
structure BreadthFirst (g : Grammar) (start : String) (l : List String) : Prop where
  /-- No name occurs twice. -/
  nodup : l.Nodup
  /-- The names are those that can be reached. -/
  mem_iff : ∀ n, n ∈ l ↔ IsReachable g start n
  /-- The names stand in the order of their first mentions in the alternatives of the names of the list. -/
  discovery : g.contains start = true → l = distinct (start :: l.flatMap g.definedMentions)
  /-- Nearer names come first. -/
  nearer : l.Pairwise (IsNearer g start)

/-! ### The search -/

/-- What holds of the names that were visited and of those that wait for their visit, in this order. -/
structure Searching (g : Grammar) (start : String) (visited queue : List String) : Prop where
  /-- No name occurs twice, and what a visited name mentions was found. -/
  exploring : Exploring g visited queue
  /-- The names were found in the order of their first mentions. -/
  found : visited ++ queue = distinct (start :: visited.flatMap g.definedMentions)
  /-- The names can be reached. -/
  reachable : ∀ n ∈ visited ++ queue, IsReachable g start n
  /-- Nearer names were found first. -/
  nearer : (visited ++ queue).Pairwise (IsNearer g start)
  /-- The names that wait are at most one reference farther than the first of them. -/
  close : ∀ n ∈ queue.head?, ∀ m ∈ queue, ∀ k, ReachedBy g start k n → ∃ j ≤ k + 1, ReachedBy g start j m

theorem searching_start (h : g.contains start = true) : Searching g start [] [start] where
  exploring := exploring_start h
  found := rfl
  reachable := List.forall_mem_singleton.mpr ⟨0, .start h⟩
  nearer := List.pairwise_singleton _ start
  close := by
    intro n hn m hm k hk
    obtain rfl : start = n := Option.some.inj hn
    obtain rfl := List.mem_singleton.mp hm
    exact ⟨k, Nat.le_succ k, hk⟩

theorem Searching.mem_found_iff (h : Searching g start visited queue) :
    m ∈ visited ++ queue ↔ m ∈ start :: visited.flatMap g.definedMentions := by
  rw [h.found, mem_distinct]

/-- A name that was not found is farther than the name that is visited next. -/
theorem Searching.exists_lt {k : Nat} (h : Searching g start visited (n :: queue)) (hm : ReachedBy g start k m)
    (hno : m ∉ visited ++ n :: queue) : ∃ j < k, ReachedBy g start j n := by
  induction hm with
  | start => exact absurd (h.mem_found_iff.mpr List.mem_cons_self) hno
  | @mention k p m hp hmention hdef ih =>
    by_cases hfound : p ∈ visited ++ n :: queue
    · rcases List.mem_append.mp hfound with hvisited | hqueue
      · exact absurd (h.exploring.closed p hvisited m hmention hdef) hno
      · -- the name that mentions it waits, and is not nearer than the first that waits
        rcases List.mem_cons.mp hqueue with rfl | hqueue
        · exact ⟨k, Nat.lt_succ_self k, hp⟩
        · have hnearer : IsNearer g start n p :=
            (List.pairwise_cons.mp (List.pairwise_append.mp h.nearer).2.1).1 p hqueue
          obtain ⟨j, hj, hn⟩ := hnearer k hp
          exact ⟨j, Nat.lt_succ_of_le hj, hn⟩
    · obtain ⟨j, hj, hn⟩ := ih hfound
      exact ⟨j, Nat.lt_succ_of_lt hj, hn⟩

/-- What a visit finds was not found before, and is mentioned by the name that is visited. -/
theorem Searching.found_visit (h : Searching g start visited (n :: queue)) :
    (visited ++ n :: queue) ++ g.freshMentions (visited ++ n :: queue) n =
      distinct (start :: (visited ++ [n]).flatMap g.definedMentions) := by
  rw [List.flatMap_append, List.flatMap_singleton, ← List.cons_append, distinct_append, ← h.found, freshMentions,
    definedMentions, List.filter_filter]
  congr 2
  refine List.filter_congr fun m _ => ?_
  have hiff := h.mem_found_iff (m := m)
  by_cases hm : m ∈ visited ++ n :: queue
  · simp [hm, hiff.mp hm]
  · simp [hm, mt hiff.mpr hm]

/-- One visit keeps the names in the order of their discovery. -/
theorem Searching.visit (h : Searching g start visited (n :: queue)) :
    Searching g start (visited ++ [n]) (queue ++ g.freshMentions (visited ++ n :: queue) n) := by
  let fresh := g.freshMentions (visited ++ n :: queue) n
  have hassoc : (visited ++ [n]) ++ (queue ++ fresh) = (visited ++ n :: queue) ++ fresh := by simp
  have hfar : ∀ m ∈ fresh, ∀ k, ReachedBy g start k n → ReachedBy g start (k + 1) m := by
    intro m hm k hk
    obtain ⟨hmention, hdef, -⟩ := mem_freshMentions_iff.mp hm
    exact hk.mention hmention hdef
  have hlt : ∀ m ∈ fresh, ∀ k, ReachedBy g start k m → ∃ j < k, ReachedBy g start j n :=
    fun m hm k hk => h.exists_lt hk (mem_freshMentions_iff.mp hm).2.2
  have hvisited : ∀ a ∈ visited ++ [n], IsNearer g start a n := by
    intro a ha
    rcases List.mem_append.mp ha with ha | ha
    · exact (List.pairwise_append.mp h.nearer).2.2 a ha n List.mem_cons_self
    · rw [List.mem_singleton.mp ha]
      exact .refl n
  have hnext : ∀ b ∈ queue ++ fresh, IsNearer g start n b := by
    intro b hb k hk
    rcases List.mem_append.mp hb with hb | hb
    · exact (List.pairwise_cons.mp (List.pairwise_append.mp h.nearer).2.1).1 b hb k hk
    · obtain ⟨j, hj, hn⟩ := hlt b hb k hk
      exact ⟨j, Nat.le_of_lt hj, hn⟩
  have hclose : ∀ m ∈ queue ++ fresh, ∀ k, ReachedBy g start k n → ∃ j ≤ k + 1, ReachedBy g start j m := by
    intro m hm k hk
    rcases List.mem_append.mp hm with hm | hm
    · exact h.close n rfl m (List.mem_cons_of_mem n hm) k hk
    · exact ⟨k + 1, Nat.le_refl _, hfar m hm k hk⟩
  refine ⟨h.exploring.visit, ?_, ?_, ?_, ?_⟩
  · rw [hassoc]
    exact h.found_visit
  · rw [hassoc]
    intro m hm
    rcases List.mem_append.mp hm with hm | hm
    · exact h.reachable m hm
    · obtain ⟨k, hk⟩ := h.reachable n (List.mem_append_right _ List.mem_cons_self)
      exact ⟨k + 1, hfar m hm k hk⟩
  · rw [hassoc]
    refine List.pairwise_append.mpr ⟨h.nearer, ?_, ?_⟩
    · -- two names that the visit finds are equally far
      refine List.pairwise_of_forall_mem_list fun a ha b hb k hk => ?_
      obtain ⟨j, hj, hn⟩ := hlt b hb k hk
      exact ⟨j + 1, hj, hfar a ha j hn⟩
    · intro a ha b hb k hk
      obtain ⟨j, hj, hn⟩ := hlt b hb k hk
      rcases List.mem_append.mp ha with ha | ha
      · obtain ⟨i, hi, ha⟩ := hvisited a (List.mem_append_left _ ha) j hn
        exact ⟨i, by omega, ha⟩
      · obtain ⟨i, hi, ha⟩ := h.close n rfl a ha j hn
        exact ⟨i, by omega, ha⟩
  · intro first hfirst m hm k hk
    -- whatever is visited next is not nearer than the name that was visited
    have hmem : first ∈ queue ++ fresh := List.mem_of_head? hfirst
    obtain ⟨j, hj, hn⟩ := hnext first hmem k hk
    obtain ⟨i, hi, hm⟩ := hclose m hm j hn
    exact ⟨i, by omega, hm⟩

/-- With enough steps, the search ends with an empty queue. -/
theorem Searching.visit_all {steps : Nat} (h : Searching g start visited queue)
    (hsteps : g.size ≤ visited.length + steps) : Searching g start (Grammar.visit g steps visited queue) [] := by
  induction steps generalizing visited queue with
  | zero =>
    have hle := h.exploring.length_le
    obtain rfl : queue = [] := List.eq_nil_of_length_eq_zero (by omega)
    exact h
  | succ steps ih =>
    cases queue with
    | nil => exact h
    | cons n queue =>
      rw [Grammar.visit]
      exact ih h.visit (by rw [List.length_append, List.length_singleton]; omega)

theorem searching_reachableFrom (h : g.contains start = true) : Searching g start (g.reachableFrom start) [] := by
  rw [reachableFrom, if_pos h]
  exact (searching_start h).visit_all (Nat.le_of_eq (Nat.zero_add _).symm)

/-- A name can be reached exactly if the search finds it. -/
theorem mem_reachableFrom_iff : n ∈ g.reachableFrom start ↔ IsReachable g start n := by
  constructor
  · intro hn
    by_cases hstart : g.contains start = true
    · exact (searching_reachableFrom hstart).reachable n (List.mem_append_left _ hn)
    · rw [reachableFrom, if_neg hstart] at hn
      exact absurd hn List.not_mem_nil
  · rintro ⟨k, hk⟩
    induction hk with
    | start hstart => exact mem_reachableFrom_self hstart
    | mention _ hmention hdef ih => exact mem_reachableFrom_of_mentions ih hmention hdef

/-- The search lists the names that can be reached, breadth first. -/
theorem breadthFirst_reachableFrom (g : Grammar) (start : String) : BreadthFirst g start (g.reachableFrom start) := by
  by_cases hstart : g.contains start = true
  · have h := searching_reachableFrom hstart
    have hnodup := h.exploring.nodup
    have hfound := h.found
    have hnearer := h.nearer
    rw [List.append_nil] at hnodup hfound hnearer
    exact ⟨hnodup, fun n => mem_reachableFrom_iff, fun _ => hfound, hnearer⟩
  · have hempty : g.reachableFrom start = [] := by rw [reachableFrom, if_neg hstart]
    refine ⟨?_, fun n => mem_reachableFrom_iff, fun h => absurd h hstart, ?_⟩
    · exact hempty ▸ List.nodup_nil
    · exact hempty ▸ List.Pairwise.nil

/-! ### Pruning -/

theorem mentions_pruneUnreachable (hn : n ∈ g.reachableFrom start) :
    (g.pruneUnreachable start).mentions n = g.mentions n := by
  rw [mentions, mentions, alternatives_pruneUnreachable, if_pos hn]

/-- After pruning the same names are reached by as many references. -/
theorem reachedBy_pruneUnreachable_iff {k : Nat} :
    ReachedBy (g.pruneUnreachable start) start k n ↔ ReachedBy g start k n := by
  constructor
  · intro h
    induction h with
    | start hstart => exact .start (contains_pruneUnreachable_iff.mp hstart).2
    | mention _ hmention hdef ih =>
      rw [mentions_pruneUnreachable (mem_reachableFrom_iff.mpr ⟨_, ih⟩)] at hmention
      exact ih.mention hmention (contains_pruneUnreachable_iff.mp hdef).2
  · intro h
    induction h with
    | start hstart => exact .start (contains_pruneUnreachable_iff.mpr ⟨mem_reachableFrom_self hstart, hstart⟩)
    | mention hn hmention hdef ih =>
      have hfound := mem_reachableFrom_iff.mpr ⟨_, hn⟩
      refine ih.mention ((mentions_pruneUnreachable hfound).symm ▸ hmention) ?_
      exact contains_pruneUnreachable_iff.mpr ⟨mem_reachableFrom_of_mentions hfound hmention hdef, hdef⟩

theorem mem_reachableFrom_pruneUnreachable :
    n ∈ (g.pruneUnreachable start).reachableFrom start ↔ n ∈ g.reachableFrom start := by
  rw [mem_reachableFrom_iff, mem_reachableFrom_iff]
  exact exists_congr fun k => reachedBy_pruneUnreachable_iff

theorem mem_entries_pruneUnreachable {e : String × List Rule} :
    e ∈ (g.pruneUnreachable start).entries ↔ e ∈ g.entries ∧ IsReachable g start e.1 := by
  rw [pruneUnreachable, OrderedMap.filterKeys, List.mem_filter, List.contains_iff_mem, mem_reachableFrom_iff]

theorem mem_unreachableFrom_iff : n ∈ g.unreachableFrom start ↔ g.contains n = true ∧ ¬IsReachable g start n := by
  rw [unreachableFrom, List.mem_filter, ← OrderedMap.contains_iff_mem_keys, ← mem_reachableFrom_iff]
  simp

/-- Pruning neither hides nor makes a name that leads nowhere. -/
theorem danglingFrom_pruneUnreachable (g : Grammar) (start : String) :
    danglingFrom (g.pruneUnreachable start) start = g.danglingFrom start := by
  apply SortedSet.ext_mem
  intro m
  rw [mem_danglingFrom_iff, mem_danglingFrom_iff]
  constructor
  · rintro ⟨⟨n, hn, hm⟩, hno⟩
    have hfound := mem_reachableFrom_pruneUnreachable.mp hn
    rw [mentions_pruneUnreachable hfound] at hm
    refine ⟨⟨n, hfound, hm⟩, ?_⟩
    -- a defined name that is mentioned is found, and would be kept
    by_contra hdef
    rw [Bool.not_eq_false] at hdef
    have hkept := contains_pruneUnreachable_iff.mpr ⟨mem_reachableFrom_of_mentions hfound hm hdef, hdef⟩
    rw [hkept] at hno
    cases hno
  · rintro ⟨⟨n, hn, hm⟩, hno⟩
    refine ⟨⟨n, mem_reachableFrom_pruneUnreachable.mpr hn, ?_⟩, ?_⟩
    · rwa [mentions_pruneUnreachable hn]
    · by_contra hdef
      rw [Bool.not_eq_false] at hdef
      rw [(contains_pruneUnreachable_iff.mp hdef).2] at hno
      cases hno

/-- What was pruned has nothing left to prune. -/
theorem pruneUnreachable_pruneUnreachable (g : Grammar) (start : String) :
    pruneUnreachable (g.pruneUnreachable start) start = g.pruneUnreachable start := by
  apply OrderedMap.ext
  rw [pruneUnreachable, OrderedMap.filterKeys]
  refine List.filter_eq_self.mpr fun e he => ?_
  rw [List.contains_iff_mem, mem_reachableFrom_pruneUnreachable, mem_reachableFrom_iff]
  exact (mem_entries_pruneUnreachable.mp he).2

theorem unreachableFrom_pruneUnreachable (g : Grammar) (start : String) :
    unreachableFrom (g.pruneUnreachable start) start = [] := by
  refine List.eq_nil_iff_forall_not_mem.mpr fun n hn => ?_
  obtain ⟨hdef, hno⟩ := mem_unreachableFrom_iff.mp hn
  apply hno
  rw [← mem_reachableFrom_iff, mem_reachableFrom_pruneUnreachable]
  exact (contains_pruneUnreachable_iff.mp hdef).1

/-- **Search and pruning are exact.**  For every grammar and every name to start from, the search lists exactly the
defined names that can be reached by references, each one once, breadth first and in the order of their first mentions;
nothing if the name is not defined.  Pruning keeps exactly their definitions, in their order, and removes the other
names, which are listed in their order.  Every name that is kept derives the same words, the undefined names that are
mentioned are the same, and there is nothing left to prune. -/
theorem reachability_exact (g : Grammar) (start : String) :
    BreadthFirst g start (g.reachableFrom start) ∧
    (g.contains start = false → g.reachableFrom start = []) ∧
    ((g.pruneUnreachable start).entries.Sublist g.entries ∧
      ∀ e, e ∈ (g.pruneUnreachable start).entries ↔ e ∈ g.entries ∧ IsReachable g start e.1) ∧
    ((g.unreachableFrom start).Sublist g.keys ∧
      ∀ n, n ∈ g.unreachableFrom start ↔ n ∈ g.keys ∧ ¬IsReachable g start n) ∧
    (∀ n ∈ (g.pruneUnreachable start).keys, ∀ w, InLanguage (g.pruneUnreachable start) n w ↔ InLanguage g n w) ∧
    danglingFrom (g.pruneUnreachable start) start = g.danglingFrom start ∧
    pruneUnreachable (g.pruneUnreachable start) start = g.pruneUnreachable start ∧
    unreachableFrom (g.pruneUnreachable start) start = [] := by
  refine ⟨breadthFirst_reachableFrom g start, fun hstart => ?_, ⟨List.filter_sublist, fun e => ?_⟩,
    ⟨List.filter_sublist, fun n => ?_⟩, fun n hn w => ?_, danglingFrom_pruneUnreachable g start,
    pruneUnreachable_pruneUnreachable g start, unreachableFrom_pruneUnreachable g start⟩
  · rw [reachableFrom, hstart]
    rfl
  · exact mem_entries_pruneUnreachable
  · rw [mem_unreachableFrom_iff, OrderedMap.contains_iff_mem_keys]
  · rw [← OrderedMap.contains_iff_mem_keys, contains_pruneUnreachable_iff] at hn
    exact inLanguage_pruneUnreachable_iff_of_mem hn.1

/-- Two names are found in the order of their mentions, and before what they mention themselves. -/
example : reachableFrom (.ofList [("<d>", []), ("<b>", [[.nonterminal "<d>"]]), ("<c>", [[.nonterminal "<a>"]]),
    ("<a>", [[.nonterminal "<c>", .nonterminal "<b>"], [.nonterminal "<none>"]])]) "<a>" =
    ["<a>", "<c>", "<b>", "<d>"] := by
  decide +kernel

end Grammar

end GrammarInference
