/-
GrammarInference/Proofs/Grammar/Reachable.lean

Dropping what cannot be reached keeps the language.

Design.  The search visits its queue, and every defined name that a visited one mentions is visited or in the
queue.  No name is in both or twice, so when as many steps were made as there are definitions, the queue is
empty; the bound on the steps never stops the search.  Hence the names that are found are closed under mention
(`mem_reachableFrom_of_mentions`), and a derivation from one of them stays among them.
-/
import GrammarInference.Grammar.Reachable
import GrammarInference.Proofs.Grammar.Derivation
import Mathlib.Data.List.Perm.Subperm

namespace GrammarInference

namespace Grammar

variable {g : Grammar} {start n m : String} {w : List Char}

/-! ### Definitions and mentions -/

theorem InLanguage.contains (h : InLanguage g n w) : g.contains n = true := by
  obtain ⟨body, hb, -⟩ := h
  exact contains_of_mem_alternatives hb

theorem mem_names_iff {r : Rule} : m ∈ Rule.names r ↔ Symbol.nonterminal m ∈ r := by
  rw [Rule.names, List.mem_filterMap]
  constructor
  · rintro ⟨x, hx, hname⟩
    cases x with
    | terminal t => cases hname
    | nonterminal k =>
      cases hname
      exact hx
  · intro h
    exact ⟨_, h, rfl⟩

theorem mem_danglingFrom_iff : m ∈ g.danglingFrom start ↔
    (∃ n ∈ g.reachableFrom start, m ∈ g.mentions n) ∧ g.contains m = false := by
  rw [danglingFrom, SortedSet.mem_ofList, List.mem_filter, List.mem_flatMap, Bool.not_eq_true']

theorem mem_mentions_of_mem {body : Rule} (hb : body ∈ g.alternatives n) (hm : Symbol.nonterminal m ∈ body) :
    m ∈ g.mentions n :=
  List.mem_flatMap.mpr ⟨body, hb, mem_names_iff.mpr hm⟩

/-! ### The search -/

theorem mem_freshMentions_iff {found : List String} :
    m ∈ g.freshMentions found n ↔ m ∈ g.mentions n ∧ g.contains m = true ∧ m ∉ found := by
  simp [freshMentions]

/-- The names that were visited or wait for their visit. -/
structure Exploring (g : Grammar) (visited queue : List String) : Prop where
  /-- No name occurs twice. -/
  nodup : (visited ++ queue).Nodup
  /-- All names are defined. -/
  defined : visited ++ queue ⊆ g.keys
  /-- The defined names that a visited one mentions were found. -/
  closed : ∀ n ∈ visited, ∀ m ∈ g.mentions n, g.contains m = true → m ∈ visited ++ queue

theorem Exploring.visit {visited queue : List String} (h : Exploring g visited (n :: queue)) :
    Exploring g (visited ++ [n]) (queue ++ g.freshMentions (visited ++ n :: queue) n) := by
  have hassoc : (visited ++ [n]) ++ (queue ++ g.freshMentions (visited ++ n :: queue) n) =
      (visited ++ n :: queue) ++ g.freshMentions (visited ++ n :: queue) n := by
    simp
  refine ⟨?_, ?_, ?_⟩
  · rw [hassoc, List.nodup_append]
    refine ⟨h.nodup, nodup_distinct _, ?_⟩
    rintro a ha b hb rfl
    exact (mem_freshMentions_iff.mp hb).2.2 ha
  · rw [hassoc]
    refine List.append_subset.mpr ⟨h.defined, fun m hm => ?_⟩
    exact OrderedMap.contains_iff_mem_keys.mp (mem_freshMentions_iff.mp hm).2.1
  · rw [hassoc]
    intro k hk m hm hdef
    by_cases hfound : m ∈ visited ++ n :: queue
    · exact List.mem_append_left _ hfound
    · rcases List.mem_append.mp hk with hk | hk
      · exact List.mem_append_left _ (h.closed k hk m hm hdef)
      · obtain rfl := List.mem_singleton.mp hk
        exact List.mem_append_right _ (mem_freshMentions_iff.mpr ⟨hm, hdef, hfound⟩)

/-- The visited names and the queue are not more than the definitions. -/
theorem Exploring.length_le {visited queue : List String} (h : Exploring g visited queue) :
    visited.length + queue.length ≤ g.size := by
  have hle := (h.nodup.subperm h.defined).length_le
  rwa [List.length_append, OrderedMap.keys, List.length_map] at hle

/-- With enough steps, the search visits everything that it finds. -/
theorem Exploring.visit_spec {steps : Nat} {visited queue : List String} (h : Exploring g visited queue)
    (hsteps : g.size ≤ visited.length + steps) :
    visited ++ queue ⊆ Grammar.visit g steps visited queue ∧
      Exploring g (Grammar.visit g steps visited queue) [] := by
  induction steps generalizing visited queue with
  | zero =>
    -- the visited names are as many as there are definitions, so none is left in the queue
    have hle := h.length_le
    obtain rfl : queue = [] := List.eq_nil_of_length_eq_zero (by omega)
    rw [List.append_nil]
    exact ⟨List.Subset.refl _, h⟩
  | succ steps ih =>
    cases queue with
    | nil =>
      rw [List.append_nil]
      exact ⟨List.Subset.refl _, h⟩
    | cons n queue =>
      rw [Grammar.visit]
      obtain ⟨hsub, hexp⟩ := ih h.visit (by rw [List.length_append, List.length_singleton]; omega)
      refine ⟨fun k hk => hsub ?_, hexp⟩
      rw [← List.append_assoc, List.append_assoc visited, List.singleton_append]
      exact List.mem_append_left _ hk

theorem exploring_start (h : g.contains start = true) : Exploring g [] [start] where
  nodup := List.nodup_cons.mpr ⟨List.not_mem_nil, List.nodup_nil⟩
  defined := List.cons_subset.mpr ⟨OrderedMap.contains_iff_mem_keys.mp h, List.nil_subset _⟩
  closed := fun _ hk => absurd hk List.not_mem_nil

theorem mem_reachableFrom_self (h : g.contains start = true) : start ∈ g.reachableFrom start := by
  rw [reachableFrom, if_pos h]
  exact ((exploring_start h).visit_spec (Nat.le_of_eq (Nat.zero_add _).symm)).1 (List.mem_singleton_self start)

/-- What is found is closed under mention. -/
theorem mem_reachableFrom_of_mentions (hn : n ∈ g.reachableFrom start) (hm : m ∈ g.mentions n)
    (hdef : g.contains m = true) : m ∈ g.reachableFrom start := by
  by_cases h : g.contains start = true
  · rw [reachableFrom, if_pos h] at hn ⊢
    have hexp := ((exploring_start h).visit_spec (Nat.le_of_eq (Nat.zero_add g.size).symm)).2
    have hmem := hexp.closed n hn m hm hdef
    rwa [List.append_nil] at hmem
  · rw [reachableFrom, if_neg h] at hn
    exact absurd hn List.not_mem_nil

/-! ### Pruning -/

theorem alternatives_pruneUnreachable (g : Grammar) (start n : String) :
    alternatives (g.pruneUnreachable start) n = if n ∈ g.reachableFrom start then g.alternatives n else [] := by
  rw [alternatives, pruneUnreachable, OrderedMap.get?_filterKeys, alternatives]
  by_cases h : n ∈ g.reachableFrom start <;> simp [h]

theorem mem_alternatives_pruneUnreachable {body : Rule} : body ∈ alternatives (g.pruneUnreachable start) n ↔
    n ∈ g.reachableFrom start ∧ body ∈ g.alternatives n := by
  rw [alternatives_pruneUnreachable]
  by_cases h : n ∈ g.reachableFrom start <;> simp [h]

/-- What the symbol derives, and derives still after pruning if it is found. -/
def Stays (g : Grammar) (start : String) : Symbol → List Char → Prop
  | .terminal t, u => u = t.toList
  | .nonterminal m, u =>
    g.contains m = true ∧ (m ∈ g.reachableFrom start → InLanguage (g.pruneUnreachable start) m u)

/-- Where all defined names of a rule are found, its words are still derived. -/
theorem Pieces.derives_pruneUnreachable {r : Rule} (h : Pieces (Stays g start) r w)
    (hr : ∀ k, Symbol.nonterminal k ∈ r → g.contains k = true → k ∈ g.reachableFrom start) :
    Derives (g.pruneUnreachable start) r w := by
  induction h with
  | nil => exact .nil
  | @cons x r u v hx _ ih =>
    have hrest := ih fun k hk => hr k (List.mem_cons_of_mem x hk)
    cases x with
    | terminal t =>
      obtain rfl : u = t.toList := hx
      exact .terminal hrest
    | nonterminal k =>
      obtain ⟨body, hb, hd⟩ := hx.2 (hr k List.mem_cons_self hx.1)
      exact .nonterminal hb hd hrest

/-- A derivation from a nonterminal that is found stays among those. -/
theorem InLanguage.pruneUnreachable (h : InLanguage g n w) (hn : n ∈ g.reachableFrom start) :
    InLanguage (g.pruneUnreachable start) n w := by
  have hpieces : Pieces (Stays g start) [.nonterminal n] w := by
    refine (derives_singleton_iff.mpr h).pieces (fun t => rfl) fun m body u hb hu => ?_
    refine ⟨contains_of_mem_alternatives hb, fun hm => ?_⟩
    refine ⟨body, mem_alternatives_pruneUnreachable.mpr ⟨hm, hb⟩, hu.derives_pruneUnreachable ?_⟩
    -- every nonterminal of the alternative derives something, so it is defined, and then it is found
    exact fun k hk hdef => mem_reachableFrom_of_mentions hm (mem_mentions_of_mem hb hk) hdef
  cases hpieces with
  | cons hx hr =>
    cases hr
    rw [List.append_nil]
    exact hx.2 hn

/-- Dropping definitions adds no word. -/
theorem InLanguage.of_pruneUnreachable (h : InLanguage (g.pruneUnreachable start) n w) : InLanguage g n w := by
  obtain ⟨body, hb, hd⟩ := h
  refine ⟨body, (mem_alternatives_pruneUnreachable.mp hb).2, hd.mono fun k b hk => ?_⟩
  exact (mem_alternatives_pruneUnreachable.mp hk).2

/-- Dropping what cannot be reached keeps the language of every name that can. -/
theorem inLanguage_pruneUnreachable_iff_of_mem (hn : n ∈ g.reachableFrom start) :
    InLanguage (g.pruneUnreachable start) n w ↔ InLanguage g n w :=
  ⟨.of_pruneUnreachable, fun h => h.pruneUnreachable hn⟩

/-- Dropping what cannot be reached keeps the language of the start symbol. -/
theorem inLanguage_pruneUnreachable_iff :
    InLanguage (g.pruneUnreachable start) start w ↔ InLanguage g start w :=
  ⟨.of_pruneUnreachable, fun h => h.pruneUnreachable (mem_reachableFrom_self h.contains)⟩

end Grammar

end GrammarInference
