/-
GrammarInference/Proofs/Grammar/Validity.lean

What the check of a grammar establishes.

Design.  The check answers for three things at once, which later proofs want one by one (`Valid`).  The names
that are reachable from the start symbol of a valid grammar are an example of a closed set: they are defined and
mention nothing but each other.  A rewriting step may define new names, even names that were mentioned without
being defined; it cannot disturb a closed set, and closed sets need not be those found by a search, so what a
step does to a grammar is said of all closed sets.
-/
import GrammarInference.Proofs.Grammar.Dedup
import GrammarInference.Proofs.Grammar.Reachable

namespace GrammarInference

namespace Grammar

variable {g : Grammar} {n m : String} {r : Rule} {w : List Char}

/-! ### Closed sets -/

/-- The names in `R` are defined and mention only names in `R`. -/
structure Closed (g : Grammar) (R : Set String) : Prop where
  /-- Every name is defined. -/
  defined : ∀ n ∈ R, g.contains n = true
  /-- What a name mentions is in the set. -/
  mentions : ∀ n ∈ R, ∀ m ∈ g.mentions n, m ∈ R

theorem mem_mentions_iff : m ∈ g.mentions n ↔ ∃ body ∈ g.alternatives n, Symbol.nonterminal m ∈ body := by
  simp only [Grammar.mentions, List.mem_flatMap, mem_names_iff]

/-- The symbols of an alternative of a closed name are in the set. -/
theorem Closed.mem {R : Set String} (h : Closed g R) (hn : n ∈ R) (hr : r ∈ g.alternatives n)
    (hm : Symbol.nonterminal m ∈ r) : m ∈ R :=
  h.mentions n hn m (mem_mentions_iff.mpr ⟨r, hr, hm⟩)

/-! ### Validity -/

/-- The start symbol is defined, all that it reaches is defined, and no alternative is listed twice. -/
structure Valid (g : Grammar) : Prop where
  /-- The start symbol is defined. -/
  start : g.contains startName = true
  /-- Nothing that is reachable from the start symbol mentions an undefined name. -/
  defined : ∀ n ∈ g.reachableFrom startName, ∀ m ∈ g.mentions n, g.contains m = true
  /-- No definition lists an alternative twice. -/
  nodup : ∀ n, (g.alternatives n).Nodup

theorem nodup_entries_iff : (∀ e ∈ g.entries, e.2.Nodup) ↔ ∀ n, (g.alternatives n).Nodup := by
  constructor
  · intro h n
    rcases hget : g.get? n with - | rs
    · simp [alternatives, hget]
    · rw [alternatives, hget]
      exact h (n, rs) (OrderedMap.get?_eq_some_iff.mp hget)
  · rintro h ⟨n, rs⟩ he
    have hn := h n
    rwa [alternatives_of_mem_entries he] at hn

theorem isEmpty_danglingFrom_iff {start : String} : (g.danglingFrom start).isEmpty = true ↔
    ∀ n ∈ g.reachableFrom start, ∀ m ∈ g.mentions n, g.contains m = true := by
  rw [SortedSet.isEmpty, List.isEmpty_iff, List.eq_nil_iff_forall_not_mem]
  constructor
  · intro h n hn m hm
    by_contra hno
    exact h m (mem_danglingFrom_iff.mpr ⟨⟨n, hn, hm⟩, by simpa using hno⟩)
  · intro h m hm
    obtain ⟨⟨n, hn, hmn⟩, hno⟩ := mem_danglingFrom_iff.mp hm
    rw [h n hn m hmn] at hno
    cases hno

/-- The check succeeds exactly on the valid grammars. -/
theorem validate_eq_ok_iff : g.validate = .ok () ↔ g.Valid := by
  have hfind : (g.entries.find? fun e => decide (¬ e.2.Nodup)) = none ↔ ∀ n, (g.alternatives n).Nodup := by
    rw [List.find?_eq_none, ← nodup_entries_iff]
    simp
  constructor
  · intro h
    simp only [validate] at h
    split at h
    · cases h
    · rename_i hstart
      split at h
      · cases h
      · rename_i hdangling
        split at h
        · cases h
        · rename_i hnone
          exact ⟨by simpa using hstart, isEmpty_danglingFrom_iff.mp (by simpa using hdangling), hfind.mp hnone⟩
  · intro h
    have hdangling := isEmpty_danglingFrom_iff.mpr h.defined
    simp only [validate, h.start, hdangling, hfind.mpr h.nodup]
    rfl

/-- What can be reached from a name is closed if it mentions no undefined name. -/
theorem closed_reachableFrom {start : String}
    (h : ∀ n ∈ g.reachableFrom start, ∀ m ∈ g.mentions n, g.contains m = true) :
    Closed g {n | n ∈ g.reachableFrom start} where
  defined := by
    intro n hn
    have hfound : n ∈ g.reachableFrom start := hn
    by_cases hstart : g.contains start = true
    · rw [reachableFrom, if_pos hstart] at hfound
      have hexp := ((exploring_start hstart).visit_spec (Nat.le_of_eq (Nat.zero_add g.size).symm)).2
      exact OrderedMap.contains_iff_mem_keys.mpr (hexp.defined (List.mem_append_left _ hfound))
    · rw [reachableFrom, if_neg hstart] at hfound
      exact absurd hfound List.not_mem_nil
  mentions := fun n hn m hm => mem_reachableFrom_of_mentions hn hm (h n hn m hm)

/-- A search does not leave a closed set. -/
theorem Closed.mem_of_mem_visit {R : Set String} (h : Closed g R) {steps : Nat} {visited queue : List String}
    (hfound : ∀ k ∈ visited ++ queue, k ∈ R) (hn : n ∈ visit g steps visited queue) : n ∈ R := by
  induction steps generalizing visited queue with
  | zero => exact hfound n (List.mem_append_left _ hn)
  | succ steps ih =>
    cases queue with
    | nil => exact hfound n (List.mem_append_left _ hn)
    | cons q queue =>
      have hq : q ∈ R := hfound q (List.mem_append_right _ List.mem_cons_self)
      refine ih (fun k hk => ?_) hn
      simp only [List.mem_append, List.mem_singleton, mem_freshMentions_iff] at hk
      rcases hk with (hk | rfl) | hk | hk
      · exact hfound k (List.mem_append_left _ hk)
      · exact hq
      · exact hfound k (List.mem_append_right _ (List.mem_cons_of_mem q hk))
      · exact h.mentions q hq k hk.1

theorem Closed.mem_of_mem_reachableFrom {R : Set String} (h : Closed g R) {start : String} (hs : start ∈ R)
    (hn : n ∈ g.reachableFrom start) : n ∈ R := by
  rw [reachableFrom, if_pos (h.defined start hs)] at hn
  exact h.mem_of_mem_visit (fun k hk => by rwa [List.mem_singleton.mp hk]) hn

/-- A closed set with the start symbol holds all that it reaches, so nothing there is undefined. -/
theorem Closed.valid {R : Set String} (h : Closed g R) (hs : startName ∈ R)
    (hnodup : ∀ n, (g.alternatives n).Nodup) : g.Valid where
  start := h.defined startName hs
  defined := fun n hn m hm => h.defined m (h.mentions n (h.mem_of_mem_reachableFrom hs hn) m hm)
  nodup := hnodup

theorem Valid.closed (h : g.Valid) : Closed g {n | n ∈ g.reachableFrom startName} :=
  closed_reachableFrom h.defined

end Grammar

end GrammarInference
