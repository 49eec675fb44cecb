/-
GrammarInference/Proofs/Grammar/Symbols.lean

Which symbols occur in a grammar.

Design.  What holds of every symbol of a grammar is said of its entries, so that nothing has to be known about
names that are defined twice or not at all.  Putting grammars together and renaming in them bring no symbols of
their own, apart from the new names.  The property that matters here is that a symbol follows the naming
convention, because this is what a reader of the grammar goes by.
-/
import GrammarInference.Grammar.Basic

namespace GrammarInference

/-! ### Entries of maps -/

namespace OrderedMap

variable {κ α : Type} [DecidableEq κ] {k : κ} {a : α} {e : κ × α} {l : List (κ × α)} {m n : OrderedMap κ α}

theorem mem_put (h : e ∈ put k a l) : e = (k, a) ∨ e ∈ l := by
  induction l with
  | nil => exact .inl (List.mem_singleton.mp h)
  | cons e' l ih =>
    obtain ⟨k', a'⟩ := e'
    rw [put] at h
    split at h
    · exact (List.mem_cons.mp h).imp_right (List.mem_cons_of_mem _)
    · rcases List.mem_cons.mp h with rfl | h
      · exact .inr List.mem_cons_self
      · exact (ih h).imp_right (List.mem_cons_of_mem _)

theorem mem_entries_insert (h : e ∈ (m.insert k a).entries) : e = (k, a) ∨ e ∈ m.entries := mem_put h

theorem mem_entries_foldl_insert (h : e ∈ (l.foldl (fun m e => m.insert e.1 e.2) m).entries) :
    e ∈ m.entries ∨ e ∈ l := by
  induction l generalizing m with
  | nil => exact .inl h
  | cons e' l ih =>
    rcases ih h with h | h
    · rcases mem_entries_insert h with rfl | h
      · exact .inr List.mem_cons_self
      · exact .inl h
    · exact .inr (List.mem_cons_of_mem _ h)

/-- The entries of a map come from the list that it was put together from. -/
theorem mem_of_mem_entries_ofList (h : e ∈ (ofList l).entries) : e ∈ l :=
  (mem_entries_foldl_insert h).resolve_left List.not_mem_nil

theorem mem_entries_overlay (h : e ∈ (m.overlay n).entries) : e ∈ m.entries ∨ e ∈ n.entries :=
  mem_entries_foldl_insert h

theorem foldl_insert_entries (h : ((m.entries ++ l).map Prod.fst).Nodup) :
    (l.foldl (fun m e => m.insert e.1 e.2) m).entries = m.entries ++ l := by
  induction l generalizing m with
  | nil => rw [List.foldl_nil, List.append_nil]
  | cons e l ih =>
    have hnew : e.1 ∉ m.keys := by
      intro hmem
      rw [List.map_append, List.map_cons, List.nodup_append] at h
      exact h.2.2 e.1 hmem e.1 List.mem_cons_self rfl
    have hentries := entries_insert_of_not_mem hnew e.2
    rw [List.foldl_cons, ih, hentries, List.append_assoc, List.singleton_append]
    rw [hentries, List.append_assoc, List.singleton_append]
    exact h

/-- A map can be put together from its entries. -/
theorem ofList_entries (m : OrderedMap κ α) : ofList m.entries = m :=
  ext (foldl_insert_entries (m := empty) m.nodup_keys)

/-- Values do not change when their keys do. -/
theorem exists_mem_entries_of_renameKey {k' : κ} (h : e ∈ (m.renameKey k k').entries) :
    ∃ e' ∈ m.entries, e'.2 = e.2 := by
  have herase : ∀ {m : OrderedMap κ α} {k : κ} {e : κ × α}, e ∈ (m.erase k).entries → e ∈ m.entries :=
    fun h => (List.mem_filter.mp h).1
  rw [renameKey] at h
  split at h
  · exact ⟨e, h, rfl⟩
  · rename_i a hget
    rw [insertAt, List.mem_append, List.mem_cons] at h
    rcases h with h | rfl | h
    · exact ⟨e, herase (herase (List.mem_of_mem_take h)), rfl⟩
    · exact ⟨(k, a), get?_eq_some_iff.mp hget, rfl⟩
    · exact ⟨e, herase (herase (List.mem_of_mem_drop h)), rfl⟩

end OrderedMap

/-! ### The naming convention -/

/-- A nonterminal has the form of a name, and a terminal has not. -/
def Symbol.IsConventional : Symbol → Prop
  | .terminal t => isNonterminalName t = false
  | .nonterminal n => isNonterminalName n = true

instance : DecidablePred Symbol.IsConventional := fun x =>
  match x with
  | .terminal _ => inferInstanceAs (Decidable (_ = _))
  | .nonterminal _ => inferInstanceAs (Decidable (_ = _))

/-- Such a symbol can be told from its text. -/
theorem Symbol.ofText_text_eq_iff {x : Symbol} : Symbol.ofText x.text = x ↔ x.IsConventional := by
  cases x with
  | terminal t =>
    rw [text, ofText, IsConventional]
    split <;> simp_all
  | nonterminal n =>
    rw [text, ofText, IsConventional]
    split <;> simp_all

theorem Symbol.isConventional_ofText (s : String) : (Symbol.ofText s).IsConventional :=
  ofText_text_eq_iff.mp (by rw [text_ofText])

/-! ### Symbols of grammars -/

namespace Grammar

variable {P Q : Symbol → Prop} {g g' : Grammar} {n old new : String} {rs : List Rule}

/-- Every symbol in the alternatives has the property. -/
def HasOnly (P : Symbol → Prop) (g : Grammar) : Prop := ∀ e ∈ g.entries, ∀ r ∈ e.2, ∀ x ∈ r, P x

instance [DecidablePred P] : DecidablePred (HasOnly P) := fun g =>
  inferInstanceAs (Decidable (∀ e ∈ g.entries, ∀ r ∈ e.2, ∀ x ∈ r, P x))

theorem exists_mem_entries_of_mem_alternatives {r : Rule} (hr : r ∈ g.alternatives n) :
    ∃ e ∈ g.entries, r ∈ e.2 := by
  rw [alternatives] at hr
  rcases hrules : g.get? n with - | rs
  · rw [hrules] at hr
    exact absurd hr List.not_mem_nil
  · rw [hrules] at hr
    exact ⟨(n, rs), OrderedMap.get?_eq_some_iff.mp hrules, hr⟩

theorem HasOnly.mono (h : HasOnly P g) (hPQ : ∀ x, P x → Q x) : HasOnly Q g :=
  fun e he r hr x hx => hPQ x (h e he r hr x hx)

theorem hasOnly_empty : HasOnly P ∅ := fun _ he => absurd he List.not_mem_nil

theorem HasOnly.insert (h : HasOnly P g) (hrs : ∀ r ∈ rs, ∀ x ∈ r, P x) : HasOnly P (g.insert n rs) := by
  intro e he
  rcases OrderedMap.mem_entries_insert he with rfl | he
  · exact hrs
  · exact h e he

theorem HasOnly.overlay (h : HasOnly P g) (h' : HasOnly P g') : HasOnly P (g.overlay g') := by
  intro e he
  rcases OrderedMap.mem_entries_overlay he with he | he
  · exact h e he
  · exact h' e he

/-- Renaming brings in the new name. -/
theorem HasOnly.rename (h : HasOnly P g) (hnew : P (.nonterminal new)) : HasOnly P (g.rename old new) := by
  intro d hd r' hr' x' hx'
  obtain ⟨e, he, rfl⟩ := List.mem_map.mp hd
  obtain ⟨r, hr, rfl⟩ := List.mem_map.mp hr'
  obtain ⟨x, hx, rfl⟩ := List.mem_map.mp hx'
  obtain ⟨e', he', heq⟩ := OrderedMap.exists_mem_entries_of_renameKey he
  have hold : P x := h e' he' r (heq ▸ hr) x hx
  cases x with
  | terminal t => exact hold
  | nonterminal k =>
    rw [Symbol.replaceName]
    split
    · exact hnew
    · exact hold

theorem HasOnly.foldl_rename {f : String → String} {ks : List String} (h : HasOnly P g)
    (hf : ∀ k ∈ ks, P (.nonterminal (f k))) : HasOnly P (ks.foldl (fun g k => g.rename k (f k)) g) := by
  induction ks generalizing g with
  | nil => exact h
  | cons k ks ih =>
    obtain ⟨hk, hks⟩ := List.forall_mem_cons.mp hf
    exact ih (h.rename hk) hks

end Grammar

end GrammarInference
