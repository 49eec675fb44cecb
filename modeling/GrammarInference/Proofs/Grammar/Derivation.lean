/-
GrammarInference/Proofs/Grammar/Derivation.lean

Taking derivations apart, and carrying them from one grammar to another.

Design.  A derivation from a list of symbols is a derivation from each symbol, with the derived words put
together.  `Pieces P r w` says this for any relation `P` between symbols and words in place of derivation:
`w` is a concatenation of words, one for each symbol of `r`, and each is related to its symbol.  Derivation is
the least such relation that is closed under the alternatives of the grammar (`Derives.pieces`).  A pass that
rewrites a grammar is handled by a choice of `P`: what a symbol derives after the pass.
-/
import GrammarInference.Grammar.Language

namespace GrammarInference

namespace Grammar

variable {g g' : Grammar}

/-! ### Inversion -/

theorem derives_nil_iff {w : List Char} : Derives g [] w ↔ w = [] := by
  constructor
  · intro h
    cases h
    rfl
  · rintro rfl
    exact .nil

theorem derives_terminal_cons_iff {t : String} {r : Rule} {w : List Char} :
    Derives g (.terminal t :: r) w ↔ ∃ v, w = t.toList ++ v ∧ Derives g r v := by
  constructor
  · intro h
    cases h with
    | terminal hr => exact ⟨_, rfl, hr⟩
  · rintro ⟨v, rfl, hr⟩
    exact .terminal hr

theorem derives_nonterminal_cons_iff {n : String} {r : Rule} {w : List Char} :
    Derives g (.nonterminal n :: r) w ↔ ∃ u v, w = u ++ v ∧ InLanguage g n u ∧ Derives g r v := by
  constructor
  · intro h
    cases h with
    | nonterminal hb hd hr => exact ⟨_, _, rfl, ⟨_, hb, hd⟩, hr⟩
  · rintro ⟨u, v, rfl, ⟨body, hb, hd⟩, hr⟩
    exact .nonterminal hb hd hr

theorem derives_terminal_iff {t : String} {w : List Char} : Derives g [.terminal t] w ↔ w = t.toList := by
  rw [derives_terminal_cons_iff]
  constructor
  · rintro ⟨v, rfl, hv⟩
    rw [derives_nil_iff.mp hv, List.append_nil]
  · rintro rfl
    exact ⟨[], (List.append_nil _).symm, .nil⟩

/-- A derivation from a list of symbols splits between any two of them. -/
theorem derives_append_iff {r s : Rule} {w : List Char} :
    Derives g (r ++ s) w ↔ ∃ u v, w = u ++ v ∧ Derives g r u ∧ Derives g s v := by
  constructor
  · intro h
    induction r generalizing w with
    | nil => exact ⟨[], w, rfl, .nil, h⟩
    | cons x r ih =>
      cases h with
      | terminal hr =>
        obtain ⟨u, v, rfl, hu, hv⟩ := ih hr
        exact ⟨_, v, (List.append_assoc _ _ _).symm, .terminal hu, hv⟩
      | nonterminal hb hd hr =>
        obtain ⟨u, v, rfl, hu, hv⟩ := ih hr
        exact ⟨_, v, (List.append_assoc _ _ _).symm, .nonterminal hb hd hu, hv⟩
  · rintro ⟨u, v, rfl, hu, hv⟩
    exact hu.append hv

theorem derives_cons_iff {x : Symbol} {r : Rule} {w : List Char} :
    Derives g (x :: r) w ↔ ∃ u v, w = u ++ v ∧ Derives g [x] u ∧ Derives g r v :=
  derives_append_iff (r := [x])

/-! ### Words in pieces -/

/-- `Pieces P r w`: the word `w` falls into one piece for each symbol of `r`, related to it by `P`. -/
inductive Pieces (P : Symbol → List Char → Prop) : Rule → List Char → Prop
  | nil : Pieces P [] []
  | cons {x r u v} : P x u → Pieces P r v → Pieces P (x :: r) (u ++ v)

/-- The pieces of the empty word are empty. -/
theorem Pieces.forall_of_nil {P : Symbol → List Char → Prop} {r : Rule} (h : Pieces P r []) :
    ∀ x ∈ r, P x [] := by
  generalize hw : ([] : List Char) = w at h
  induction h with
  | nil => exact fun x hx => absurd hx List.not_mem_nil
  | cons hx _ ih =>
    obtain ⟨rfl, rfl⟩ := List.append_eq_nil_iff.mp hw.symm
    exact List.forall_mem_cons.mpr ⟨hx, ih rfl⟩

/-- Derivation is contained in every relation that holds between a terminal and its text and is closed under
the alternatives of the grammar. -/
theorem Derives.pieces {P : Symbol → List Char → Prop} (hterminal : ∀ t, P (.terminal t) t.toList)
    (hnonterminal : ∀ n body w, body ∈ g.alternatives n → Pieces P body w → P (.nonterminal n) w)
    {r : Rule} {w : List Char} (h : Derives g r w) : Pieces P r w := by
  induction h with
  | nil => exact .nil
  | terminal _ ih => exact .cons (hterminal _) ih
  | nonterminal hb _ _ ihBody ih => exact .cons (hnonterminal _ _ _ hb ihBody) ih

/-- If each symbol is rewritten to symbols that derive its pieces, then a rule is rewritten to one that derives
the whole word. -/
theorem Pieces.derives_flatMap {P : Symbol → List Char → Prop} {f : Symbol → Rule}
    (hf : ∀ x u, P x u → Derives g' (f x) u) {r : Rule} {w : List Char} (h : Pieces P r w) :
    Derives g' (r.flatMap f) w := by
  induction h with
  | nil => exact .nil
  | cons hx _ ih =>
    rw [List.flatMap_cons]
    exact (hf _ _ hx).append ih

theorem Pieces.derives_map {P : Symbol → List Char → Prop} {f : Symbol → Symbol}
    (hf : ∀ x u, P x u → Derives g' [f x] u) {r : Rule} {w : List Char} (h : Pieces P r w) :
    Derives g' (r.map f) w := by
  rw [List.map_eq_flatMap]
  exact h.derives_flatMap hf

/-- If the words of the renamed symbols are words of the symbols, then the pieces are. -/
theorem Pieces.of_map {P Q : Symbol → List Char → Prop} {f : Symbol → Symbol} (hf : ∀ x u, P (f x) u → Q x u)
    {r : Rule} {w : List Char} (h : Pieces P (r.map f) w) : Pieces Q r w := by
  induction r generalizing w with
  | nil =>
    cases h
    exact .nil
  | cons x r ih =>
    cases h with
    | cons hx hr => exact .cons (hf _ _ hx) (ih hr)

theorem Pieces.derives {P : Symbol → List Char → Prop} (hP : ∀ x u, P x u → Derives g' [x] u)
    {r : Rule} {w : List Char} (h : Pieces P r w) : Derives g' r w := by
  have hd : Derives g' (r.flatMap fun x => [x]) w := h.derives_flatMap hP
  rwa [List.flatMap_singleton'] at hd

/-- If whatever an alternative derives in `g'` is derived by its nonterminal there, then `g'` derives at least
what `g` derives. -/
theorem Derives.of_alternatives
    (h : ∀ n body w, body ∈ g.alternatives n → Derives g' body w → InLanguage g' n w)
    {r : Rule} {w : List Char} (hd : Derives g r w) : Derives g' r w := by
  refine Pieces.derives (P := fun x u => Derives g' [x] u) (fun _ _ hx => hx) (hd.pieces ?_ ?_)
  · intro t
    exact derives_terminal_iff.mpr rfl
  · intro n body w hb hw
    exact derives_singleton_iff.mpr (h n body w hb (hw.derives fun _ _ hx => hx))

/-- More alternatives derive more words. -/
theorem Derives.mono (h : ∀ n body, body ∈ g.alternatives n → body ∈ g'.alternatives n)
    {r : Rule} {w : List Char} (hd : Derives g r w) : Derives g' r w :=
  hd.of_alternatives fun n body _ hb hw => ⟨body, h n body hb, hw⟩

end Grammar

end GrammarInference
