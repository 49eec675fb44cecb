/-
GrammarInference/Proofs/Refinement/Narrowing.lean

Refinement only narrows a grammar, and keeps it valid.

Design.  Every name that an update defines stands for a nonterminal of the grammar: for itself, or, if it is
fresh, for the one that it was made from.  An alternative of such a definition resembles an alternative of that
nonterminal, symbol by symbol (`Restricts`).  This is all that is kept up through the search of a tree: a node
takes alternatives as they are, or puts in the place of one symbol a name that stands for it.  Then whatever a
name derives in the updated grammar, the nonterminal that it stands for derived before.

    InLanguage (g.overlay update) f w  →  InLanguage g n w      if f stands for n

Which nonterminal a fresh name was made from can only be told if all of them are written in brackets.
-/
import GrammarInference.Proofs.Earley.Deadline
import GrammarInference.Proofs.Grammar.Merging
import GrammarInference.Proofs.Refinement.Names
import GrammarInference.Proofs.Refinement.Rounds

namespace GrammarInference

namespace Grammar

/-- If symbols that resemble each other derive the same words, then so do rules. -/
theorem Pieces.derives_of_forall₂ {g : Grammar} {P : Symbol → Symbol → Prop} {r b : Rule} {w : List Char}
    (h : Pieces (fun x u => ∀ y, P x y → Derives g [y] u) r w) (hb : List.Forall₂ P r b) : Derives g b w := by
  induction hb generalizing w with
  | nil =>
    cases h
    exact .nil
  | cons hx _ ih =>
    cases h with
    | cons hu hrest => exact (hu _ hx).append (ih hrest)

end Grammar

namespace Refiner

open Grammar (Closed Valid InLanguage Derives Pieces)

variable {σ : Type} {g : Grammar} {R : Set String} {f n m : String} {r b : Rule} {rs : List Rule}

/-! ### What names stand for -/

/-- The names that a search comes upon, in a grammar that does not repeat alternatives. -/
structure Territory (g : Grammar) (R : Set String) : Prop where
  /-- They are defined, and mention only each other. -/
  closed : Closed g R
  /-- They are written in brackets. -/
  conventional : ∀ n ∈ R, isNonterminalName n = true
  /-- No definition lists an alternative twice. -/
  nodup : ∀ n, (g.alternatives n).Nodup

/-- The name `f` is `n`, or a fresh name for a refined `n`. -/
def StandsFor (g : Grammar) (f n : String) : Prop := f = n ∨ g.contains f = false ∧ ∃ k, f = refinedName n k

theorem StandsFor.eq_of_contains (h : StandsFor g f n) (hf : g.contains f = true) : f = n := by
  rcases h with rfl | ⟨hno, -⟩
  · rfl
  · rw [hf] at hno
    cases hno

/-- A name stands for one nonterminal only. -/
theorem StandsFor.unique (hR : Territory g R) (hn : n ∈ R) (hm : m ∈ R) (h : StandsFor g f n)
    (h' : StandsFor g f m) : n = m := by
  rcases h with rfl | ⟨hno, k, hk⟩
  · exact h'.eq_of_contains (hR.closed.defined f hn)
  · rcases h' with rfl | ⟨-, j, hj⟩
    · rw [hR.closed.defined f hm] at hno
      cases hno
    · exact (refinedName_inj (hR.conventional n hn) (hR.conventional m hm) (hk.symm.trans hj)).1

/-- The symbols are the same text, or a name and the nonterminal that it stands for. -/
inductive Resembles (g : Grammar) (R : Set String) : Symbol → Symbol → Prop
  | terminal (t : String) : Resembles g R (.terminal t) (.terminal t)
  | nonterminal {f n : String} (hn : n ∈ R) (h : StandsFor g f n) : Resembles g R (.nonterminal f) (.nonterminal n)

theorem resembles_self (hr : ∀ m, Symbol.nonterminal m ∈ r → m ∈ R) : List.Forall₂ (Resembles g R) r r := by
  rw [List.forall₂_same]
  intro x hx
  cases x with
  | terminal t => exact .terminal t
  | nonterminal m => exact .nonterminal (hr m hx) (.inl rfl)

/-- A symbol may be replaced by a name that stands for it. -/
theorem resembles_set {i : Nat} (hr : ∀ m, Symbol.nonterminal m ∈ r → m ∈ R)
    (hi : r[i]? = some (.nonterminal n)) (hf : StandsFor g f n) :
    List.Forall₂ (Resembles g R) (r.set i (.nonterminal f)) r := by
  induction r generalizing i with
  | nil => cases hi
  | cons x r ih =>
    have hself := resembles_self (g := g) hr
    have hrest : ∀ m, Symbol.nonterminal m ∈ r → m ∈ R := fun m hm => hr m (List.mem_cons_of_mem x hm)
    cases hself with
    | cons hx hxs =>
      cases i with
      | zero =>
        obtain rfl : x = .nonterminal n := Option.some.inj hi
        exact .cons (.nonterminal (hr n List.mem_cons_self) hf) hxs
      | succ i => exact .cons hx (ih hrest hi)

/-! ### Updates -/

/-- The update defines names that stand for nonterminals, by rules that resemble their alternatives. -/
structure Restricts (g : Grammar) (R : Set String) (update : Grammar) : Prop where
  /-- A defined name stands for a nonterminal, and its rules resemble alternatives of that. -/
  resembles : ∀ f rs, update.get? f = some rs → ∃ n ∈ R, StandsFor g f n ∧
    ∀ r ∈ rs, ∃ b ∈ g.alternatives n, List.Forall₂ (Resembles g R) r b
  /-- A fresh name that is mentioned is defined. -/
  defined : ∀ f, ∀ m ∈ update.mentions f, m ∈ R ∨ update.contains m = true
  /-- No definition lists a rule twice. -/
  nodup : ∀ f, (update.alternatives f).Nodup

variable {update : Grammar}

theorem restricts_empty (g : Grammar) (R : Set String) : Restricts g R ∅ where
  resembles := fun f rs h => by cases h
  defined := fun f m h => absurd h List.not_mem_nil
  nodup := fun f => List.nodup_nil

/-- A further definition, for `n`, by rules over what is defined. -/
structure Extension (g : Grammar) (R : Set String) (update : Grammar) (n : String) (rs : List Rule) : Prop where
  /-- The nonterminal belongs to the search. -/
  mem : n ∈ R
  /-- The rules resemble its alternatives. -/
  resembles : ∀ r ∈ rs, ∃ b ∈ g.alternatives n, List.Forall₂ (Resembles g R) r b
  /-- The rules mention what is defined. -/
  defined : ∀ r ∈ rs, ∀ m, Symbol.nonterminal m ∈ r → m ∈ R ∨ update.contains m = true
  /-- No rule is listed twice. -/
  nodup : rs.Nodup

theorem Restricts.insert (h : Restricts g R update) (he : Extension g R update n rs) (hf : StandsFor g f n) :
    Restricts g R (update.insert f rs) where
  resembles := by
    intro f' rs' hget
    rw [OrderedMap.get?_insert] at hget
    split at hget
    · rename_i heq
      cases hget
      exact ⟨n, he.mem, heq ▸ hf, he.resembles⟩
    · exact h.resembles f' rs' hget
  defined := by
    intro f' m hm
    obtain ⟨body, hbody, hmem⟩ := Grammar.mem_mentions_iff.mp hm
    have hor : m ∈ R ∨ update.contains m = true := by
      rw [Grammar.alternatives_insert] at hbody
      split at hbody
      · exact he.defined body hbody m hmem
      · exact h.defined f' m (Grammar.mem_mentions_of_mem hbody hmem)
    exact hor.imp_right fun hc => Grammar.contains_insert.mpr (.inr hc)
  nodup := by
    intro f'
    rw [Grammar.alternatives_insert]
    split
    · exact he.nodup
    · exact h.nodup f'

/-- What a name derives with the update, the nonterminal that it stands for derived without it. -/
theorem Restricts.inLanguage (hR : Territory g R) (h : Restricts g R update) (hn : n ∈ R) (hf : StandsFor g f n)
    {w : List Char} (hw : InLanguage (g.overlay update) f w) : InLanguage g n w := by
  -- on the derivation, for every symbol that the derived one may stand for
  have hpieces : Pieces (fun x u => ∀ y, Resembles g R x y → Derives g [y] u) [.nonterminal f] w := by
    apply (Grammar.derives_singleton_iff.mpr hw).pieces
    · rintro t - ⟨⟩
      exact Grammar.derives_terminal_iff.mpr rfl
    · intro k body u hbody hu y hy
      obtain ⟨m, hm, hk, rfl⟩ : ∃ m ∈ R, StandsFor g k m ∧ y = .nonterminal m := by
        cases hy with
        | nonterminal hm hk => exact ⟨_, hm, hk, rfl⟩
      apply Grammar.derives_singleton_iff.mpr
      rw [Grammar.alternatives_overlay] at hbody
      split at hbody
      · rename_i hc
        obtain ⟨rs, hrs⟩ := Option.isSome_iff_exists.mp hc
        obtain ⟨m', hm', hk', hres⟩ := h.resembles k rs hrs
        -- the definition was made for `m'`, and `k` stands for nothing else
        obtain rfl := hk'.unique hR hm' hm hk
        rw [Grammar.alternatives, hrs] at hbody
        obtain ⟨b, hb, hsim⟩ := hres body hbody
        exact ⟨b, hb, hu.derives_of_forall₂ hsim⟩
      · -- a name that is not defined anew is its own nonterminal
        obtain rfl := hk.eq_of_contains (Grammar.contains_of_mem_alternatives hbody)
        exact ⟨body, hbody, hu.derives_of_forall₂ (resembles_self fun _ => hR.closed.mem hm hbody)⟩
  cases hpieces with
  | cons hx hrest =>
    cases hrest
    rw [List.append_nil]
    exact Grammar.derives_singleton_iff.mp (hx _ (.nonterminal hn hf))

/-- With the update, what it defines belongs to the closed set as well. -/
theorem Restricts.closed (hR : Territory g R) (h : Restricts g R update) :
    Closed (g.overlay update) {n | n ∈ R ∨ update.contains n = true} where
  defined := by
    rintro n (hn | hn)
    · exact Grammar.contains_overlay_iff.mpr (.inl (hR.closed.defined n hn))
    · exact Grammar.contains_overlay_iff.mpr (.inr hn)
  mentions := by
    intro n hn m hm
    obtain ⟨body, hbody, hmem⟩ := Grammar.mem_mentions_iff.mp hm
    rw [Grammar.alternatives_overlay] at hbody
    split at hbody
    · exact h.defined n m (Grammar.mem_mentions_of_mem hbody hmem)
    · rename_i hno
      exact .inl (hR.closed.mem (hn.resolve_right hno) hbody hmem)

/-! ### Candidates -/

/-- The candidate is a refinement of `n`: if it was not accepted, it comes under a name that stands for `n`. -/
structure Fits (g : Grammar) (R : Set String) (n : String) (c : Candidate) : Prop where
  /-- The update only restricts. -/
  restricts : Restricts g R c.update
  /-- The name is defined by the update. -/
  name : c.accepted = false → StandsFor g c.name n ∧ c.update.contains c.name = true

variable {s s' : Search σ} {c : Candidate}

/-- A node proposes one more definition, under its own name or under a fresh one. -/
theorem propose_fits (h : Restricts g R update) (he : Extension g R update n rs) {quality : Nat}
    (hp : propose s g n quality (update.insert n rs) (fun name => update.insert name rs) = (c, s')) :
    Fits g R n c := by
  rcases propose_cases hp with ⟨r, -, rfl, rfl⟩ | ⟨r, -, rfl, rfl⟩
  · exact ⟨h.insert he (.inl rfl), fun hno => by cases hno⟩
  · have hfresh : StandsFor g (r.freshName g n).1 n := .inr ⟨contains_freshName r g n, _, rfl⟩
    exact ⟨h.insert he hfresh, fun _ => ⟨hfresh, Grammar.contains_insert.mpr (.inl rfl)⟩⟩

/-- Some alternatives of `n` are a definition for it. -/
theorem extension_of_sublist (hR : Territory g R) (hn : n ∈ R) (h : rs.Sublist (g.alternatives n)) :
    Extension g R update n rs where
  mem := hn
  resembles := fun r hr => ⟨r, h.subset hr, resembles_self fun _ => hR.closed.mem hn (h.subset hr)⟩
  defined := fun _ hr _ hm => .inl (hR.closed.mem hn (h.subset hr) hm)
  nodup := (hR.nodup n).sublist h

theorem map_fst_zip_sublist {α β : Type} (l : List α) (l' : List β) : ((l.zip l').map Prod.fst).Sublist l := by
  induction l generalizing l' with
  | nil => exact .slnil
  | cons a l ih =>
    cases l' with
    | nil => exact List.nil_sublist _
    | cons b l' => exact (ih l').cons_cons a

theorem refineAlternatives_fits (hR : Territory g R) (hn : n ∈ R) {root : NodeId} {path : List Nat}
    (h : refineAlternatives g root path n s = (.ok (some c), s')) : Fits g R n c := by
  rcases refineAlternatives_cases h with ⟨e, -, hnone⟩ | ⟨qualities, s₁, -, ⟨hnone, -⟩ | ⟨c', hp, hsome⟩⟩
  · cases hnone
  · cases hnone
  · cases hsome
    have hsub : (reaching (g.alternatives n) qualities (qualities.foldl max 0)).Sublist (g.alternatives n) :=
      (List.filter_sublist.map Prod.fst).trans (map_fst_zip_sublist _ _)
    exact propose_fits (restricts_empty g R) (extension_of_sublist hR hn hsub) hp

/-- A candidate of a child is used in the rule of its parent. -/
theorem refineInParent_fits (hR : Territory g R) (hn : n ∈ R) {current : Rule} {i : Nat} {child : Candidate}
    (hcurrent : current ∈ g.alternatives n) (hi : current[i]? = some (.nonterminal m)) (hchild : Fits g R m child)
    (hno : child.accepted = false) (h : refineInParent s g n current i child = (c, s')) : Fits g R n c := by
  obtain ⟨hstands, hdef⟩ := hchild.name hno
  rw [refineInParent] at h
  refine propose_fits hchild.restricts ⟨hn, ?_, ?_, nodup_distinct _⟩ h
  · intro r hr
    obtain ⟨b, hb, rfl⟩ := List.mem_map.mp (mem_distinct.mp hr)
    refine ⟨b, hb, ?_⟩
    have hb' : ∀ k, Symbol.nonterminal k ∈ b → k ∈ R := fun k => hR.closed.mem hn hb
    split
    · -- the rule that the node applies, with the child's name in the place of the child's symbol
      rename_i heq
      subst heq
      exact resembles_set hb' hi hstands
    · exact resembles_self hb'
  · intro r hr k hk
    obtain ⟨b, hb, rfl⟩ := List.mem_map.mp (mem_distinct.mp hr)
    split at hk
    · rcases List.mem_or_eq_of_mem_set hk with hk | hk
      · exact .inl (hR.closed.mem hn hcurrent hk)
      · cases hk
        exact .inr hdef
    · exact .inl (hR.closed.mem hn hb hk)

/-! ### The search of a tree -/

/-- The best candidate so far refines the symbol that stands at its number in the rule. -/
def BestFits (g : Grammar) (R : Set String) (rule : Rule) (best : Option (Nat × Candidate)) : Prop :=
  ∀ i c, best = some (i, c) →
    ∃ m, rule[i]? = some (.nonterminal m) ∧ c.accepted = false ∧ Fits g R m c

theorem BestFits.better {rule : Rule} {best : Option (Nat × Candidate)} {i : Nat} (h : BestFits g R rule best)
    (hi : rule[i]? = some (.nonterminal m)) (hno : c.accepted = false) (hc : Fits g R m c) :
    BestFits g R rule (better best i c) := by
  have hnew : BestFits g R rule (some (i, c)) := by
    intro j c' heq
    cases heq
    exact ⟨m, hi, hno, hc⟩
  rw [Refiner.better.eq_def]
  split
  · exact hnew
  · split
    · exact hnew
    · exact h

/-- What the children offer fits the rule that they are the children of. -/
def OfferFits (g : Grammar) (R : Set String) (rule : Rule) : Offer → Prop
  | .accepted c => c.accepted = true ∧ Restricts g R c.update
  | .best b => BestFits g R rule b

mutual

/-- What the search of a derivation tree offers is a refinement of the symbol at its root. -/
theorem searchTree_fits (hR : Territory g R) {root : NodeId} {path : List Nat} {t : Tree} {s s' : Search σ}
    {c : Candidate} (ht : t.isDerivation g = true) (hroot : ∀ m, t.symbol = .nonterminal m → m ∈ R)
    (h : searchTree g root path t s = (.ok (some c), s')) : ∃ m, t.symbol = .nonterminal m ∧ Fits g R m c := by
  match t with
  | .node (.terminal _) _ =>
    obtain ⟨hnone, -⟩ := searchTree_terminal h
    cases hnone
  | .node (.nonterminal n) ts =>
    have hn : n ∈ R := hroot n rfl
    obtain ⟨hrule, hders⟩ := Tree.isDerivation_nonterminal_iff.mp ht
    have hchildren : ∀ {offer s₁}, searchChildren g root path 0 none ts s = (.ok offer, s₁) →
        OfferFits g R (ts.map Tree.symbol) offer := by
      intro offer s₁ hch
      exact searchChildren_fits hR hders (fun m => hR.closed.mem hn hrule) (List.drop_zero)
        (fun i c hnone => by cases hnone) hch
    refine ⟨n, rfl, ?_⟩
    rcases searchTree_cases h with ⟨e, -, herror⟩ | ⟨c', hch, hsome⟩ | ⟨i, c', c'', s₁, hch, -, hp, hsome⟩ |
      ⟨best, s₁, -, -, halternatives⟩
    · cases herror
    · -- a candidate that was accepted below is handed up as it is
      cases hsome
      obtain ⟨haccepted, hrestricts⟩ := hchildren hch
      exact ⟨hrestricts, fun hno => by rw [haccepted] at hno; cases hno⟩
    · cases hsome
      obtain ⟨m, hi, hno, hc⟩ := hchildren hch i c' rfl
      exact refineInParent_fits hR hn hrule hi hc hno hp
    · exact refineAlternatives_fits hR hn halternatives

theorem searchChildren_fits (hR : Territory g R) {root : NodeId} {path : List Nat} {i : Nat}
    {best : Option (Nat × Candidate)} {ts : List Tree} {s s' : Search σ} {offer : Offer} {rule : Rule}
    (hders : Tree.areDerivations g ts = true) (hrule : ∀ m, Symbol.nonterminal m ∈ rule → m ∈ R)
    (hdrop : rule.drop i = ts.map Tree.symbol) (hbest : BestFits g R rule best)
    (h : searchChildren g root path i best ts s = (.ok offer, s')) : OfferFits g R rule offer := by
  match ts with
  | [] =>
    obtain ⟨hoffer, -⟩ := searchChildren_nil h
    cases hoffer
    exact hbest
  | t :: ts =>
    obtain ⟨ht, hrest⟩ := Tree.areDerivations_cons_iff.mp hders
    rw [List.map_cons] at hdrop
    have hi : rule[i]? = some t.symbol := by
      rw [← List.head?_drop, hdrop]
      rfl
    have hdrop' : rule.drop (i + 1) = ts.map Tree.symbol := by
      rw [← List.tail_drop, hdrop]
      rfl
    have htree : ∀ {c s₁}, searchTree g root (path ++ [i]) t s = (.ok (some c), s₁) →
        ∃ m, t.symbol = .nonterminal m ∧ Fits g R m c :=
      fun hs => searchTree_fits hR ht (fun m hm => hrule m (hm ▸ List.mem_of_getElem? hi)) hs
    rcases searchChildren_cases h with ⟨e, -, herror⟩ | ⟨s₁, -, hlater⟩ | ⟨c, hs, haccepted, hoffer⟩ |
      ⟨c, s₁, hs, hno, hlater⟩
    · cases herror
    · exact searchChildren_fits hR hrest hrule hdrop' hbest hlater
    · cases hoffer
      obtain ⟨m, -, hc⟩ := htree hs
      exact ⟨haccepted, hc.restricts⟩
    · obtain ⟨m, hm, hc⟩ := htree hs
      exact searchChildren_fits hR hrest hrule hdrop' (hbest.better (hm ▸ hi) hno hc) hlater

end

/-! ### Committing -/

/-- The grammar `g'` is a valid one that derives no more than `g`, and its new names are written in brackets. -/
structure Narrowed (g g' : Grammar) : Prop where
  /-- The new grammar is valid. -/
  valid : Valid g'
  /-- A name is old or in brackets. -/
  conventional : ∀ n, g'.contains n = true → g.contains n = true ∨ isNonterminalName n = true
  /-- Nothing new is derived. -/
  inLanguage : ∀ w, InLanguage g' startName w → InLanguage g startName w

theorem Narrowed.refl (hg : Valid g) : Narrowed g g := ⟨hg, fun _ h => .inl h, fun _ h => h⟩

theorem Narrowed.trans {g' g'' : Grammar} (h : Narrowed g g') (h' : Narrowed g' g'') : Narrowed g g'' where
  valid := h'.valid
  conventional := fun n hn => (h'.conventional n hn).elim (h.conventional n) .inr
  inLanguage := fun w hw => h.inLanguage w (h'.inLanguage w hw)

/-- Merging an update that restricts narrows the grammar. -/
theorem Restricts.narrowed_commit (hR : Territory g R) (hs : startName ∈ R) (h : Restricts g R update) :
    Narrowed g (commit g update) where
  valid := by
    refine Valid.pruneUnreachable (Valid.dedup ((h.closed hR).valid (.inl hs) fun n => ?_))
    rw [Grammar.alternatives_overlay]
    split
    · exact h.nodup n
    · exact hR.nodup n
  conventional := by
    intro n hn
    have hmerged := Grammar.contains_of_contains_dedupWithin (Grammar.contains_pruneUnreachable_iff.mp hn).2
    rcases Grammar.contains_overlay_iff.mp hmerged with hold | hnew
    · exact .inl hold
    · obtain ⟨rs, hrs⟩ := Option.isSome_iff_exists.mp hnew
      obtain ⟨m, hm, rfl | ⟨-, k, rfl⟩, -⟩ := h.resembles n rs hrs
      · exact .inl (hR.closed.defined n hm)
      · exact .inr (isNonterminalName_refinedName m k)
  inLanguage := fun w hw => h.inLanguage hR hs (.inl rfl) (inLanguage_commit_iff.mp hw)

/-! ### Runs -/

variable {x y : Refiner σ}

/-- Refinement for an input narrows the grammar. -/
theorem refineForInput_narrowed (hg : Valid g)
    (hnames : ∀ n ∈ g.reachableFrom startName, isNonterminalName n = true) {input : String} {seed : Nat}
    {g' : Grammar} (h : x.refineForInput g input seed = (.ok (some g'), y)) : Narrowed g g' := by
  have hR : Territory g {n | n ∈ g.reachableFrom startName} := ⟨hg.closed, hnames, hg.nodup⟩
  have hs : startName ∈ {n | n ∈ g.reachableFrom startName} := Grammar.mem_reachableFrom_self hg.start
  rcases refineForInput_cases h with ⟨-, hnone, -⟩ | ⟨root, arena, found, s₁, hparse, hsearch, hfound, -⟩
  · cases hnone
  · obtain ⟨c, rfl, -, rfl⟩ := exists_candidate_of_committed hfound.symm
    obtain ⟨t, hstore, hder, hroot, -⟩ := Earley.isTree_of_parseFrom hparse
    rw [hstore.treeAt_eq] at hsearch
    obtain ⟨m, -, hfits⟩ := searchTree_fits hR hder (fun m hm => by rw [hroot] at hm; cases hm; exact hs) hsearch
    exact hfits.restricts.narrowed_commit hR hs

/-- Some refiner refines `g` to `g'`, for some input. -/
def Step (σ : Type) (g g' : Grammar) : Prop :=
  ∃ (x y : Refiner σ) (input : String) (seed : Nat), x.refineForInput g input seed = (.ok (some g'), y)

theorem step_of_firstRefined {seed i : Nat} {inputs : List String} {g' : Grammar}
    (h : firstRefined g seed i inputs x = (.ok (some g'), y)) : Step σ g g' := by
  induction inputs generalizing i x with
  | nil => cases h
  | cons input rest ih =>
    rcases firstRefined_cases h with ⟨-, hnone, -⟩ | ⟨-, ⟨e, -, herror⟩ | ⟨refined, hone, -, hsome⟩ |
      ⟨found, r₁, -, -, hrest⟩⟩
    · cases hnone
    · cases herror
    · cases hsome
      exact ⟨x, y, input, _, hone⟩
    · exact ih hrest

theorem step_of_refineOnce {k : Nat} {g' : Grammar} {p : Option Float}
    (h : x.refineOnce g k = (.ok (.refined g' p), y)) : Step σ g g' := by
  obtain ⟨r₁, seed, inputs, -, hfirst⟩ := firstRefined_of_refineOnce h
  exact step_of_firstRefined hfirst

/-- The grammar that a run reports comes about by steps. -/
theorem steps_of_refineWithin {left k : Nat} {history : List Float} {report : Report}
    (h : refineWithin left x g k history = (.ok report, y)) : Relation.ReflTransGen (Step σ) g report.grammar := by
  induction left generalizing x g k history with
  | zero =>
    obtain ⟨-, why, hconclude⟩ | ⟨-, -, left', hleft, -⟩ := refineWithin_cases h
    · rw [(conclude_spec hconclude).2]
    · cases hleft
  | succ left ih =>
    rcases refineWithin_cases h with ⟨-, why, hconclude⟩ | ⟨-, -, left', hleft, hround⟩
    · rw [(conclude_spec hconclude).2]
    · cases hleft
      rcases hround with ⟨e, -, heq⟩ | ⟨round, x₁, why, history', -, -, hconclude⟩ |
        ⟨g', p, x₁, hone, hsaved⟩
      · cases heq
      · rw [(conclude_spec hconclude).2]
      · rcases hsaved with ⟨e, -, heq, -⟩ | ⟨x₂, history', -, hrest⟩
        · cases heq
        · exact .head (step_of_refineOnce hone) (ih hrest)

/-- Steps narrow a grammar whose names are all written in brackets. -/
theorem narrowed_of_steps {g' : Grammar} (h : Relation.ReflTransGen (Step σ) g g') (hg : Valid g)
    (hkeys : ∀ n ∈ g.keys, isNonterminalName n = true) : Narrowed g g' := by
  induction h with
  | refl => exact .refl hg
  | tail _ hstep ih =>
    obtain ⟨x, y, input, seed, hone⟩ := hstep
    -- the names so far are old ones or fresh ones, and both are written in brackets
    refine ih.trans (refineForInput_narrowed ih.valid (fun n hn => ?_) hone)
    rcases ih.conventional n (ih.valid.closed.defined n hn) with hold | hnew
    · exact hkeys n (OrderedMap.contains_iff_mem_keys.mp hold)
    · exact hnew

/-- **Refinement narrows.**  If the names that the start symbol of a valid grammar reaches are written in
brackets, then a grammar refined for an input is valid and derives nothing new, whatever the oracle answers and
the refiner knows; and so for the grammar that a run reports, if all defined names are written in brackets.  Within a
run the clock stands still, so a deadline is met at the first look or never; the first part holds of any refiner, one
without time or one that is cancelled included. -/
theorem refinement_narrows (hg : g.validate = .ok ())
    (hnames : ∀ n ∈ g.reachableFrom startName, isNonterminalName n = true) :
    (∀ (x y : Refiner σ) input seed g', x.refineForInput g input seed = (.ok (some g'), y) →
      g'.validate = .ok () ∧ ∀ w, InLanguage g' startName w → InLanguage g startName w) ∧
    ((∀ n ∈ g.keys, isNonterminalName n = true) →
      ∀ (x y : Refiner σ) report, x.refine g = (.ok report, y) →
        report.grammar.validate = .ok () ∧
          ∀ w, InLanguage report.grammar startName w → InLanguage g startName w) := by
  have hvalid := Grammar.validate_eq_ok_iff.mp hg
  constructor
  · intro x y input seed g' h
    have hnarrowed := refineForInput_narrowed hvalid hnames h
    exact ⟨Grammar.validate_eq_ok_iff.mpr hnarrowed.valid, hnarrowed.inLanguage⟩
  · intro hkeys x y report h
    have hnarrowed := narrowed_of_steps (steps_of_refineWithin h) hvalid hkeys
    exact ⟨Grammar.validate_eq_ok_iff.mpr hnarrowed.valid, hnarrowed.inLanguage⟩

/-- A refiner that knows one input, which is the only one that its oracle accepts. -/
def asking (w : String) : Refiner Unit :=
  addValid (new (.ofFunction fun v => if v = w then .accept else .reject) () { probesPerAlternative := 1 } false [])
    [w]

/-- A first letter that is refined under a fresh name, for one input and in a run. -/
theorem refinement_of_letterPairs : letterPairs.validate = .ok () ∧
    (∃ g' y, (asking "ab").refineForInput letterPairs "bb" 1 = (.ok (some g'), y) ∧
      g'.validate = .ok () ∧ ∀ w, InLanguage g' startName w → InLanguage letterPairs startName w) ∧
    ∃ report y, choosing.refine letterPairs = (.ok report, y) ∧ report.grammar.validate = .ok () := by
  have hvalid : letterPairs.validate = .ok () := by decide +kernel
  have hnames : ∀ n ∈ letterPairs.reachableFrom startName, isNonterminalName n = true := by decide +kernel
  have hkeys : ∀ n ∈ letterPairs.keys, isNonterminalName n = true := by decide +kernel
  obtain ⟨hinput, hrun⟩ := refinement_narrows (σ := Unit) hvalid hnames
  refine ⟨hvalid, ?_, ?_⟩
  · have hsome : (((asking "ab").refineForInput letterPairs "bb" 1).1.toOption.bind id).isSome = true := by
      decide +kernel
    rcases h : (asking "ab").refineForInput letterPairs "bb" 1 with ⟨e | - | g', y⟩
    · rw [h] at hsome
      cases hsome
    · rw [h] at hsome
      cases hsome
    · exact ⟨g', y, rfl, hinput _ y "bb" 1 g' h⟩
  · have hok : (choosing.refine letterPairs).1.isOk = true := by decide +kernel
    rcases h : choosing.refine letterPairs with ⟨e | report, y⟩
    · rw [h] at hok
      cases hok
    · exact ⟨report, y, rfl, (hrun hkeys _ y report h).1⟩

end Refiner

end GrammarInference
