/-
GrammarInference/Proofs/Grammar/Meaning.lean

Tidying changes no language.

Design.  A step of tidying loses nothing, for any rule (`IncludedIn`).  That it gains nothing is another matter:
the name that factoring chooses for an optional part may be mentioned already without being defined, and gains
words when it is defined.  No name of a closed set mentions such a name, so closed sets are where nothing is
gained either.  After the step the set may have to grow by the name of the optional part to be closed again,
and the set that comes out is the one from which the next step starts (`Preserves`).

    InLanguage g' n w  ↔  InLanguage g n w      for every n that is reachable from the start symbol of g
-/
import GrammarInference.Proofs.Grammar.Tidy
import GrammarInference.Proofs.Grammar.Validity

namespace GrammarInference

namespace Grammar

variable {g g' g'' : Grammar} {n m : String} {r : Rule} {w : List Char} {R : Set String}

/-- What the names of a closed set derive is the same in `g'`, and they belong to a closed set there. -/
def Preserves (g g' : Grammar) : Prop :=
  ∀ R, Closed g R → ∃ R', R ⊆ R' ∧ Closed g' R' ∧ ∀ n ∈ R, ∀ w, InLanguage g' n w ↔ InLanguage g n w

theorem Preserves.refl (g : Grammar) : Preserves g g :=
  fun R hR => ⟨R, fun _ h => h, hR, fun _ _ _ => Iff.rfl⟩

theorem Preserves.trans (h : Preserves g g') (h' : Preserves g' g'') : Preserves g g'' := by
  intro R hR
  obtain ⟨R', hsub, hR', hiff⟩ := h R hR
  obtain ⟨R'', hsub', hR'', hiff'⟩ := h' R' hR'
  refine ⟨R'', fun k hk => hsub' (hsub hk), hR'', ?_⟩
  intro n hn w
  exact (hiff' n (hsub hn) w).trans (hiff n hn w)

/-! ### Inlining -/

/-- If each symbol derives what the symbols in its place derive, then so does the whole rule. -/
theorem derives_of_flatMap {f : Symbol → Rule} (hf : ∀ x u, Derives g (f x) u → Derives g [x] u)
    (h : Derives g (r.flatMap f) w) : Derives g r w := by
  induction r generalizing w with
  | nil => exact h
  | cons x r ih =>
    rw [List.flatMap_cons] at h
    obtain ⟨u, v, rfl, hu, hv⟩ := derives_append_iff.mp h
    exact (hf x u hu).append (ih hv)

theorem derives_of_inlineSymbol {x : Symbol} (h : Derives g (inlineSymbol g.inlineBodies x) w) :
    Derives g [x] w := by
  cases x with
  | terminal t => exact h
  | nonterminal n =>
    rw [inlineSymbol] at h
    rcases hfind : OrderedMap.find n g.inlineBodies with - | body
    · rwa [hfind] at h
    · -- the body is the alternative that its nonterminal has
      rw [hfind, Option.getD_some] at h
      apply derives_singleton_iff.mpr
      refine ⟨body, ?_, h⟩
      rw [alternatives_of_find_inlineBodies hfind]
      exact List.mem_singleton_self body

/-- Inlining gains nothing: each alternative derives what one that it came from derives. -/
theorem includedIn_of_inlineAt (g : Grammar) : IncludedIn (inlineAt g.inlineBodies g) g := by
  intro r w hd
  apply hd.of_alternatives
  intro n body w hbody hd'
  rw [alternatives_inlineAt] at hbody
  split at hbody
  · exact ⟨body, hbody, hd'⟩
  · obtain ⟨b, hb, rfl⟩ := List.mem_map.mp (mem_distinct.mp hbody)
    rw [inlineInto_eq] at hd'
    exact ⟨b, hb, derives_of_flatMap (fun x u => derives_of_inlineSymbol) hd'⟩

/-- A name in the place of a symbol is the symbol itself, or a name in the body that was put there. -/
theorem mem_inlineSymbol_iff {bodies : List (String × Rule)} {x : Symbol} :
    Symbol.nonterminal m ∈ inlineSymbol bodies x ↔
      ∃ n, x = .nonterminal n ∧ (OrderedMap.find n bodies = none ∧ m = n ∨
        ∃ body, OrderedMap.find n bodies = some body ∧ Symbol.nonterminal m ∈ body) := by
  cases x with
  | terminal t => simp [inlineSymbol]
  | nonterminal n =>
    rw [inlineSymbol]
    rcases hfind : OrderedMap.find n bodies with - | body <;> simp [hfind]

theorem mem_inlineInto_iff {bodies : List (String × Rule)} :
    Symbol.nonterminal m ∈ inlineInto bodies r ↔
      ∃ n, Symbol.nonterminal n ∈ r ∧ (OrderedMap.find n bodies = none ∧ m = n ∨
        ∃ body, OrderedMap.find n bodies = some body ∧ Symbol.nonterminal m ∈ body) := by
  rw [inlineInto_eq, List.mem_flatMap]
  constructor
  · rintro ⟨x, hx, hm⟩
    obtain ⟨n, rfl, hn⟩ := mem_inlineSymbol_iff.mp hm
    exact ⟨n, hx, hn⟩
  · rintro ⟨n, hn, hm⟩
    exact ⟨_, hn, mem_inlineSymbol_iff.mpr ⟨n, rfl, hm⟩⟩

theorem contains_inlineAt (bodies : List (String × Rule)) (g : Grammar) (n : String) :
    (inlineAt bodies g).contains n = g.contains n := by
  simp [OrderedMap.contains, inlineAt]

/-- A closed set stays closed: the bodies mention names that their nonterminals mentioned. -/
theorem Closed.inlineAt (h : Closed g R) : Closed (inlineAt g.inlineBodies g) R where
  defined := by
    intro n hn
    rw [contains_inlineAt]
    exact h.defined n hn
  mentions := by
    intro n hn m hm
    obtain ⟨body, hbody, hmem⟩ := mem_mentions_iff.mp hm
    rw [alternatives_inlineAt] at hbody
    split at hbody
    · exact h.mem hn hbody hmem
    · obtain ⟨b, hb, rfl⟩ := List.mem_map.mp (mem_distinct.mp hbody)
      obtain ⟨k, hk, ⟨-, rfl⟩ | ⟨body, hfind, hmem⟩⟩ := mem_inlineInto_iff.mp hmem
      · exact h.mem hn hb hk
      · have hbody : body ∈ g.alternatives k := by
          rw [alternatives_of_find_inlineBodies hfind]
          exact List.mem_singleton_self body
        exact h.mem (h.mem hn hb hk) hbody hmem

theorem preserves_inlineSingles (g : Grammar) : Preserves g (inlineSingles g).1 := by
  rw [inlineSingles]
  split
  · exact .refl g
  · intro R hR
    refine ⟨R, fun _ h => h, hR.inlineAt, ?_⟩
    intro n _ w
    exact ⟨(includedIn_of_inlineAt g).inLanguage, (inlineAt_includedIn g).inLanguage⟩

/-! ### Merging -/

section

variable {o : OptionalPart} {u v : Rule}

/-- An alternative after merging is one from before, or the merged one. -/
theorem OptionalPart.Splits.mem_or_eq_merged (ho : o.Splits (g.alternatives n) u v)
    (hr : r ∈ (g.mergeOptional n o).alternatives n) :
    r ∈ g.alternatives n ∨ r = u ++ .nonterminal (g.optionalName o.name) :: v := by
  rw [alternatives_mergeOptional, if_pos rfl, mem_distinct] at hr
  obtain ⟨i, hi⟩ := List.mem_iff_getElem?.mp (List.mem_of_mem_eraseIdx hr)
  by_cases hlong : i = o.long
  · rw [hlong, ho.getElem?_withMerged_long] at hi
    exact .inr (Option.some.inj hi).symm
  · rw [ho.getElem?_withMerged hlong] at hi
    exact .inl (List.mem_of_getElem? hi)

/-- The definitions of other names than the optional part stay as they are. -/
theorem alternatives_mergeOptional_of_ne (hn : n ≠ m) (hopt : g.optionalName o.name ≠ m) :
    (g.mergeOptional n o).alternatives m = g.alternatives m := by
  rw [alternatives_mergeOptional, if_neg hn, withOptional, alternatives_insert, if_neg hopt]

theorem contains_mergeOptional_iff : (g.mergeOptional n o).contains m = true ↔
    n = m ∨ g.optionalName o.name = m ∨ g.contains m = true := by
  have h : (g.mergeOptional n o).contains m = true ↔ n = m ∨ (g.withOptional o.name).contains m = true :=
    contains_insert
  rw [h, withOptional, contains_insert]

/-- A name for optional parts that is defined already is defined as one. -/
theorem alternatives_optionalName_of_contains {k : String} (h : g.contains (g.optionalName k) = true) :
    g.alternatives (g.optionalName k) = optionalRules k := by
  rcases get?_of_isFreeFor (g.isFreeFor_optionalName k) with hget | hget
  · rw [OrderedMap.contains, hget] at h
    cases h
  · rw [alternatives, hget]
    rfl

/-- The closed set with the name of the optional part, if that is now mentioned in it. -/
def withPart (R : Set String) (g : Grammar) (n : String) (o : OptionalPart) : Set String :=
  {m | m ∈ R ∨ n ∈ R ∧ m = g.optionalName o.name}

theorem OptionalPart.Splits.name_mem (ho : o.Splits (g.alternatives n) u v) (hR : Closed g R) (hn : n ∈ R) :
    o.name ∈ R :=
  hR.mem hn (List.mem_of_getElem? ho.long) (List.mem_append_right u List.mem_cons_self)

theorem OptionalPart.Splits.closed (ho : o.Splits (g.alternatives n) u v) (hR : Closed g R) :
    Closed (g.mergeOptional n o) (withPart R g n o) where
  defined := by
    rintro m (hm | ⟨-, rfl⟩)
    · exact contains_mergeOptional_iff.mpr (.inr (.inr (hR.defined m hm)))
    · exact contains_mergeOptional_iff.mpr (.inr (.inl rfl))
  mentions := by
    intro m hm k hk
    obtain ⟨body, hbody, hmem⟩ := mem_mentions_iff.mp hk
    by_cases hopt : g.optionalName o.name = m
    · -- the optional part mentions the inserted nonterminal
      subst hopt
      rw [ho.alternatives_optionalName] at hbody
      have hk : k = o.name := by
        simp only [optionalRules, List.mem_cons, List.not_mem_nil, or_false] at hbody
        rcases hbody with rfl | rfl
        · simp [Symbol.epsilon] at hmem
        · simpa using hmem
      rw [hk]
      rcases hm with hm | ⟨hn, -⟩
      · left
        have hold := alternatives_optionalName_of_contains (hR.defined _ hm)
        refine hR.mem hm (r := [.nonterminal o.name]) ?_ List.mem_cons_self
        rw [hold, optionalRules]
        exact List.mem_cons_of_mem _ (List.mem_singleton_self _)
      · exact .inl (ho.name_mem hR hn)
    · have hmR : m ∈ R := hm.resolve_right fun h => hopt h.2.symm
      by_cases hn : n = m
      · subst hn
        rcases ho.mem_or_eq_merged hbody with hbody | rfl
        · exact .inl (hR.mem hmR hbody hmem)
        · simp only [List.mem_append, List.mem_cons, Symbol.nonterminal.injEq] at hmem
          rcases hmem with hmem | rfl | hmem
          · exact .inl (hR.mem hmR (List.mem_of_getElem? ho.short) (List.mem_append_left v hmem))
          · exact .inr ⟨hmR, rfl⟩
          · exact .inl (hR.mem hmR (List.mem_of_getElem? ho.short) (List.mem_append_right u hmem))
      · rw [alternatives_mergeOptional_of_ne hn hopt] at hbody
        exact .inl (hR.mem hmR hbody hmem)

/-- What a symbol may derive after merging: a name of the closed set what it derived, and the optional part
nothing or what the inserted nonterminal derived. -/
def Merged (g : Grammar) (R : Set String) (o : OptionalPart) : Symbol → List Char → Prop
  | .terminal t, u => u = t.toList
  | .nonterminal m, u => (m ∈ R → InLanguage g m u) ∧
      (m = g.optionalName o.name → o.name ∈ R → u = [] ∨ InLanguage g o.name u)

/-- A rule over the closed set derives what its symbols derived. -/
theorem Pieces.derives_of_merged (h : Pieces (Merged g R o) r w)
    (hr : ∀ m, Symbol.nonterminal m ∈ r → m ∈ R) : Derives g r w := by
  induction h with
  | nil => exact .nil
  | @cons x r u v hx _ ih =>
    have hrest := ih fun m hm => hr m (List.mem_cons_of_mem x hm)
    cases x with
    | terminal t =>
      obtain rfl : u = t.toList := hx
      exact .terminal hrest
    | nonterminal m =>
      obtain ⟨body, hb, hd⟩ := hx.1 (hr m List.mem_cons_self)
      exact .nonterminal hb hd hrest

theorem Pieces.of_append {P : Symbol → List Char → Prop} {s : Rule} (h : Pieces P (r ++ s) w) :
    ∃ a b, w = a ++ b ∧ Pieces P r a ∧ Pieces P s b := by
  induction r generalizing w with
  | nil => exact ⟨[], w, rfl, .nil, h⟩
  | cons x r ih =>
    cases h with
    | cons hx hr =>
      obtain ⟨a, b, rfl, ha, hb⟩ := ih hr
      exact ⟨_, b, (List.append_assoc _ _ _).symm, .cons hx ha, hb⟩

/-- The merged alternative gains nothing: one of the two that it came from derives its words. -/
theorem OptionalPart.Splits.inLanguage_of_merged (ho : o.Splits (g.alternatives n) u v) (hR : Closed g R)
    (hn : n ∈ R) (h : Pieces (Merged g R o) (u ++ .nonterminal (g.optionalName o.name) :: v) w) :
    InLanguage g n w := by
  have hshort := List.mem_of_getElem? ho.short
  have hlong := List.mem_of_getElem? ho.long
  have hu : ∀ m, Symbol.nonterminal m ∈ u → m ∈ R := fun m hm => hR.mem hn hshort (List.mem_append_left v hm)
  have hv : ∀ m, Symbol.nonterminal m ∈ v → m ∈ R := fun m hm => hR.mem hn hshort (List.mem_append_right u hm)
  obtain ⟨a, b, rfl, ha, hb⟩ := h.of_append
  cases hb with
  | cons hx hrest =>
    have hda := ha.derives_of_merged hu
    have hdv := hrest.derives_of_merged hv
    rcases hx.2 rfl (ho.name_mem hR hn) with rfl | hname
    · exact ⟨_, hshort, hda.append hdv⟩
    · exact ⟨_, hlong, hda.append (derives_nonterminal_cons_iff.mpr ⟨_, _, rfl, hname, hdv⟩)⟩

/-- After merging, symbols derive what they may. -/
theorem OptionalPart.Splits.merged_of_derives (ho : o.Splits (g.alternatives n) u v) (hR : Closed g R)
    (h : Derives (g.mergeOptional n o) r w) : Pieces (Merged g R o) r w := by
  apply h.pieces
  · intro t
    rfl
  · intro m body w hbody hpieces
    by_cases hopt : g.optionalName o.name = m
    · subst hopt
      rw [ho.alternatives_optionalName, optionalRules] at hbody
      have hword : o.name ∈ R → w = [] ∨ InLanguage g o.name w := by
        intro hname
        simp only [List.mem_cons, List.not_mem_nil, or_false] at hbody
        rcases hbody with rfl | rfl
        · left
          cases hpieces with
          | cons hx hrest =>
            cases hrest
            obtain rfl := hx
            rfl
        · right
          apply derives_singleton_iff.mp
          exact hpieces.derives_of_merged fun k hk => by
            simp only [List.mem_singleton, Symbol.nonterminal.injEq] at hk
            rwa [hk]
      refine ⟨fun hmR => ?_, fun _ => hword⟩
      -- a name of the closed set was defined as the optional part before
      have hold := alternatives_optionalName_of_contains (hR.defined _ hmR)
      refine inLanguage_optional hold (hword (hR.mem hmR (r := [.nonterminal o.name]) ?_ List.mem_cons_self))
      rw [hold, optionalRules]
      exact List.mem_cons_of_mem _ (List.mem_singleton_self _)
    · refine ⟨fun hmR => ?_, fun h => absurd h.symm hopt⟩
      by_cases hn : n = m
      · subst hn
        rcases ho.mem_or_eq_merged hbody with hbody | rfl
        · exact ⟨body, hbody, hpieces.derives_of_merged fun k => hR.mem hmR hbody⟩
        · exact ho.inLanguage_of_merged hR hmR hpieces
      · rw [alternatives_mergeOptional_of_ne hn hopt] at hbody
        exact ⟨body, hbody, hpieces.derives_of_merged fun k => hR.mem hmR hbody⟩

/-- Merging two alternatives preserves what they mean. -/
theorem OptionalPart.Splits.preserves (ho : o.Splits (g.alternatives n) u v) :
    Preserves g (g.mergeOptional n o) := by
  intro R hR
  refine ⟨withPart R g n o, fun m hm => .inl hm, ho.closed hR, ?_⟩
  intro m hm w
  constructor
  · intro h
    cases ho.merged_of_derives hR (derives_singleton_iff.mpr h) with
    | cons hx hrest =>
      cases hrest
      rw [List.append_nil]
      exact hx.1 hm
  · exact ho.includedIn.inLanguage

end

/-! ### Factoring and tidying -/

theorem preserves_factorOptionals (g : Grammar) : Preserves g (factorOptionals g).1 := by
  refine factorOptionals_induction (P := Preserves g) ?_ (.refl g)
  intro g₁ n o u v ho hg₁
  exact hg₁.trans ho.preserves

theorem preserves_tidyWithin {passes rounds : Nat} (h : tidyWithin passes rounds g = some g') :
    Preserves g g' := by
  refine tidyWithin_induction (P := Preserves g) ?_ ?_ (.refl g) h
  · intro g₁ n o u v ho hg₁
    exact hg₁.trans ho.preserves
  · intro g₁ hg₁
    exact hg₁.trans (preserves_inlineSingles g₁)

/-- The start symbol and all that it reaches derive the same strings in both grammars. -/
def SameMeaning (g g' : Grammar) : Prop :=
  ∀ n, n = startName ∨ n ∈ g.reachableFrom startName → ∀ w, InLanguage g' n w ↔ InLanguage g n w

theorem Preserves.sameMeaning (h : Preserves g g') (hg : g.Valid) : SameMeaning g g' := by
  obtain ⟨R', -, -, hiff⟩ := h _ hg.closed
  rintro n (rfl | hn) w
  · exact hiff startName (mem_reachableFrom_self hg.start) w
  · exact hiff n hn w

/-- **Tidying preserves meaning.**  In a valid grammar, neither a pass of inlining nor a call of factoring
changes what is derived from the start symbol or from a name that it reaches; and so for tidying, whatever the
numbers of passes and rounds after which it would be cut off. -/
theorem tidying_preserves_meaning (hg : g.validate = .ok ()) :
    SameMeaning g (inlineSingles g).1 ∧ SameMeaning g (factorOptionals g).1 ∧
      (∀ g', tidy g = some g' → SameMeaning g g') ∧
      ∀ passes rounds g', tidyWithin passes rounds g = some g' → SameMeaning g g' := by
  have hvalid := validate_eq_ok_iff.mp hg
  refine ⟨(preserves_inlineSingles g).sameMeaning hvalid, (preserves_factorOptionals g).sameMeaning hvalid, ?_, ?_⟩
  · intro g' h
    exact (preserves_tidyWithin h).sameMeaning hvalid
  · intro passes rounds g' h
    exact (preserves_tidyWithin h).sameMeaning hvalid

/-- Signed numbers: the digits after the first one become optional, and the sign is inlined. -/
def signedNumbers : Grammar := .ofList
  [(startName, [[.nonterminal "<sign>", .nonterminal "<num>"], [.nonterminal "<num>"]]),
   ("<sign>", [[.terminal "-"]]),
   ("<num>", [[.nonterminal "<d>", .nonterminal "<num>"], [.nonterminal "<d>"]]),
   ("<d>", [[.terminal "0"], [.terminal "1"]])]

theorem tidying_signedNumbers : signedNumbers.validate = .ok () ∧
    ∃ g', tidy signedNumbers = some g' ∧ SameMeaning signedNumbers g' := by
  have hvalid : signedNumbers.validate = .ok () := by decide +kernel
  have hsome : (tidy signedNumbers).isSome = true := by decide +kernel
  obtain ⟨g', hg'⟩ := Option.isSome_iff_exists.mp hsome
  obtain ⟨-, -, htidy, -⟩ := tidying_preserves_meaning hvalid
  exact ⟨hvalid, g', hg', htidy g' hg'⟩

end Grammar

end GrammarInference
