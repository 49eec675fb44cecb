/-
GrammarInference/Proofs/Earley/Search.lean

The search for a tree finds one wherever the finished chart has a span.

Design.  The two questions of the search call each other with less fuel, so what they answer is proved for both
at once, by induction on the fuel (`derive_and_fit_reply`); there is one lemma for each kind of step.  The fuel
is enough because a question for a tree is asked inside others at most as often as there are questions, and
between two of them a production is walked through once.  A question is about the chart only where the chart
was begun: `Span.Asked` says that the alternatives of the nonterminal begin at its first position, and
`Gap.Asked` that the item in front of the gap is there.  Then the ends that are tried are all the places where
the nonterminal can end.
-/
import GrammarInference.Proofs.Earley.Answers
import GrammarInference.Proofs.Earley.Spans

namespace GrammarInference

namespace Earley

variable {g : Grammar} {input : Array Char} {start : String} {c : Chart}

/-! ### Questions about a chart -/

/-- The question for a tree is about a part of the input, at whose start the nonterminal was predicted. -/
structure Span.Asked (g : Grammar) (input : Array Char) (c : Chart) (q : Span) : Prop where
  /-- The part ends behind its start. -/
  first_le : q.first ≤ q.last
  /-- The part ends in the input. -/
  last_le : q.last ≤ input.size
  /-- The alternatives begin at its start. -/
  begun : ∀ k ∈ (Table.ofGrammar g).alternatives q.name, ⟨k, 0, q.first⟩ ∈ c.listAt q.first
  /-- There is an alternative. -/
  defined : ∃ (k : Nat) (p : Production), (Table.ofGrammar g).productions[k]? = some p ∧ p.lhs = q.name

/-- The question for a fit is about a part of the input, at whose start an item stands before the gap. -/
structure Gap.Asked (input : Array Char) (c : Chart) (gap : Gap) : Prop where
  /-- The gap ends behind its start. -/
  first_le : gap.first ≤ gap.last
  /-- The gap ends in the input. -/
  last_le : gap.last ≤ input.size
  /-- The item in front of the gap. -/
  reached : ∃ o, ⟨gap.production, gap.part, o⟩ ∈ c.listAt gap.first

/-- The tree of a question stands in the arena. -/
def Span.IsTree (g : Grammar) (input : Array Char) (q : Span) (id : NodeId) (a : Arena) : Prop :=
  ∃ t, a.Stores t id ∧ t.isDerivation g = true ∧ t.symbol = .nonterminal q.name ∧
    t.yield = segment input q.first q.last

/-- The trees for the symbols of a rule stand in the arena. -/
def AreTrees (g : Grammar) (input : Array Char) (r : Rule) (first last : Nat) (ids : List NodeId) (a : Arena) :
    Prop :=
  ∃ ts, a.StoresAll ts ids ∧ Tree.areDerivations g ts = true ∧ ts.map Tree.symbol = r ∧
    Tree.yieldAll ts = segment input first last

/-- A tree for the first symbol and trees for the rest make trees for the whole rule. -/
theorem AreTrees.cons {t : Tree} {r : Rule} {first mid last : Nat} {id : NodeId} {rest : List NodeId}
    {a a' : Arena} (hrest : AreTrees g input r mid last rest a) (hext : a.Extends a') (hstore : a'.Stores t id)
    (hder : t.isDerivation g = true) (hyield : t.yield = segment input first mid) (hfirst : first ≤ mid)
    (hlast : mid ≤ last) : AreTrees g input (t.symbol :: r) first last (id :: rest) a' := by
  obtain ⟨ts, hstores, hders, hsym, hyields⟩ := hrest
  refine ⟨t :: ts, ⟨id, rest, rfl, hstore, hstores.mono hext⟩, Tree.areDerivations_cons_iff.mpr ⟨hder, hders⟩, ?_, ?_⟩
  · rw [List.map_cons, hsym]
  · rw [Tree.yieldAll, hyield, hyields]
    exact segment_append hfirst hlast

/-- A tree that repeats no question answers `q` inside the questions `A`. -/
def Span.Free (g : Grammar) (input : Array Char) (A : List Span) (q : Span) : Prop :=
  q ∉ A ∧ ∃ body ∈ g.alternatives q.name, Fits g input (q :: A) body q.first q.last

theorem dot_lt_dots {k : Nat} {p : Production} (hp : (Table.ofGrammar g).productions[k]? = some p) :
    p.rule.length < (Table.ofGrammar g).dots := by
  have hmem : p ∈ (Table.ofGrammar g).productions.toList := Array.mem_toList_iff.mpr (Array.mem_of_getElem? hp)
  rw [Table.dots, p.length_rule]
  generalize (Table.ofGrammar g).productions.toList = ps at hmem
  induction ps with
  | nil => exact absurd hmem List.not_mem_nil
  | cons q ps ih =>
    rw [List.map_cons, List.foldr_cons]
    rcases List.mem_cons.mp hmem with rfl | hmem
    · omega
    · have hlt := ih hmem
      omega

/-- What stands behind the part of a gap. -/
theorem drop_of_part? {k d : Nat} {p : Production} {x : Part}
    (hp : (Table.ofGrammar g).productions[k]? = some p) (hx : (Table.ofGrammar g).part? k d = some x) :
    p.rule.drop d = x.symbol :: p.rule.drop (d + 1) := by
  rw [Table.part?_of_production hp] at hx
  have hget : p.rule[d]? = some x.symbol := by rw [p.getElem?_rule, hx, Option.map_some]
  obtain ⟨hlt, hval⟩ := List.getElem?_eq_some_iff.mp hget
  rw [List.drop_eq_getElem_cons hlt, hval]

theorem drop_of_part?_none {k d : Nat} {p : Production} (hp : (Table.ofGrammar g).productions[k]? = some p)
    (hx : (Table.ofGrammar g).part? k d = none) : p.rule.drop d = [] := by
  rw [Table.part?_of_production hp, Array.getElem?_eq_none_iff, ← p.length_rule] at hx
  exact List.drop_eq_nil_of_le hx

theorem Gap.derived_iff {gap : Gap} {p : Production}
    (hp : (Table.ofGrammar g).productions[gap.production]? = some p) :
    gap.Derived g input ↔ Grammar.Derives g (p.rule.drop gap.part) (segment input gap.first gap.last) := by
  constructor
  · rintro ⟨p', hp', hd⟩
    obtain rfl : p' = p := Option.some.inj (hp'.symm.trans hp)
    exact hd
  · exact fun hd => ⟨p, hp, hd⟩

/-- A gap before a text is derived if the text stands there and the rest is derived behind it. -/
theorem Gap.Asked.derived_text_iff {gap : Gap} (hgap : gap.Asked input c) {p : Production}
    (hp : (Table.ofGrammar g).productions[gap.production]? = some p) {w : List Char}
    (hpart : (Table.ofGrammar g).part? gap.production gap.part = some (.text w)) :
    gap.Derived g input ↔
      (gap.first + w.length ≤ gap.last ∧ segment input gap.first (gap.first + w.length) = w) ∧
        Gap.Derived g input ⟨gap.first + w.length, gap.last, gap.production, gap.part + 1⟩ := by
  have hrest : Gap.Derived g input ⟨gap.first + w.length, gap.last, gap.production, gap.part + 1⟩ ↔
      Grammar.Derives g (p.rule.drop (gap.part + 1)) (segment input (gap.first + w.length) gap.last) :=
    Gap.derived_iff hp
  rw [Gap.derived_iff hp, hrest, drop_of_part? hp hpart, Part.symbol, Grammar.derives_terminal_cons_iff,
    String.toList_ofList]
  constructor
  · rintro ⟨v, hv, hd⟩
    obtain ⟨hle, hw, rfl⟩ := (segment_eq_append_iff hgap.first_le hgap.last_le).mp hv
    exact ⟨⟨hle, hw⟩, hd⟩
  · rintro ⟨⟨hle, hw⟩, hd⟩
    exact ⟨_, (segment_eq_append_iff hgap.first_le hgap.last_le).mpr ⟨hle, hw, rfl⟩, hd⟩

/-- A gap before a nonterminal is derived if the nonterminal ends somewhere and the rest is derived behind it. -/
theorem Gap.Asked.derived_name_iff {gap : Gap} (hgap : gap.Asked input c) {p : Production}
    (hp : (Table.ofGrammar g).productions[gap.production]? = some p) {n : String}
    (hpart : (Table.ofGrammar g).part? gap.production gap.part = some (.name n)) :
    gap.Derived g input ↔ ∃ e, (gap.first ≤ e ∧ e ≤ gap.last) ∧
      Grammar.InLanguage g n (segment input gap.first e) ∧
        Gap.Derived g input ⟨e, gap.last, gap.production, gap.part + 1⟩ := by
  have hrest : ∀ e, Gap.Derived g input ⟨e, gap.last, gap.production, gap.part + 1⟩ ↔
      Grammar.Derives g (p.rule.drop (gap.part + 1)) (segment input e gap.last) := fun e => Gap.derived_iff hp
  rw [Gap.derived_iff hp, drop_of_part? hp hpart, Part.symbol, Grammar.derives_nonterminal_cons_iff]
  constructor
  · rintro ⟨u, v, huv, hu, hv⟩
    obtain ⟨hle, hu', rfl⟩ := (segment_eq_append_iff hgap.first_le hgap.last_le).mp huv
    exact ⟨_, ⟨Nat.le_add_right _ _, hle⟩, hu'.symm ▸ hu, (hrest _).mpr hv⟩
  · rintro ⟨e, ⟨hfirst, hlast⟩, hn, hd⟩
    exact ⟨_, _, (segment_append hfirst hlast).symm, hn, (hrest e).mp hd⟩

theorem Span.Asked.mem_questions {q : Span} (hq : q.Asked g input c) : q ∈ questions g input := by
  obtain ⟨k, p, hp, hlhs⟩ := hq.defined
  exact Earley.mem_questions hp hlhs hq.first_le hq.last_le

theorem Span.Free.inLanguage {A : List Span} {q : Span} (hq : q.Free g input A) :
    Grammar.InLanguage g q.name (segment input q.first q.last) := by
  obtain ⟨-, body, hb, hfits⟩ := hq
  exact ⟨body, hb, hfits.derives⟩

/-- Inside no question, whatever a nonterminal derives it derives without a repetition. -/
theorem Span.free_of_inLanguage {q : Span} (hfirst : q.first ≤ q.last) (hlast : q.last ≤ input.size)
    (h : Grammar.InLanguage g q.name (segment input q.first q.last)) : q.Free g input [] := by
  have hfits := fits_of_derives hfirst hlast (Grammar.derives_singleton_iff.mpr h)
  cases hfits with
  | @nonterminal _ _ body _ _ m _ hnew hb hbody hrest =>
    cases hrest
    exact ⟨hnew, body, hb, hbody⟩

/-! ### What the spans of a finished chart offer -/

open Chart (Finished)

namespace Chart.Finished

/-- The productions for a question span it, and their gaps are asked for. -/
theorem asked_of_mem_productions (h : Finished g input start c) {q : Span} (hq : q.Asked g input c) {k : Nat}
    (hk : k ∈ (Spans.ofChart (.ofGrammar g) c).productions q) :
    ∃ p, (Table.ofGrammar g).productions[k]? = some p ∧ p.lhs = q.name ∧
      Gap.Asked input c ⟨q.first, q.last, k, 0⟩ := by
  obtain ⟨p, hp, hlhs, -⟩ := h.sound.mem_completions_iff.mp (Spans.mem_productions_iff.mp hk)
  have hbegun := hq.begun k (Table.mem_alternatives_iff.mpr ⟨p, hp, hlhs⟩)
  exact ⟨p, hp, hlhs, hq.first_le, hq.last_le, q.first, hbegun⟩

/-- An alternative that answers a question is among the productions for it. -/
theorem mem_productions (h : Finished g input start c) {q : Span} (hq : q.Asked g input c) {body : Rule}
    (hb : body ∈ g.alternatives q.name) (hd : Grammar.Derives g body (segment input q.first q.last)) :
    ∃ (k : Nat) (p : Production), k ∈ (Spans.ofChart (.ofGrammar g) c).productions q ∧
      (Table.ofGrammar g).productions[k]? = some p ∧ p.rule = body := by
  obtain ⟨k, p, hp, hlhs, rfl⟩ := Table.exists_production hb
  have hbegun := hq.begun k (Table.mem_alternatives_iff.mpr ⟨p, hp, hlhs⟩)
  have hdone := h.complete_mem hbegun hp hq.first_le hq.last_le hd
  exact ⟨k, p, Spans.mem_productions_iff.mpr (h.sound.mem_completions_iff.mpr ⟨p, hp, hlhs, hdone⟩), hp, rfl⟩

/-- Behind a text that matches, the gap is asked for. -/
theorem asked_of_matchesAt (h : Finished g input start c) {gap : Gap} (hgap : gap.Asked input c) {w : List Char}
    (hpart : (Table.ofGrammar g).part? gap.production gap.part = some (.text w))
    (hmatch : matchesAt input gap.first gap.last w = true) :
    Gap.Asked input c ⟨gap.first + w.length, gap.last, gap.production, gap.part + 1⟩ := by
  obtain ⟨hle, hseg⟩ := (matchesAt_iff hgap.first_le hgap.last_le).mp hmatch
  obtain ⟨o, ho⟩ := hgap.reached
  have hfirst := Nat.le_trans hgap.first_le hgap.last_le
  have hmatch' : matchesAt input gap.first input.size w = true :=
    (matchesAt_iff hfirst (Nat.le_refl _)).mpr ⟨Nat.le_trans hle hgap.last_le, hseg⟩
  exact ⟨hle, hgap.last_le, o, (h.closed _ _ ho).scanned w hpart hmatch'⟩

variable {gap : Gap} {n : String}

/-- At an end of a nonterminal, both the nonterminal and the gap behind it are asked for. -/
theorem asked_of_mem_ends (h : Finished g input start c) (hgap : gap.Asked input c)
    (hpart : (Table.ofGrammar g).part? gap.production gap.part = some (.name n)) {e : Nat} {isLast : Bool}
    (he : e ∈ (Spans.ofChart (.ofGrammar g) c).ends n gap.first gap.last isLast) :
    Gap.Asked input c ⟨e, gap.last, gap.production, gap.part + 1⟩ ∧ Span.Asked g input c ⟨gap.first, e, n⟩ := by
  obtain ⟨⟨k, hk⟩, hbound⟩ := Spans.mem_ends_iff.mp he
  obtain ⟨p, hp, hlhs, hdone⟩ := h.sound.mem_completions_iff.mp hk
  obtain ⟨o, ho⟩ := hgap.reached
  have hfirst : gap.first ≤ e := (h.sound.derived e _ hdone).origin_le
  have hlast : e ≤ gap.last := by
    cases isLast with
    | true => exact Nat.le_of_eq hbound
    | false => exact hbound
  have hadv := h.advance_mem ho hpart hfirst hp hlhs hdone
  refine ⟨⟨hlast, hgap.last_le, o, hadv⟩, hfirst, Nat.le_trans hlast hgap.last_le, ?_, k, p, hp, hlhs⟩
  exact (h.closed _ _ ho).predicted n hpart

/-- Every position where a nonterminal can end, such that the rest fits behind it, is among its ends. -/
theorem mem_ends (h : Finished g input start c) (hgap : gap.Asked input c)
    (hpart : (Table.ofGrammar g).part? gap.production gap.part = some (.name n)) {e : Nat}
    (hfirst : gap.first ≤ e) (hlast : e ≤ gap.last)
    (hn : Grammar.InLanguage g n (segment input gap.first e))
    (hrest : Gap.Derived g input ⟨e, gap.last, gap.production, gap.part + 1⟩) :
    e ∈ (Spans.ofChart (.ofGrammar g) c).ends n gap.first gap.last
      ((Table.ofGrammar g).part? gap.production (gap.part + 1)).isNone := by
  obtain ⟨o, ho⟩ := hgap.reached
  have hasked : ∀ k ∈ (Table.ofGrammar g).alternatives n, ⟨k, 0, gap.first⟩ ∈ c.listAt gap.first :=
    (h.closed _ _ ho).predicted n hpart
  obtain ⟨body, hb, hd⟩ := hn
  obtain ⟨k, q, hq, hlhs, rfl⟩ := Table.exists_production hb
  have hbegun := hasked k (Table.mem_alternatives_iff.mpr ⟨q, hq, hlhs⟩)
  have hdone := h.complete_mem hbegun hq hfirst (Nat.le_trans hlast hgap.last_le) hd
  refine Spans.mem_ends_iff.mpr ⟨⟨k, h.sound.mem_completions_iff.mpr ⟨q, hq, hlhs, hdone⟩⟩, ?_⟩
  rcases hnext : (Table.ofGrammar g).part? gap.production (gap.part + 1) with - | x
  · -- nothing stands behind the nonterminal, so it ends where the gap does
    obtain ⟨p, hp, hd⟩ := hrest
    rw [drop_of_part?_none hp hnext, Grammar.derives_nil_iff] at hd
    have hlen := length_segment (a := e) hgap.last_le
    rw [hd, List.length_nil] at hlen
    show e = gap.last
    omega
  · exact hlast

end Chart.Finished

/-! ### The steps of the search -/

namespace Search

variable {left : Nat} {s s₁ : Search} {fuel : Nat}

/-- What is known about an input whose chart is finished. -/
def Context.ofChart (g : Grammar) (input : Array Char) (c : Chart) : Context :=
  ⟨.ofGrammar g, input, .ofChart (.ofGrammar g) c⟩

@[simp] theorem Context.input_ofChart : (Context.ofChart g input c).input = input := rfl

@[simp] theorem Context.table_ofChart : (Context.ofChart g input c).table = .ofGrammar g := rfl

@[simp] theorem Context.spans_ofChart : (Context.ofChart g input c).spans = .ofChart (.ofGrammar g) c := rfl

/-- With this fuel, questions for trees are answered. -/
def AnswersTrees (g : Grammar) (input : Array Char) (c : Chart) (fuel : Nat) : Prop :=
  ∀ (left : Nat) (q : Span) (s : Search), Ready g input left s → q.Asked g input c →
    left * ((Table.ofGrammar g).dots + 2) ≤ fuel →
    Reply g input left s (q.IsTree g input) (q.Free g input s.active)
      (Grammar.InLanguage g q.name (segment input q.first q.last)) (derive (.ofChart g input c) fuel q s)

/-- With this fuel, questions for fits are answered. -/
def AnswersFits (g : Grammar) (input : Array Char) (c : Chart) (fuel : Nat) : Prop :=
  ∀ (left : Nat) (gap : Gap) (p : Production) (s : Search), Ready g input left s → gap.Asked input c →
    (Table.ofGrammar g).productions[gap.production]? = some p →
    left * ((Table.ofGrammar g).dots + 2) + (p.rule.length - gap.part) < fuel →
    Reply g input left s (AreTrees g input (p.rule.drop gap.part) gap.first gap.last)
      (Fits g input s.active (p.rule.drop gap.part) gap.first gap.last) (gap.Derived g input)
      (fit (.ofChart g input c) fuel gap s)

/-- The fuel of a question for a tree is enough for the fits of its alternatives. -/
theorem level_lt {k : Nat} {p : Production} (hp : (Table.ofGrammar g).productions[k]? = some p)
    (hfuel : (left + 1) * ((Table.ofGrammar g).dots + 2) ≤ fuel + 1) :
    left * ((Table.ofGrammar g).dots + 2) + (p.rule.length - 0) < fuel := by
  have hdots := dot_lt_dots hp
  rw [Nat.add_mul] at hfuel
  omega

/-- The alternatives that a question for a tree tries. -/
theorem productions_reply (h : Finished g input start c) (hfit : AnswersFits g input c fuel) {q : Span}
    (hs : Ready g input left s) (hq : q.Asked g input c)
    (hfuel : (left + 1) * ((Table.ofGrammar g).dots + 2) ≤ fuel + 1) :
    Reply g input left s
      (fun ids a => ∃ body ∈ g.alternatives q.name, AreTrees g input body q.first q.last ids a)
      (∃ body ∈ g.alternatives q.name, Fits g input s.active body q.first q.last)
      (Grammar.InLanguage g q.name (segment input q.first q.last))
      (firstFound (fun k s => fit (.ofChart g input c) fuel ⟨q.first, q.last, k, 0⟩ s)
        ((Spans.ofChart (.ofGrammar g) c).productions q) s) := by
  have htries : Reply g input left s
      (fun ids a => ∃ body ∈ g.alternatives q.name, AreTrees g input body q.first q.last ids a)
      (∃ k ∈ (Spans.ofChart (.ofGrammar g) c).productions q,
        ∃ p, (Table.ofGrammar g).productions[k]? = some p ∧ Fits g input s.active p.rule q.first q.last)
      (∃ k ∈ (Spans.ofChart (.ofGrammar g) c).productions q, Gap.Derived g input ⟨q.first, q.last, k, 0⟩)
      (firstFound (fun k s => fit (.ofChart g input c) fuel ⟨q.first, q.last, k, 0⟩ s)
        ((Spans.ofChart (.ofGrammar g) c).productions q) s) := by
    refine firstFound_reply hs fun k hk s' hs' => ?_
    obtain ⟨p, hp, hlhs, hgap⟩ := h.asked_of_mem_productions hq hk
    refine (hfit left _ p s' hs'.ready hgap hp (level_lt hp hfuel)).imp ?_ ?_ id
    · intro ids a htrees
      exact ⟨p.rule, hlhs ▸ Table.rule_mem_alternatives hp, htrees⟩
    · rintro ⟨p', hp', hfits⟩
      obtain rfl : p' = p := Option.some.inj (hp'.symm.trans hp)
      rw [hs'.active_eq]
      exact hfits
  refine htries.imp (fun _ _ hfound => hfound) ?_ ?_
  · rintro ⟨body, hb, hfits⟩
    obtain ⟨k, p, hk, hp, rfl⟩ := h.mem_productions hq hb hfits.derives
    exact ⟨k, hk, p, hp, hfits⟩
  · rintro ⟨body, hb, hd⟩
    obtain ⟨k, p, hk, hp, rfl⟩ := h.mem_productions hq hb hd
    exact ⟨k, hk, p, hp, hd⟩

/-- What becomes of the answer for the alternatives of a question: the node above what was found, and the
question is no longer asked. -/
def closeQuestion (q : Span) : Answer (List NodeId) × Search → Answer NodeId × Search
  | (.found children, s) =>
    (.found (s.alloc (.nonterminal q.name) children).1,
      { (s.alloc (.nonterminal q.name) children).2 with active := s.active.erase q })
  | (.absent, s) => (.absent, { s with active := s.active.erase q })
  | (.interrupted, s) => (.interrupted, s)

theorem derive_of_active {ctx : Context} {q : Span} (hactive : q ∈ s.active) :
    derive ctx (fuel + 1) q s = (.absent, { s with cuts := s.cuts + 1 }) := by
  rw [derive, if_pos (List.contains_iff_mem.mpr hactive)]

theorem derive_of_not_active {ctx : Context} {q : Span} (hactive : q ∉ s.active) :
    derive ctx (fuel + 1) q s = closeQuestion q (firstFound (fun k s => fit ctx fuel ⟨q.first, q.last, k, 0⟩ s)
      (ctx.spans.productions q) { s with active := q :: s.active }) := by
  rw [derive, if_neg (fun hc => hactive (List.contains_iff_mem.mp hc))]
  rfl

/-- A question for a tree is answered if the fits of its alternatives are. -/
theorem derive_reply (h : Finished g input start c) (hfit : AnswersFits g input c fuel) :
    AnswersTrees g input c (fuel + 1) := by
  intro left q s hs hq hfuel
  by_cases hactive : q ∈ s.active
  · -- the question is cut off: nothing is known about its input, and the count of cuts says so
    rw [derive_of_active hactive]
    refine .absent ?_ (fun hfree => hfree.1 hactive) fun hcuts => absurd hcuts (Nat.succ_ne_self _)
    exact ⟨⟨hs.deadline, hs.dead, hs.nodup, hs.known, hs.lt_left⟩, rfl, .refl _, Nat.le_succ _⟩
  · obtain ⟨left, rfl⟩ : ∃ l, left = l + 1 := ⟨left - 1, by have hpos := hs.pos; omega⟩
    have hreply := productions_reply h hfit (hs.ask hq.mem_questions hactive) hq hfuel
    rw [derive_of_not_active hactive, Context.spans_ofChart]
    generalize firstFound _ _ _ = r at hreply ⊢
    cases hreply with
    | @found ids s' hleads hfound =>
      obtain ⟨body, hb, ts, hstores, hder, rfl, hyield⟩ := hfound
      refine .found (Leads.answer hs (hleads.alloc (.nonterminal q.name) ids)) ?_
      have hnode := Tree.isDerivation_nonterminal_iff.mpr ⟨hb, hder⟩
      exact ⟨.node (.nonterminal q.name) ts, hstores.alloc _, hnode, rfl, hyield⟩
    | absent hleads hfree hany =>
      exact .absent (Leads.answer hs hleads) (fun hq' => hfree hq'.2) hany

/-- What `fit` does where a text stands. -/
def fitText (ctx : Context) (fuel : Nat) (gap : Gap) (w : List Char) (s : Search) :
    Answer (List NodeId) × Search :=
  if matchesAt ctx.input gap.first gap.last w then
    match fit ctx fuel ⟨gap.first + w.length, gap.last, gap.production, gap.part + 1⟩ s with
    | (.found rest, s') => (.found ((s'.alloc (.terminal (String.ofList w)) []).1 :: rest),
        (s'.alloc (.terminal (String.ofList w)) []).2)
    | (.absent, s') => (.absent, s'.fail gap s.cuts)
    | (.interrupted, s') => (.interrupted, s')
  else (.absent, s.fail gap s.cuts)

/-- What `fit` does at one end of a nonterminal. -/
def fitEnd (ctx : Context) (fuel : Nat) (gap : Gap) (n : String) (e : Nat) (s : Search) :
    Answer (List NodeId) × Search :=
  match fit ctx fuel ⟨e, gap.last, gap.production, gap.part + 1⟩ s with
  | (.found rest, s) =>
    match derive ctx fuel ⟨gap.first, e, n⟩ s with
    | (.found id, s) => (.found (id :: rest), s)
    | (.absent, s) => (.absent, s)
    | (.interrupted, s) => (.interrupted, s)
  | (.absent, s) => (.absent, s)
  | (.interrupted, s) => (.interrupted, s)

/-- What `fit` does where a nonterminal stands. -/
def fitName (ctx : Context) (fuel : Nat) (gap : Gap) (n : String) (s : Search) :
    Answer (List NodeId) × Search :=
  match firstFound (fitEnd ctx fuel gap n)
    (ctx.spans.ends n gap.first gap.last (ctx.table.part? gap.production (gap.part + 1)).isNone) s with
  | (.absent, s') => (.absent, s'.fail gap s.cuts)
  | answer => answer

/-- Without a deadline, a question for a fit goes by the part that stands at the gap. -/
theorem fit_of_never {ctx : Context} {gap : Gap} (hs : s.checkpoint.deadline = .never) :
    fit ctx (fuel + 1) gap s =
      let s₁ := { s with checkpoint := { s.checkpoint with steps := s.checkpoint.steps + 1 } }
      match ctx.table.part? gap.production gap.part with
      | none => if gap.first = gap.last then (.found [], s₁) else (.absent, s₁)
      | some part =>
        if s.failed.contains gap then (.absent, s₁)
        else
          match part with
          | .text w => fitText ctx fuel gap w s₁
          | .name n => fitName ctx fuel gap n s₁ := by
  rw [fit, Checkpoint.tick_of_never hs]
  rfl

/-- Counting a step changes no answer. -/
theorem Reply.count {α : Type} {Found : α → Arena → Prop} {Free Any : Prop} {r : Answer α × Search}
    {cp : Checkpoint} (h : Reply g input left { s with checkpoint := cp } Found Free Any r) :
    Reply g input left s Found Free Any r := by
  cases h with
  | found hleads hfound =>
    exact .found ⟨hleads.ready, hleads.active_eq, hleads.arena, hleads.cuts_le⟩ hfound
  | absent hleads hfree hany =>
    exact .absent ⟨hleads.ready, hleads.active_eq, hleads.arena, hleads.cuts_le⟩ hfree hany

variable {gap : Gap} {p : Production}

/-- Behind the last part nothing may be left. -/
theorem fit_none_reply (hs : Ready g input left s) (hgap : gap.Asked input c)
    (hp : (Table.ofGrammar g).productions[gap.production]? = some p)
    (hpart : (Table.ofGrammar g).part? gap.production gap.part = none) :
    Reply g input left s (AreTrees g input (p.rule.drop gap.part) gap.first gap.last)
      (Fits g input s.active (p.rule.drop gap.part) gap.first gap.last) (gap.Derived g input)
      (if gap.first = gap.last then (.found [], s) else (.absent, s)) := by
  have hnil := drop_of_part?_none hp hpart
  by_cases heq : gap.first = gap.last
  · rw [if_pos heq, hnil, heq]
    exact .found hs.leads_refl ⟨[], rfl, rfl, rfl, (segment_self _ _).symm⟩
  · rw [if_neg heq]
    have hnot : ¬ gap.Derived g input := by
      rw [Gap.derived_iff hp, hnil, Grammar.derives_nil_iff]
      intro hseg
      have hlen := length_segment (a := gap.first) hgap.last_le
      rw [hseg, List.length_nil] at hlen
      have hle := hgap.first_le
      omega
    exact .absent hs.leads_refl (fun hfits => hnot (⟨p, hp, hfits.derives⟩)) fun _ => hnot

/-- Where a text stands, it has to match, and the rest has to fit behind it. -/
theorem fitText_reply (h : Finished g input start c) (hfit : AnswersFits g input c fuel)
    (hs : Ready g input left s) (hgap : gap.Asked input c)
    (hp : (Table.ofGrammar g).productions[gap.production]? = some p) {w : List Char}
    (hpart : (Table.ofGrammar g).part? gap.production gap.part = some (.text w))
    (hfuel : left * ((Table.ofGrammar g).dots + 2) + (p.rule.length - (gap.part + 1)) < fuel) :
    Reply g input left s (AreTrees g input (p.rule.drop gap.part) gap.first gap.last)
      (Fits g input s.active (p.rule.drop gap.part) gap.first gap.last) (gap.Derived g input)
      (fitText (.ofChart g input c) fuel gap w s) := by
  have hdrop := drop_of_part? hp hpart
  have hmatches := matchesAt_iff (w := w) hgap.first_le hgap.last_le
  have hderived := hgap.derived_text_iff hp hpart
  rw [fitText, Context.input_ofChart]
  by_cases hmatch : matchesAt input gap.first gap.last w = true
  · rw [if_pos hmatch]
    obtain ⟨hle, hw⟩ := hmatches.mp hmatch
    have hreply := hfit left _ p s hs (h.asked_of_matchesAt hgap hpart hmatch) hp hfuel
    generalize fit _ _ _ _ = r at hreply ⊢
    cases hreply with
    | @found rest s' hleads hfound =>
      have hext := Arena.extends_alloc s'.arena (.terminal (String.ofList w)) []
      have hleaf := Arena.stores_leaf s'.arena (.terminal (String.ofList w))
      have hyield : (Tree.node (.terminal (String.ofList w)) []).yield =
          segment input gap.first (gap.first + w.length) := by
        rw [Tree.yield, String.toList_ofList, hw]
      refine .found (hleads.alloc _ _) ?_
      rw [hdrop]
      exact hfound.cons hext hleaf (Tree.isDerivation_terminal_iff.mpr rfl) hyield (Nat.le_add_right _ _) hle
    | absent hleads hfree hany =>
      -- without a cut inside, the gap is not derived, and may be remembered as a dead end
      have hnot := fun hcuts hgap' => hany hcuts (hderived.mp hgap').2
      refine .absent (hleads.fail hnot) ?_ ?_
      · rw [hdrop]
        intro hfits
        cases hfits with
        | terminal _ hrest =>
          rw [String.toList_ofList] at hrest
          exact hfree hrest
      · rw [cuts_fail]
        exact hnot
  · rw [if_neg hmatch]
    have hnot : ¬ gap.Derived g input := fun hgap' => hmatch (hmatches.mpr (hderived.mp hgap').1)
    exact .absent (hs.leads_refl.fail fun _ => hnot)
      (fun hfits => hnot (⟨p, hp, hfits.derives⟩)) fun _ => hnot

/-- At an end of a nonterminal, the rest has to fit behind it, and the nonterminal needs a tree up to it. -/
theorem fitEnd_reply (h : Finished g input start c) (hfit : AnswersFits g input c fuel)
    (htree : AnswersTrees g input c fuel) (hs : Ready g input left s) (hgap : gap.Asked input c)
    (hp : (Table.ofGrammar g).productions[gap.production]? = some p) {n : String}
    (hpart : (Table.ofGrammar g).part? gap.production gap.part = some (.name n))
    (hfuel : left * ((Table.ofGrammar g).dots + 2) + (p.rule.length - (gap.part + 1)) < fuel) {e : Nat}
    {isLast : Bool} (he : e ∈ (Spans.ofChart (.ofGrammar g) c).ends n gap.first gap.last isLast) :
    Reply g input left s (AreTrees g input (p.rule.drop gap.part) gap.first gap.last)
      (Span.Free g input s.active ⟨gap.first, e, n⟩ ∧
        Fits g input s.active (p.rule.drop (gap.part + 1)) e gap.last)
      (Grammar.InLanguage g n (segment input gap.first e) ∧
        Gap.Derived g input ⟨e, gap.last, gap.production, gap.part + 1⟩)
      (fitEnd (.ofChart g input c) fuel gap n e s) := by
  obtain ⟨hrestAsked, htreeAsked⟩ := h.asked_of_mem_ends hgap hpart he
  -- the parts behind the nonterminal are settled first
  have hrest := hfit left _ p s hs hrestAsked hp hfuel
  rw [fitEnd]
  generalize fit _ _ _ _ = r at hrest ⊢
  cases hrest with
  | absent hleads hfree hany =>
    exact .absent hleads (fun hboth => hfree hboth.2) fun hcuts hboth => hany hcuts hboth.2
  | @found rest s' hleads hfound =>
    have hreply := htree left _ s' hleads.ready htreeAsked (by omega)
    show Reply g input left s _ _ _ (match derive (.ofChart g input c) fuel ⟨gap.first, e, n⟩ s' with
      | (.found id, s) => (.found (id :: rest), s)
      | (.absent, s) => (.absent, s)
      | (.interrupted, s) => (.interrupted, s))
    generalize derive _ _ _ _ = r at hreply ⊢
    cases hreply with
    | absent hleads' hfree hany =>
      rw [hleads.active_eq] at hfree
      refine .absent (hleads.trans hleads') (fun hboth => hfree hboth.1) fun hcuts hboth => ?_
      exact hany (hleads.cuts_eq hleads' hcuts).2 hboth.1
    | found hleads' hfound' =>
      obtain ⟨t, hstore, hder, hsym, hyield⟩ := hfound'
      have htrees := hfound.cons hleads'.arena hstore hder hyield htreeAsked.first_le hrestAsked.first_le
      rw [hsym] at htrees
      refine .found (hleads.trans hleads') ?_
      rw [drop_of_part? hp hpart]
      exact htrees

/-- The ends that a question for a fit tries. -/
theorem ends_reply (h : Finished g input start c) (hfit : AnswersFits g input c fuel)
    (htree : AnswersTrees g input c fuel) (hs : Ready g input left s) (hgap : gap.Asked input c)
    (hp : (Table.ofGrammar g).productions[gap.production]? = some p) {n : String}
    (hpart : (Table.ofGrammar g).part? gap.production gap.part = some (.name n))
    (hfuel : left * ((Table.ofGrammar g).dots + 2) + (p.rule.length - (gap.part + 1)) < fuel) :
    Reply g input left s (AreTrees g input (p.rule.drop gap.part) gap.first gap.last)
      (Fits g input s.active (p.rule.drop gap.part) gap.first gap.last) (gap.Derived g input)
      (firstFound (fitEnd (.ofChart g input c) fuel gap n)
        ((Spans.ofChart (.ofGrammar g) c).ends n gap.first gap.last
          ((Table.ofGrammar g).part? gap.production (gap.part + 1)).isNone) s) := by
  have htries : Reply g input left s (AreTrees g input (p.rule.drop gap.part) gap.first gap.last)
      (∃ e ∈ (Spans.ofChart (.ofGrammar g) c).ends n gap.first gap.last
          ((Table.ofGrammar g).part? gap.production (gap.part + 1)).isNone,
        Span.Free g input s.active ⟨gap.first, e, n⟩ ∧
          Fits g input s.active (p.rule.drop (gap.part + 1)) e gap.last)
      (∃ e ∈ (Spans.ofChart (.ofGrammar g) c).ends n gap.first gap.last
          ((Table.ofGrammar g).part? gap.production (gap.part + 1)).isNone,
        Grammar.InLanguage g n (segment input gap.first e) ∧
          Gap.Derived g input ⟨e, gap.last, gap.production, gap.part + 1⟩)
      (firstFound (fitEnd (.ofChart g input c) fuel gap n)
        ((Spans.ofChart (.ofGrammar g) c).ends n gap.first gap.last
          ((Table.ofGrammar g).part? gap.production (gap.part + 1)).isNone) s) := by
    refine firstFound_reply hs fun e he s' hs' => ?_
    have hend := fitEnd_reply h hfit htree hs'.ready hgap hp hpart hfuel he
    rwa [hs'.active_eq] at hend
  -- a position where the nonterminal can end is among the ends that were tried
  refine htries.imp (fun _ _ hfound => hfound) ?_ ?_
  · rw [drop_of_part? hp hpart]
    intro hfits
    cases hfits with
    | @nonterminal _ _ body _ _ e _ hnew hb hbody hrest =>
      have he := h.mem_ends hgap hpart hbody.le hrest.le ⟨body, hb, hbody.derives⟩ ⟨p, hp, hrest.derives⟩
      exact ⟨e, he, ⟨hnew, body, hb, hbody⟩, hrest⟩
  · intro hgap'
    obtain ⟨e, ⟨hfirst, hlast⟩, hn, hrest⟩ := (hgap.derived_name_iff hp hpart).mp hgap'
    exact ⟨e, h.mem_ends hgap hpart hfirst hlast hn hrest, hn, hrest⟩

/-- Where a nonterminal stands, it has to end somewhere. -/
theorem fitName_reply (h : Finished g input start c) (hfit : AnswersFits g input c fuel)
    (htree : AnswersTrees g input c fuel) (hs : Ready g input left s) (hgap : gap.Asked input c)
    (hp : (Table.ofGrammar g).productions[gap.production]? = some p) {n : String}
    (hpart : (Table.ofGrammar g).part? gap.production gap.part = some (.name n))
    (hfuel : left * ((Table.ofGrammar g).dots + 2) + (p.rule.length - (gap.part + 1)) < fuel) :
    Reply g input left s (AreTrees g input (p.rule.drop gap.part) gap.first gap.last)
      (Fits g input s.active (p.rule.drop gap.part) gap.first gap.last) (gap.Derived g input)
      (fitName (.ofChart g input c) fuel gap n s) := by
  have hreply := ends_reply h hfit htree hs hgap hp hpart hfuel
  rw [fitName, Context.spans_ofChart, Context.table_ofChart]
  generalize firstFound _ _ _ = r at hreply ⊢
  cases hreply with
  | found hleads hfound => exact .found hleads hfound
  | absent hleads hfree hany =>
    refine .absent (hleads.fail hany) hfree ?_
    rw [cuts_fail]
    exact hany

/-- The fuel of a question for a fit is enough for the fit behind the next part. -/
theorem next_level_lt (hp : (Table.ofGrammar g).productions[gap.production]? = some p) {x : Part}
    (hpart : (Table.ofGrammar g).part? gap.production gap.part = some x)
    (hfuel : left * ((Table.ofGrammar g).dots + 2) + (p.rule.length - gap.part) < fuel + 1) :
    left * ((Table.ofGrammar g).dots + 2) + (p.rule.length - (gap.part + 1)) < fuel := by
  obtain ⟨p', hp', hget⟩ := Table.part?_eq_some_iff.mp hpart
  obtain rfl : p' = p := Option.some.inj (hp'.symm.trans hp)
  have hlt : gap.part < p'.rule.length := by
    rw [p'.length_rule]
    exact (Array.getElem?_eq_some_iff.mp hget).1
  omega

/-- A question for a fit is answered if the questions inside it are. -/
theorem fit_reply (h : Finished g input start c) (hfit : AnswersFits g input c fuel)
    (htree : AnswersTrees g input c fuel) : AnswersFits g input c (fuel + 1) := by
  intro left gap p s hs hgap hp hfuel
  have hs₁ : Ready g input left { s with checkpoint := { s.checkpoint with steps := s.checkpoint.steps + 1 } } :=
    hs.checkpoint hs.deadline
  rw [fit_of_never hs.deadline, Context.table_ofChart]
  rcases hpart : (Table.ofGrammar g).part? gap.production gap.part with - | part
  · exact (fit_none_reply hs₁ hgap hp hpart).count
  · have hfuel' := next_level_lt hp hpart hfuel
    show Reply g input left s _ _ _ (if s.failed.contains gap then _ else _)
    by_cases hdead : s.failed.contains gap = true
    · -- a dead end is not derived at all, whatever questions are open
      rw [if_pos hdead]
      have hnot := hs.dead gap hdead
      have hfree : ¬ Fits g input s.active (p.rule.drop gap.part) gap.first gap.last :=
        fun hfits => hnot ⟨p, hp, hfits.derives⟩
      exact Reply.count (.absent hs₁.leads_refl hfree fun _ => hnot)
    · rw [if_neg hdead]
      cases part with
      | text w => exact (fitText_reply h hfit hs₁ hgap hp hpart hfuel').count
      | name n => exact (fitName_reply h hfit htree hs₁ hgap hp hpart hfuel').count

/-- With any fuel, the questions that it is enough for are answered. -/
theorem derive_and_fit_reply (h : Finished g input start c) (fuel : Nat) :
    AnswersTrees g input c fuel ∧ AnswersFits g input c fuel := by
  induction fuel with
  | zero =>
    -- no fuel is enough for no question
    refine ⟨fun left q s hs _ hfuel => ?_, fun left gap p s _ _ _ hfuel => absurd hfuel (Nat.not_lt_zero _)⟩
    have hpos := Nat.mul_pos hs.pos (Nat.succ_pos ((Table.ofGrammar g).dots + 1))
    exact absurd hfuel (Nat.not_le_of_gt hpos)
  | succ fuel ih => exact ⟨derive_reply h ih.2, fit_reply h ih.2 ih.1⟩

end Search

end Earley

end GrammarInference
