/-
GrammarInference/Proofs/Earley/Depth.lean

The bound on the depth never stops a search for a tree.

Design.  The search is bounded by fuel, and an answer `absent` for want of fuel would look like any other.  But
with fuel for the questions that are left, more fuel gives the same answer: the fuel is passed on to the same
questions, in the same searches, for which it is still enough.  So what the search answers does not depend on
the bound.
-/
import GrammarInference.Proofs.Earley.Search

namespace GrammarInference

namespace Earley

namespace Search

open Chart (Finished)

variable {g : Grammar} {input : Array Char} {start : String} {c : Chart} {left fuel : Nat} {s : Search}

/-- Attempts that agree in the searches that the first ones lead to give the same first answer. -/
theorem firstFound_congr {α β : Type} {attempt attempt' : α → Search → Answer β × Search} {l : List α}
    (hs : Ready g input left s)
    (hleads : ∀ a ∈ l, ∀ s', Leads g input left s s' → Leads g input left s' (attempt a s').2)
    (heq : ∀ a ∈ l, ∀ s', Leads g input left s s' → attempt' a s' = attempt a s') :
    firstFound attempt' l s = firstFound attempt l s := by
  induction l generalizing s with
  | nil => rfl
  | cons a l ih =>
    obtain ⟨ha, hl⟩ := List.forall_mem_cons.mp hleads
    obtain ⟨hea, hel⟩ := List.forall_mem_cons.mp heq
    have hstep := ha s hs.leads_refl
    rw [firstFound, firstFound, hea s hs.leads_refl]
    generalize attempt a s = r at hstep ⊢
    obtain ⟨answer, s'⟩ := r
    cases answer with
    | found b => rfl
    | interrupted => rfl
    | absent =>
      exact ih hstep.ready (fun b hb s'' hs'' => hl b hb s'' (hstep.trans hs''))
        fun b hb s'' hs'' => hel b hb s'' (hstep.trans hs'')

/-- With this fuel and more, questions for trees get the same answers. -/
def SettlesTrees (g : Grammar) (input : Array Char) (c : Chart) (fuel : Nat) : Prop :=
  ∀ (left : Nat) (q : Span) (s : Search), Ready g input left s → q.Asked g input c →
    left * ((Table.ofGrammar g).dots + 2) ≤ fuel →
    derive (.ofChart g input c) (fuel + 1) q s = derive (.ofChart g input c) fuel q s

/-- With this fuel and more, questions for fits get the same answers. -/
def SettlesFits (g : Grammar) (input : Array Char) (c : Chart) (fuel : Nat) : Prop :=
  ∀ (left : Nat) (gap : Gap) (p : Production) (s : Search), Ready g input left s → gap.Asked input c →
    (Table.ofGrammar g).productions[gap.production]? = some p →
    left * ((Table.ofGrammar g).dots + 2) + (p.rule.length - gap.part) < fuel →
    fit (.ofChart g input c) (fuel + 1) gap s = fit (.ofChart g input c) fuel gap s

theorem derive_settles (h : Finished g input start c) (hfit : SettlesFits g input c fuel) :
    SettlesTrees g input c (fuel + 1) := by
  intro left q s hs hq hfuel
  by_cases hactive : q ∈ s.active
  · -- a question that is cut off takes no fuel
    rw [derive_of_active hactive, derive_of_active hactive]
  · obtain ⟨left, rfl⟩ : ∃ l, left = l + 1 := ⟨left - 1, by have hpos := hs.pos; omega⟩
    rw [derive_of_not_active hactive, derive_of_not_active hactive, Context.spans_ofChart]
    refine congrArg (closeQuestion q) (firstFound_congr (hs.ask hq.mem_questions hactive) ?_ ?_)
    · intro k hk s' hs'
      obtain ⟨p, hp, -, hgap⟩ := h.asked_of_mem_productions hq hk
      exact ((derive_and_fit_reply h fuel).2 left _ p s' hs'.ready hgap hp (level_lt hp hfuel)).leads
    · intro k hk s' hs'
      obtain ⟨p, hp, -, hgap⟩ := h.asked_of_mem_productions hq hk
      exact hfit left _ p s' hs'.ready hgap hp (level_lt hp hfuel)

variable {gap : Gap} {p : Production}

theorem fitText_settles (h : Finished g input start c) (hfit : SettlesFits g input c fuel)
    (hs : Ready g input left s) (hgap : gap.Asked input c)
    (hp : (Table.ofGrammar g).productions[gap.production]? = some p) {w : List Char}
    (hpart : (Table.ofGrammar g).part? gap.production gap.part = some (.text w))
    (hfuel : left * ((Table.ofGrammar g).dots + 2) + (p.rule.length - (gap.part + 1)) < fuel) :
    fitText (.ofChart g input c) (fuel + 1) gap w s = fitText (.ofChart g input c) fuel gap w s := by
  rw [fitText, fitText, Context.input_ofChart]
  by_cases hmatch : matchesAt input gap.first gap.last w = true
  · rw [if_pos hmatch, if_pos hmatch, hfit left _ p s hs (h.asked_of_matchesAt hgap hpart hmatch) hp hfuel]
  · rw [if_neg hmatch, if_neg hmatch]

theorem fitEnd_settles (h : Finished g input start c) (hfit : SettlesFits g input c fuel)
    (htree : SettlesTrees g input c fuel) (hs : Ready g input left s) (hgap : gap.Asked input c)
    (hp : (Table.ofGrammar g).productions[gap.production]? = some p) {n : String}
    (hpart : (Table.ofGrammar g).part? gap.production gap.part = some (.name n))
    (hfuel : left * ((Table.ofGrammar g).dots + 2) + (p.rule.length - (gap.part + 1)) < fuel) {e : Nat}
    {isLast : Bool} (he : e ∈ (Spans.ofChart (.ofGrammar g) c).ends n gap.first gap.last isLast) :
    fitEnd (.ofChart g input c) (fuel + 1) gap n e s = fitEnd (.ofChart g input c) fuel gap n e s := by
  obtain ⟨hrestAsked, htreeAsked⟩ := h.asked_of_mem_ends hgap hpart he
  have hrest := ((derive_and_fit_reply h fuel).2 left _ p s hs hrestAsked hp hfuel).leads
  rw [fitEnd, fitEnd, hfit left _ p s hs hrestAsked hp hfuel]
  generalize fit _ fuel _ _ = r at hrest ⊢
  obtain ⟨answer, s'⟩ := r
  cases answer with
  | absent => rfl
  | interrupted => rfl
  | found rest =>
    have hsame := htree left _ s' hrest.ready htreeAsked (by omega)
    simp only [hsame]

theorem fitName_settles (h : Finished g input start c) (hfit : SettlesFits g input c fuel)
    (htree : SettlesTrees g input c fuel) (hs : Ready g input left s) (hgap : gap.Asked input c)
    (hp : (Table.ofGrammar g).productions[gap.production]? = some p) {n : String}
    (hpart : (Table.ofGrammar g).part? gap.production gap.part = some (.name n))
    (hfuel : left * ((Table.ofGrammar g).dots + 2) + (p.rule.length - (gap.part + 1)) < fuel) :
    fitName (.ofChart g input c) (fuel + 1) gap n s = fitName (.ofChart g input c) fuel gap n s := by
  obtain ⟨htrees, hfits⟩ := derive_and_fit_reply h fuel
  have hsame (isLast : Bool) :
      firstFound (fitEnd (.ofChart g input c) (fuel + 1) gap n)
          ((Spans.ofChart (.ofGrammar g) c).ends n gap.first gap.last isLast) s =
        firstFound (fitEnd (.ofChart g input c) fuel gap n)
          ((Spans.ofChart (.ofGrammar g) c).ends n gap.first gap.last isLast) s :=
    firstFound_congr hs
      (fun e he s' hs' => (fitEnd_reply h hfits htrees hs'.ready hgap hp hpart hfuel he).leads)
      fun e he s' hs' => fitEnd_settles h hfit htree hs'.ready hgap hp hpart hfuel he
  rw [fitName, fitName, Context.spans_ofChart, Context.table_ofChart, hsame]

theorem fit_settles (h : Finished g input start c) (hfit : SettlesFits g input c fuel)
    (htree : SettlesTrees g input c fuel) : SettlesFits g input c (fuel + 1) := by
  intro left gap p s hs hgap hp hfuel
  have hs₁ : Ready g input left { s with checkpoint := { s.checkpoint with steps := s.checkpoint.steps + 1 } } :=
    hs.checkpoint hs.deadline
  rw [fit_of_never hs.deadline, fit_of_never hs.deadline, Context.table_ofChart]
  rcases hpart : (Table.ofGrammar g).part? gap.production gap.part with - | part
  · rfl
  · have hfuel' := next_level_lt hp hpart hfuel
    show (if s.failed.contains gap then _ else _) = if s.failed.contains gap then _ else _
    by_cases hdead : s.failed.contains gap = true
    · rw [if_pos hdead, if_pos hdead]
    · rw [if_neg hdead, if_neg hdead]
      cases part with
      | text w => exact fitText_settles h hfit hs₁ hgap hp hpart hfuel'
      | name n => exact fitName_settles h hfit htree hs₁ hgap hp hpart hfuel'

theorem derive_and_fit_settle (h : Finished g input start c) (fuel : Nat) :
    SettlesTrees g input c fuel ∧ SettlesFits g input c fuel := by
  induction fuel with
  | zero =>
    refine ⟨fun left q s hs _ hfuel => ?_, fun left gap p s _ _ _ hfuel => absurd hfuel (Nat.not_lt_zero _)⟩
    have hpos := Nat.mul_pos hs.pos (Nat.succ_pos ((Table.ofGrammar g).dots + 1))
    exact absurd hfuel (Nat.not_le_of_gt hpos)
  | succ fuel ih => exact ⟨derive_settles h ih.2, fit_settles h ih.2 ih.1⟩

/-- With any fuel that is enough, a question for a tree gets the same answer. -/
theorem derive_eq_of_le (h : Finished g input start c) {q : Span} (hs : Ready g input left s)
    (hq : q.Asked g input c) {fuel' : Nat} (hfuel : left * ((Table.ofGrammar g).dots + 2) ≤ fuel)
    (hle : fuel ≤ fuel') : derive (.ofChart g input c) fuel' q s = derive (.ofChart g input c) fuel q s := by
  obtain ⟨more, rfl⟩ := Nat.exists_eq_add_of_le hle
  induction more with
  | zero => rfl
  | succ more ih =>
    have hmore : fuel ≤ fuel + more := Nat.le_add_right fuel more
    rw [← Nat.add_assoc, (derive_and_fit_settle h (fuel + more)).1 left q s hs hq (Nat.le_trans hfuel hmore),
      ih hmore]

end Search

end Earley

end GrammarInference
