/-
GrammarInference/Proofs/Grammar/Passes.lean

When passes of inlining come to an end.

Design.  What a pass does to a nonterminal is said by three facts: its alternatives come from those before, they
do not become more, and a single alternative stays single.  So the nonterminals with a single alternative, and
those among them that mention themselves, only become more, and from some pass on they stay the same.  Then a
chain of nonterminals that are inlined is shortened by every pass, and if no such chain runs in a circle, the
chains come to an end, and so do the passes.  A circle need not become shorter: three nonterminals that mention
each other in turn are only permuted, so inlining goes on forever.

    inlining ends, unless from some pass on every pass leaves a circle of nonterminals that are inlined
-/
import GrammarInference.Proofs.Grammar.Meaning
import Mathlib.Data.Finset.Card
import Mathlib.Logic.Relation

namespace GrammarInference

namespace Grammar

variable {g g' : Grammar} {n m k : String} {r : Rule}

/-! ### Nonterminals that are inlined -/

/-- A pass replaces the references to `n`. -/
def Inlined (g : Grammar) (n : String) : Prop := ∃ r, OrderedMap.find n g.inlineBodies = some r

theorem inlineBody?_eq_some_iff {rs : List Rule} : inlineBody? n rs = some r ↔
    rs = [r] ∧ isPatternRoot n = false ∧ Symbol.nonterminal n ∉ r := by
  constructor
  · intro h
    obtain rfl := eq_singleton_of_inlineBody? h
    rw [inlineBody?] at h
    split at h
    · cases h
    · rename_i hcond
      simpa [mem_names_iff] using hcond
  · rintro ⟨rfl, hroot, hself⟩
    simp [inlineBody?, hroot, mem_names_iff, hself]

theorem nodup_inlineBodies (g : Grammar) : (g.inlineBodies.map Prod.fst).Nodup := by
  refine List.Nodup.sublist (map_fst_filterMap_sublist fun e p hp => ?_) g.nodup_keys
  obtain ⟨r, -, rfl⟩ := Option.map_eq_some_iff.mp hp
  rfl

/-- The body of a nonterminal that is inlined is its only alternative, and does not mention it. -/
theorem find_inlineBodies_eq_some_iff : OrderedMap.find n g.inlineBodies = some r ↔
    g.alternatives n = [r] ∧ isPatternRoot n = false ∧ Symbol.nonterminal n ∉ r := by
  rw [OrderedMap.find_eq_some_iff g.nodup_inlineBodies, ← inlineBody?_eq_some_iff, inlineBodies,
    List.mem_filterMap]
  constructor
  · rintro ⟨⟨n', rs⟩, he, hsome⟩
    obtain ⟨r', hr', heq⟩ := Option.map_eq_some_iff.mp hsome
    cases heq
    rwa [alternatives_of_mem_entries he]
  · intro h
    rcases hget : g.get? n with - | rs
    · rw [alternatives, hget] at h
      cases h
    · rw [alternatives, hget] at h
      exact ⟨(n, rs), OrderedMap.get?_eq_some_iff.mp hget, Option.map_eq_some_iff.mpr ⟨r, h, rfl⟩⟩

theorem inlined_iff : Inlined g n ↔
    isPatternRoot n = false ∧ (g.alternatives n).length = 1 ∧ n ∉ g.mentions n := by
  constructor
  · rintro ⟨r, hr⟩
    obtain ⟨hrs, hroot, hself⟩ := find_inlineBodies_eq_some_iff.mp hr
    refine ⟨hroot, by rw [hrs]; rfl, ?_⟩
    rw [mem_mentions_iff, hrs]
    simpa using hself
  · rintro ⟨hroot, hone, hself⟩
    obtain ⟨r, hrs⟩ := List.length_eq_one_iff.mp hone
    rw [mem_mentions_iff, hrs] at hself
    exact ⟨r, find_inlineBodies_eq_some_iff.mpr ⟨hrs, hroot, by simpa using hself⟩⟩

theorem not_inlined_iff : ¬Inlined g n ↔ OrderedMap.find n g.inlineBodies = none := by
  rw [Inlined, Option.eq_none_iff_forall_ne_some, not_exists]

/-! ### One pass -/

/-- The grammar after a pass. -/
def pass (g : Grammar) : Grammar := (inlineSingles g).1

theorem pass_eq (g : Grammar) : g.pass = g ∧ g.inlineBodies = [] ∨ g.pass = inlineAt g.inlineBodies g := by
  rw [pass, inlineSingles]
  split
  · rename_i h
    exact .inl ⟨rfl, h⟩
  · exact .inr rfl

theorem inlineInto_nil (r : Rule) : inlineInto [] r = r := by
  have hsymbol : ∀ x, inlineSymbol [] x = [x] := by
    intro x
    cases x <;> rfl
  rw [inlineInto_eq, show inlineSymbol [] = fun x => [x] from funext hsymbol, List.flatMap_singleton']

@[simp] theorem keys_pass (g : Grammar) : g.pass.keys = g.keys := by
  rcases g.pass_eq with ⟨h, -⟩ | h
  · rw [h]
  · rw [h, inlineAt, OrderedMap.keys_mapValues]

/-- Pattern roots are left as they are. -/
theorem alternatives_pass_of_root (h : isPatternRoot n = true) : g.pass.alternatives n = g.alternatives n := by
  rcases g.pass_eq with ⟨hp, -⟩ | hp
  · rw [hp]
  · rw [hp, alternatives_inlineAt, if_pos h]

/-- The alternatives after a pass are those before, with references replaced. -/
theorem mem_alternatives_pass_iff (h : isPatternRoot n = false) : r ∈ g.pass.alternatives n ↔
    ∃ b ∈ g.alternatives n, inlineInto g.inlineBodies b = r := by
  rcases g.pass_eq with ⟨hp, hnil⟩ | hp
  · rw [hp, hnil]
    simp [inlineInto_nil]
  · rw [hp, alternatives_inlineAt, h]
    simp

theorem length_distinct_le {α : Type} [DecidableEq α] (l : List α) : (distinct l).length ≤ l.length := by
  induction l with
  | nil => exact Nat.le_refl _
  | cons a l ih => exact Nat.succ_le_succ ((List.length_filter_le _ _).trans ih)

theorem length_alternatives_pass_le (g : Grammar) (n : String) :
    (g.pass.alternatives n).length ≤ (g.alternatives n).length := by
  rcases g.pass_eq with ⟨hp, -⟩ | hp
  · rw [hp]
  · rw [hp, alternatives_inlineAt]
    split
    · exact Nat.le_refl _
    · exact (length_distinct_le _).trans_eq (List.length_map _)

/-- A single alternative stays single. -/
theorem alternatives_pass_of_eq_singleton (h : isPatternRoot n = false) (hrs : g.alternatives n = [r]) :
    g.pass.alternatives n = [inlineInto g.inlineBodies r] := by
  rcases g.pass_eq with ⟨hp, hnil⟩ | hp
  · rw [hp, hnil, inlineInto_nil, hrs]
  · rw [hp, alternatives_inlineAt, h, hrs]
    rfl

/-- A nonterminal that is mentioned after a pass was mentioned before and is not inlined, or it was mentioned in
a body that was put in. -/
theorem mentions_pass (h : isPatternRoot n = false) (hm : m ∈ g.pass.mentions n) :
    ¬Inlined g m ∧ m ∈ g.mentions n ∨ ∃ k, Inlined g k ∧ k ∈ g.mentions n ∧ m ∈ g.mentions k := by
  obtain ⟨body, hbody, hmem⟩ := mem_mentions_iff.mp hm
  obtain ⟨b, hb, rfl⟩ := (mem_alternatives_pass_iff h).mp hbody
  obtain ⟨k, hk, ⟨hnone, rfl⟩ | ⟨body, hfind, hmem⟩⟩ := mem_inlineInto_iff.mp hmem
  · exact .inl ⟨not_inlined_iff.mpr hnone, mem_mentions_of_mem hb hk⟩
  · right
    refine ⟨k, ⟨body, hfind⟩, mem_mentions_of_mem hb hk, mem_mentions_iff.mpr ⟨body, ?_, hmem⟩⟩
    rw [alternatives_of_find_inlineBodies hfind]
    exact List.mem_singleton_self body

/-- What is not inlined stays mentioned. -/
theorem mem_mentions_pass (hm : m ∈ g.mentions n) (hno : ¬Inlined g m) : m ∈ g.pass.mentions n := by
  obtain ⟨body, hbody, hmem⟩ := mem_mentions_iff.mp hm
  by_cases h : isPatternRoot n = true
  · exact mem_mentions_iff.mpr ⟨body, by rwa [alternatives_pass_of_root h], hmem⟩
  · rw [Bool.not_eq_true] at h
    refine mem_mentions_iff.mpr ⟨_, (mem_alternatives_pass_iff h).mpr ⟨body, hbody, rfl⟩, ?_⟩
    exact mem_inlineInto_iff.mpr ⟨m, hmem, .inl ⟨not_inlined_iff.mp hno, rfl⟩⟩

/-- A pass replaces something exactly if a nonterminal that is no pattern root mentions one that is inlined. -/
theorem inlineSingles_snd_iff : (inlineSingles g).2 = true ↔
    ∃ n, isPatternRoot n = false ∧ ∃ m ∈ g.mentions n, Inlined g m := by
  have hany : (g.entries.any fun e => !isPatternRoot e.1 && e.2.any (mentionsBody g.inlineBodies)) = true ↔
      ∃ n, isPatternRoot n = false ∧ ∃ m ∈ g.mentions n, Inlined g m := by
    simp only [List.any_eq_true, Bool.and_eq_true, Bool.not_eq_true', mentionsBody, Option.isSome_iff_exists]
    constructor
    · rintro ⟨⟨n, rs⟩, he, hroot, b, hb, m, hm, hfind⟩
      refine ⟨n, hroot, m, ?_, hfind⟩
      exact mem_mentions_iff.mpr ⟨b, by rwa [alternatives_of_mem_entries he], mem_names_iff.mp hm⟩
    · rintro ⟨n, hroot, m, hm, hfind⟩
      obtain ⟨b, hb, hmem⟩ := mem_mentions_iff.mp hm
      rcases hget : g.get? n with - | rs
      · rw [alternatives, hget] at hb
        exact absurd hb List.not_mem_nil
      · rw [alternatives, hget] at hb
        exact ⟨(n, rs), OrderedMap.get?_eq_some_iff.mp hget, hroot, b, hb, m, mem_names_iff.mpr hmem, hfind⟩
  rw [inlineSingles]
  split
  · rename_i hnil
    have hnone : ∀ m, ¬Inlined g m := by
      rintro m ⟨r, hr⟩
      rw [hnil] at hr
      cases hr
    simp [hnone]
  · exact hany

theorem inlineInto_of_not_inlined (h : ∀ m, Symbol.nonterminal m ∈ r → ¬Inlined g m) :
    inlineInto g.inlineBodies r = r := by
  have hsymbol : ∀ x ∈ r, inlineSymbol g.inlineBodies x = [x] := by
    intro x hx
    cases x with
    | terminal t => rfl
    | nonterminal m => rw [inlineSymbol, not_inlined_iff.mp (h m hx), Option.getD_none]
  rw [inlineInto_eq, List.flatMap_congr hsymbol, List.flatMap_singleton']

/-- No definition that a pass may change lists an alternative twice. -/
def Tight (g : Grammar) : Prop := ∀ n, isPatternRoot n = false → (g.alternatives n).Nodup

/-- A pass that replaces something leaves no alternative twice. -/
theorem tight_pass (h : (inlineSingles g).2 = true) : Tight g.pass := by
  intro n hroot
  rcases g.pass_eq with ⟨-, hnil⟩ | hp
  · rw [inlineSingles, hnil] at h
    cases h
  · rw [hp, alternatives_inlineAt, hroot]
    exact nodup_distinct _

/-- Then a pass that replaces nothing changes nothing. -/
theorem Tight.pass_eq_self (ht : Tight g) (h : (inlineSingles g).2 = false) : g.pass = g := by
  rcases g.pass_eq with ⟨hp, -⟩ | hp
  · exact hp
  · rw [hp]
    apply OrderedMap.ext
    apply (List.map_congr_left _).trans (List.map_id g.entries)
    rintro ⟨n, rs⟩ he
    have hrs := alternatives_of_mem_entries he
    cases hroot : isPatternRoot n with
    | true => simp [hroot]
    | false =>
      have hbody : ∀ b ∈ rs, inlineInto g.inlineBodies b = id b := by
        intro b hb
        apply inlineInto_of_not_inlined
        intro m hm hinl
        rw [← Bool.not_eq_true] at h
        exact h (inlineSingles_snd_iff.mpr ⟨n, hroot, m, mem_mentions_of_mem (hrs ▸ hb) hm, hinl⟩)
      have hnodup : rs.Nodup := hrs ▸ ht n hroot
      simp [hroot, List.map_congr_left hbody, distinct_eq_self hnodup]

/-! ### What only grows -/

/-- The nonterminals with a single alternative, apart from pattern roots. -/
def singles (g : Grammar) : Finset String :=
  g.keys.toFinset.filter fun n => isPatternRoot n = false ∧ (g.alternatives n).length = 1

/-- Those of them that mention themselves, and so are not inlined. -/
def selfReferring (g : Grammar) : Finset String := g.singles.filter fun n => n ∈ g.mentions n

theorem mem_singles_iff : n ∈ g.singles ↔ isPatternRoot n = false ∧ (g.alternatives n).length = 1 := by
  rw [singles, Finset.mem_filter, List.mem_toFinset, and_iff_right_iff_imp]
  rintro ⟨-, hone⟩
  obtain ⟨r, hrs⟩ := List.length_eq_one_iff.mp hone
  exact OrderedMap.contains_iff_mem_keys.mp (contains_of_mem_alternatives (hrs ▸ List.mem_singleton_self r))

theorem mem_selfReferring_iff : n ∈ g.selfReferring ↔ n ∈ g.singles ∧ n ∈ g.mentions n := Finset.mem_filter

theorem inlined_iff_mem : Inlined g n ↔ n ∈ g.singles ∧ n ∉ g.selfReferring := by
  rw [inlined_iff, mem_selfReferring_iff, mem_singles_iff]
  tauto

theorem singles_subset_pass (g : Grammar) : g.singles ⊆ g.pass.singles := by
  intro n hn
  obtain ⟨hroot, hone⟩ := mem_singles_iff.mp hn
  obtain ⟨r, hrs⟩ := List.length_eq_one_iff.mp hone
  apply mem_singles_iff.mpr
  exact ⟨hroot, by rw [alternatives_pass_of_eq_singleton hroot hrs]; rfl⟩

theorem selfReferring_subset_pass (g : Grammar) : g.selfReferring ⊆ g.pass.selfReferring := by
  intro n hn
  have hno : ¬Inlined g n := fun h => (inlined_iff_mem.mp h).2 hn
  obtain ⟨hsingle, hself⟩ := mem_selfReferring_iff.mp hn
  exact mem_selfReferring_iff.mpr ⟨g.singles_subset_pass hsingle, mem_mentions_pass hself hno⟩

/-- How far the grammar has come: what only grows, counted. -/
def progress (g : Grammar) : Nat := g.singles.card + g.selfReferring.card

theorem progress_le (g : Grammar) : g.progress ≤ 2 * g.keys.length := by
  have hsingles : g.singles.card ≤ g.keys.length :=
    (Finset.card_filter_le _ _).trans (List.toFinset_card_le _)
  have hself : g.selfReferring.card ≤ g.singles.card := Finset.card_filter_le _ _
  rw [progress]
  omega

theorem progress_le_pass (g : Grammar) : g.progress ≤ g.pass.progress :=
  Nat.add_le_add (Finset.card_le_card g.singles_subset_pass) (Finset.card_le_card g.selfReferring_subset_pass)

/-- Without progress, the same nonterminals are inlined. -/
theorem inlined_pass_iff (h : g.pass.progress = g.progress) : Inlined g.pass n ↔ Inlined g n := by
  have hsingles := Finset.card_le_card g.singles_subset_pass
  have hself := Finset.card_le_card g.selfReferring_subset_pass
  rw [progress, progress] at h
  rw [inlined_iff_mem, inlined_iff_mem, ← Finset.eq_of_subset_of_card_le g.singles_subset_pass (by omega),
    ← Finset.eq_of_subset_of_card_le g.selfReferring_subset_pass (by omega)]

/-! ### Many passes -/

/-- After some passes there is one that replaces nothing. -/
def InliningEnds (g : Grammar) : Prop := ∃ bound, (inlineAll bound g).isSome = true

theorem inliningEnds_of_snd_eq_false (h : (inlineSingles g).2 = false) : InliningEnds g := by
  refine ⟨1, ?_⟩
  rcases hone : inlineSingles g with ⟨g₁, c⟩
  rw [hone] at h
  obtain rfl : c = false := h
  simp [inlineAll, hone]

theorem InliningEnds.of_pass (h : InliningEnds g.pass) : InliningEnds g := by
  rcases hone : inlineSingles g with ⟨g₁, - | -⟩
  · exact inliningEnds_of_snd_eq_false (by rw [hone])
  · obtain ⟨bound, hb⟩ := h
    rw [pass, hone] at hb
    exact ⟨bound + 1, by simpa [inlineAll, hone] using hb⟩

theorem InliningEnds.of_iterate {j : Nat} (h : InliningEnds (pass^[j] g)) : InliningEnds g := by
  induction j generalizing g with
  | zero => exact h
  | succ j ih => exact (ih h).of_pass

theorem keys_iterate_pass (g : Grammar) (j : Nat) : (pass^[j] g).keys = g.keys := by
  induction j generalizing g with
  | zero => rfl
  | succ j ih => rw [Function.iterate_succ_apply, ih, keys_pass]

theorem progress_le_iterate (g : Grammar) (j : Nat) : g.progress ≤ (pass^[j] g).progress := by
  induction j generalizing g with
  | zero => exact Nat.le_refl _
  | succ j ih => exact g.progress_le_pass.trans (ih g.pass)

/-- Both nonterminals are inlined, and the second one is mentioned by the first. -/
def Chained (g : Grammar) (n m : String) : Prop := Inlined g n ∧ Inlined g m ∧ m ∈ g.mentions n

/-- A chain of nonterminals that are inlined comes back to its start. -/
def Circular (g : Grammar) : Prop := ∃ n, Relation.TransGen (Chained g) n n

/-- No pass makes progress. -/
def Steady (g : Grammar) : Prop := ∀ j, (pass^[j] g).progress = g.progress

theorem Steady.pass (h : Steady g) : Steady g.pass := by
  intro j
  have hone : g.pass.progress = g.progress := h 1
  exact (h (j + 1)).trans hone.symm

theorem Steady.iterate (h : Steady g) (j : Nat) : Steady (Grammar.pass^[j] g) := by
  induction j generalizing g with
  | zero => exact h
  | succ j ih => exact ih h.pass

/-- If every chain goes down in rank, and nothing of rank `d` or more is mentioned, then `d` passes replace all
that can be replaced. -/
theorem Steady.inliningEnds_of_rank {rank : String → Nat} {d : Nat} (hsteady : Steady g)
    (hrank : ∀ n m, Chained g n m → rank m < rank n)
    (hbelow : ∀ n, isPatternRoot n = false → ∀ m ∈ g.mentions n, Inlined g m → rank m < d) :
    InliningEnds g := by
  induction d generalizing g with
  | zero =>
    -- nothing that is inlined is mentioned, so the first pass is the last one
    apply inliningEnds_of_snd_eq_false
    rw [← Bool.not_eq_true, inlineSingles_snd_iff]
    rintro ⟨n, hroot, m, hm, hinl⟩
    exact absurd (hbelow n hroot m hm hinl) (Nat.not_lt_zero _)
  | succ d ih =>
    have hsame : ∀ n, Inlined g.pass n ↔ Inlined g n := fun n => inlined_pass_iff (hsteady 1)
    -- an inlined nonterminal that is still mentioned was mentioned in the body of another one
    have hbetween : ∀ n m, isPatternRoot n = false → m ∈ g.pass.mentions n → Inlined g m →
        ∃ k, Inlined g k ∧ k ∈ g.mentions n ∧ Chained g k m := by
      intro n m hroot hm hinl
      obtain ⟨hno, -⟩ | ⟨k, hk, hkn, hmk⟩ := mentions_pass hroot hm
      · exact absurd hinl hno
      · exact ⟨k, hk, hkn, hk, hinl, hmk⟩
    apply InliningEnds.of_pass
    apply ih hsteady.pass
    · rintro n m ⟨hn, hm, hmem⟩
      rw [hsame] at hn hm
      obtain ⟨k, hk, hkn, hkm⟩ := hbetween n m (inlined_iff.mp hn).1 hmem hm
      exact (hrank k m hkm).trans (hrank n k ⟨hn, hk, hkn⟩)
    · intro n hroot m hmem hm
      rw [hsame] at hm
      obtain ⟨k, hk, hkn, hkm⟩ := hbetween n m hroot hmem hm
      have hkm' := hrank k m hkm
      have hkd := hbelow n hroot k hkn hk
      omega

open Classical in
/-- How many nonterminals a chain from `n` can come to. -/
noncomputable def chainRank (g : Grammar) (n : String) : Nat :=
  (g.singles.filter fun m => Relation.TransGen (Chained g) n m).card

open Classical in
theorem chainRank_lt (hno : ¬Circular g) (h : Chained g n m) : chainRank g m < chainRank g n := by
  apply Finset.card_lt_card
  rw [Finset.ssubset_iff_of_subset]
  · -- a chain from `m` does not come back to `m`, but one from `n` comes to it
    refine ⟨m, Finset.mem_filter.mpr ⟨(inlined_iff_mem.mp h.2.1).1, .single h⟩, ?_⟩
    intro hm
    exact hno ⟨m, (Finset.mem_filter.mp hm).2⟩
  · intro k hk
    obtain ⟨hsingle, hchain⟩ := Finset.mem_filter.mp hk
    exact Finset.mem_filter.mpr ⟨hsingle, .head h hchain⟩

open Classical in
theorem Steady.inliningEnds (hsteady : Steady g) (hno : ¬Circular g) : InliningEnds g := by
  have hbelow : ∀ n, isPatternRoot n = false → ∀ m ∈ g.mentions n, Inlined g m →
      chainRank g m < g.singles.card + 1 := by
    intro n _ m _ _
    exact Nat.lt_succ_of_le (Finset.card_filter_le _ _)
  exact hsteady.inliningEnds_of_rank (fun n m h => chainRank_lt hno h) hbelow

/-- Inlining ends unless circles persist: it is enough that again and again a pass leaves none. -/
theorem inliningEnds_of_not_circular (h : ∀ k, ∃ j ≥ k, ¬Circular (pass^[j] g)) : InliningEnds g := by
  -- by induction on how much progress can still be made
  induction hleft : 2 * g.keys.length - g.progress using Nat.strongRecOn generalizing g with
  | ind left ih =>
    by_cases hmore : ∃ k, g.progress < (pass^[k] g).progress
    · -- from the grammar after `k` passes on, less is left
      obtain ⟨k, hk⟩ := hmore
      have hle := (pass^[k] g).progress_le
      rw [keys_iterate_pass] at hle
      apply InliningEnds.of_iterate (j := k)
      refine ih _ ?_ ?_ rfl
      · rw [← hleft, keys_iterate_pass]
        omega
      · intro i
        obtain ⟨j, hj, hno⟩ := h (i + k)
        refine ⟨j - k, by omega, ?_⟩
        rwa [← Function.iterate_add_apply, Nat.sub_add_cancel (by omega)]
    · -- no pass makes progress any more, so a single one that leaves no circle is enough
      have hsteady : Steady g := by
        intro j
        apply Nat.le_antisymm _ (g.progress_le_iterate j)
        exact Nat.le_of_not_lt fun hlt => hmore ⟨j, hlt⟩
      obtain ⟨j, -, hno⟩ := h 0
      exact ((hsteady.iterate j).inliningEnds hno).of_iterate

theorem Circular.snd_eq_true (h : Circular g) : (inlineSingles g).2 = true := by
  obtain ⟨n, hn⟩ := h
  obtain ⟨m, ⟨hn, hm, hmem⟩, -⟩ := Relation.TransGen.head'_iff.mp hn
  exact inlineSingles_snd_iff.mpr ⟨n, (inlined_iff.mp hn).1, m, hmem, hm⟩

theorem Tight.not_circular_iterate (ht : Tight g) (h : (inlineSingles g).2 = false) (j : Nat) :
    ¬Circular (pass^[j] g) := by
  rw [Function.iterate_fixed (ht.pass_eq_self h)]
  intro hcirc
  rw [hcirc.snd_eq_true] at h
  cases h

/-- Inlining ends if already the first pass replaces nothing, and else exactly if circles do not persist. -/
theorem inliningEnds_iff :
    InliningEnds g ↔ (inlineSingles g).2 = false ∨ ∀ k, ∃ j ≥ k, ¬Circular (pass^[j] g) := by
  constructor
  · rintro ⟨bound, h⟩
    induction bound generalizing g with
    | zero => cases h
    | succ bound ih =>
      rcases hone : inlineSingles g with ⟨g₁, - | -⟩
      · exact .inl rfl
      · right
        obtain rfl : g.pass = g₁ := by rw [pass, hone]
        rw [inlineAll, hone, Option.isSome_map] at h
        intro k
        rcases ih h with hlast | hmore
        · -- the second pass changes nothing, and neither do those behind it
          refine ⟨k + 1, by omega, ?_⟩
          exact (tight_pass (by rw [hone])).not_circular_iterate hlast k
        · obtain ⟨j, hj, hno⟩ := hmore k
          exact ⟨j + 1, by omega, hno⟩
  · rintro (h | h)
    · exact inliningEnds_of_snd_eq_false h
    · exact inliningEnds_of_not_circular h

/-! ### Grammars without mutual recursion -/

/-- One nonterminal mentions another one, and neither is a pattern root. -/
def Mentions (g : Grammar) (n m : String) : Prop :=
  isPatternRoot n = false ∧ isPatternRoot m = false ∧ n ≠ m ∧ m ∈ g.mentions n

theorem Chained.mentions (h : Chained g n m) : Mentions g n m := by
  obtain ⟨hn, hm, hmem⟩ := h
  refine ⟨(inlined_iff.mp hn).1, (inlined_iff.mp hm).1, ?_, hmem⟩
  rintro rfl
  exact (inlined_iff.mp hn).2.2 hmem

/-- What is mentioned after a pass was reached before. -/
theorem Mentions.of_pass (h : Mentions g.pass n m) : Relation.TransGen (Mentions g) n m := by
  obtain ⟨hn, hm, hne, hmem⟩ := h
  obtain ⟨-, hmem⟩ | ⟨k, hk, hkn, hmk⟩ := mentions_pass hn hmem
  · exact .single ⟨hn, hm, hne, hmem⟩
  · obtain ⟨hroot, -, hself⟩ := inlined_iff.mp hk
    have hnk : n ≠ k := by
      rintro rfl
      exact hself hkn
    have hkm : k ≠ m := by
      rintro rfl
      exact hself hmk
    exact .tail (.single ⟨hn, hroot, hnk, hkn⟩) ⟨hroot, hm, hkm, hmk⟩

/-- Inlining ends if no nonterminal, pattern roots apart, mentions itself by way of another one. -/
theorem inliningEnds_of_not_mutual (h : ∀ n, ¬Relation.TransGen (Mentions g) n n) : InliningEnds g := by
  have hpasses : ∀ j, ∀ n, ¬Relation.TransGen (Mentions (pass^[j] g)) n n := by
    intro j
    induction j with
    | zero => exact h
    | succ j ih =>
      intro n hn
      rw [Function.iterate_succ_apply'] at hn
      apply ih n
      exact Relation.TransGen.lift' id (fun _ _ => Mentions.of_pass) n n hn
  apply inliningEnds_of_not_circular
  intro k
  refine ⟨k, Nat.le_refl k, ?_⟩
  rintro ⟨n, hn⟩
  exact hpasses k n (Relation.TransGen.mono (fun _ _ => Chained.mentions) n n hn)

/-! ### A circle that persists -/

/-- Three nonterminals that mention each other in turn. -/
def circle : Grammar := .ofList
  [(startName, [[.nonterminal "<a>"]]), ("<a>", [[.nonterminal "<b>"]]), ("<b>", [[.nonterminal "<c>"]]),
   ("<c>", [[.nonterminal "<a>"]])]

/-- The same circle, run through the other way. -/
def reversedCircle : Grammar := .ofList
  [(startName, [[.nonterminal "<b>"]]), ("<a>", [[.nonterminal "<c>"]]), ("<b>", [[.nonterminal "<a>"]]),
   ("<c>", [[.nonterminal "<b>"]])]

theorem inlineSingles_circle : inlineSingles circle = (reversedCircle, true) := by decide +kernel

theorem inlineSingles_reversedCircle : inlineSingles reversedCircle = (circle, true) := by decide +kernel

/-- The passes reverse the circle again and again. -/
theorem inlineAll_circle (bound : Nat) :
    inlineAll bound circle = none ∧ inlineAll bound reversedCircle = none := by
  induction bound with
  | zero => exact ⟨rfl, rfl⟩
  | succ bound ih =>
    constructor
    · rw [inlineAll, inlineSingles_circle]
      simp [ih.2]
    · rw [inlineAll, inlineSingles_reversedCircle]
      simp [ih.1]

end Grammar

end GrammarInference
