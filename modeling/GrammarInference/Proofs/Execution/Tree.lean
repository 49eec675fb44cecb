/-
GrammarInference/Proofs/Execution/Tree.lean

Execution trees as they are built, and the words that they stand for.

Design.  A tree that was built has labels that fit the kinds of its nodes, and iterations stand below loops and
nowhere else; this is `WellFormed`.  A word of a tree takes one value of every bucket, from left to right.  The
nodes of a tree are visited level by level; what is below a visited node is visited too, so a property of all
visited nodes is one of all nodes.
-/
import GrammarInference.Proofs.Execution.Label

namespace GrammarInference

namespace ExecutionTree

/-! ### Trees that are built -/

/-- The labels fit the kinds of the nodes, iterations stand below loops and only there, and every loop has one. -/
inductive WellFormed : ExecutionTree → Prop
  | bucket (k : Nat) (values : List Nat) : WellFormed (.node (bucketLabel k) (.bucket values) [])
  | step {e : PathElement} {ts : List ExecutionTree} : IsObserved e.callee → (∀ t ∈ ts, WellFormed t) →
      (∀ t ∈ ts, t.kind = .iteration ↔ e.kind = .loop) → (e.kind = .loop → ts ≠ []) →
      WellFormed (.node e.label e.kind ts)

theorem WellFormed.of_mem_children {t c : ExecutionTree} (h : t.WellFormed) (hc : c ∈ t.children) :
    c.WellFormed := by
  cases h with
  | bucket k values => exact absurd hc List.not_mem_nil
  | step _ hts _ _ => exact hts c hc

/-- Names of observed functions and numbers of buckets label the nodes. -/
theorem WellFormed.label_cases {t : ExecutionTree} (h : t.WellFormed) :
    (∃ k, t.label = bucketLabel k) ∨ IsOfObserved t.label := by
  cases h with
  | bucket k values => exact .inl ⟨k, rfl⟩
  | step ho _ _ _ => exact .inr (isOfObserved_label ho)

/-! ### Words -/

mutual

/-- The values of the buckets, from left to right. -/
def buckets : ExecutionTree → List (List Nat)
  | .node _ kind ts =>
    match kind with
    | .bucket values => values :: bucketsBelow ts
    | _ => bucketsBelow ts

/-- The values of the buckets of a list of trees. -/
def bucketsBelow : List ExecutionTree → List (List Nat)
  | [] => []
  | t :: ts => t.buckets ++ bucketsBelow ts

end

/-- `Chooses vs w`: the word `w` takes one value of every list, and nothing of an empty one. -/
inductive Chooses : List (List Nat) → List Char → Prop
  | nil : Chooses [] []
  | skip {vs w} : Chooses vs w → Chooses ([] :: vs) w
  | take {values vs w v} : v ∈ values → Chooses vs w → Chooses (values :: vs) (Char.ofNat v :: w)

/-- The tree stands for the word: it takes one value of every bucket, from left to right. -/
def HasWord (t : ExecutionTree) (w : List Char) : Prop := Chooses t.buckets w

theorem chooses_nil_iff {w : List Char} : Chooses [] w ↔ w = [] := by
  constructor
  · intro h
    cases h
    rfl
  · rintro rfl
    exact .nil

/-- A choice for some lists splits between any two of them. -/
theorem Chooses.split {us vs : List (List Nat)} {w : List Char} (h : Chooses (us ++ vs) w) :
    ∃ u v, w = u ++ v ∧ Chooses us u ∧ Chooses vs v := by
  induction us generalizing w with
  | nil => exact ⟨[], w, rfl, .nil, h⟩
  | cons values us ih =>
    cases h with
    | skip h =>
      obtain ⟨u, v, rfl, hu, hv⟩ := ih h
      exact ⟨u, v, rfl, .skip hu, hv⟩
    | take hmem h =>
      obtain ⟨u, v, rfl, hu, hv⟩ := ih h
      exact ⟨_ :: u, v, rfl, .take hmem hu, hv⟩

/-- A word of some trees is put together from words of each. -/
theorem Chooses.split_cons {t : ExecutionTree} {ts : List ExecutionTree} {w : List Char}
    (h : Chooses (bucketsBelow (t :: ts)) w) :
    ∃ u v, w = u ++ v ∧ t.HasWord u ∧ Chooses (bucketsBelow ts) v :=
  h.split

/-- A node that is no bucket stands for what the trees below it stand for. -/
theorem buckets_step (e : PathElement) (ts : List ExecutionTree) :
    (node e.label e.kind ts).buckets = bucketsBelow ts := by
  cases e <;> simp only [PathElement.kind, buckets]

/-! ### Levels -/

theorem size_eq (t : ExecutionTree) : t.size = 1 + sizeAll t.children := by
  cases t
  rw [size]
  rfl

theorem sizeAll_append (ts us : List ExecutionTree) : sizeAll (ts ++ us) = sizeAll ts + sizeAll us := by
  induction ts with
  | nil => rw [List.nil_append, sizeAll, Nat.zero_add]
  | cons t ts ih => rw [List.cons_append, sizeAll, sizeAll, ih, Nat.add_assoc]

/-- A visit takes one node off the queue and puts those below it on. -/
theorem sizeAll_visit (t : ExecutionTree) (queue : List ExecutionTree) :
    sizeAll (t :: queue) = sizeAll (queue ++ t.children) + 1 := by
  rw [sizeAll, size_eq, sizeAll_append]
  omega

/-- With enough steps the queue and all that is below a visited tree is visited. -/
theorem breadthFirst_spec {bound : Nat} {queue : List ExecutionTree} (hbound : sizeAll queue ≤ bound) :
    queue ⊆ breadthFirst bound queue ∧
      ∀ t ∈ breadthFirst bound queue, t.children ⊆ breadthFirst bound queue := by
  induction bound generalizing queue with
  | zero =>
    cases queue with
    | nil => exact ⟨List.nil_subset _, fun t ht => absurd ht List.not_mem_nil⟩
    | cons t queue =>
      -- a tree has at least one node
      rw [sizeAll_visit] at hbound
      omega
  | succ bound ih =>
    cases queue with
    | nil => exact ⟨List.nil_subset _, fun t ht => absurd ht List.not_mem_nil⟩
    | cons t queue =>
      rw [sizeAll_visit] at hbound
      obtain ⟨hsub, hclosed⟩ := ih (Nat.le_of_succ_le_succ hbound)
      obtain ⟨hqueue, hchildren⟩ := List.append_subset.mp hsub
      rw [breadthFirst]
      refine ⟨List.cons_subset_cons t hqueue, ?_⟩
      intro u hu
      rcases List.mem_cons.mp hu with rfl | hu
      · exact fun c hc => List.mem_cons_of_mem _ (hchildren hc)
      · exact fun c hc => List.mem_cons_of_mem _ (hclosed u hu hc)

theorem levels_spec (t : ExecutionTree) : [t] ⊆ t.levels ∧ ∀ u ∈ t.levels, u.children ⊆ t.levels := by
  refine breadthFirst_spec ?_
  exact Nat.le_of_eq (by rw [sizeAll, sizeAll, Nat.add_zero])

theorem mem_levels_self (t : ExecutionTree) : t ∈ t.levels := t.levels_spec.1 (List.mem_singleton_self t)

/-- A property that passes to the children holds of all visited trees. -/
theorem forall_mem_breadthFirst {P : ExecutionTree → Prop} (hP : ∀ t, P t → ∀ c ∈ t.children, P c)
    {bound : Nat} {queue : List ExecutionTree} (h : ∀ t ∈ queue, P t) : ∀ t ∈ breadthFirst bound queue, P t := by
  induction bound generalizing queue with
  | zero => exact fun t ht => absurd ht List.not_mem_nil
  | succ bound ih =>
    cases queue with
    | nil => exact fun t ht => absurd ht List.not_mem_nil
    | cons t queue =>
      rw [List.forall_mem_cons] at h
      rw [breadthFirst, List.forall_mem_cons]
      exact ⟨h.1, ih (List.forall_mem_append.mpr ⟨h.2, hP t h.1⟩)⟩

theorem WellFormed.of_mem_levels {t u : ExecutionTree} (h : t.WellFormed) (hu : u ∈ t.levels) : u.WellFormed :=
  forall_mem_breadthFirst (fun _ ht _ hc => ht.of_mem_children hc)
    (List.forall_mem_singleton.mpr h) u hu

end ExecutionTree

end GrammarInference
