/-
GrammarInference/Proofs/Execution/Origin.lean

What labels stand for, whatever the order in which they were given out.

Design.  Calls, loops and sets of solutions are numbered in the order in which they are seen, so the same call
has different labels in different runs.  Its `Origin` is the same: the function with the key of the call, the
header of the loop, the values of the bucket.  A label state only grows (`IsBefore`), and a place in it never
changes, so the labels of a trace can be read off any later state (`build_eq_treeIn`).  A state in which two
origins were seen gives them different names (`Origin.name_inj`).
-/
import GrammarInference.Proofs.Execution.Build
import Mathlib.Data.List.Infix

namespace GrammarInference

/-! ### Steps without numbers -/

/-- A step on the way from the outermost call to a read, told by its keys. -/
inductive Step where
  /-- A call, with its key. -/
  | call (callee key : String)
  /-- A loop of a call, with its header. -/
  | loop (callee key header : String)
  /-- One iteration of a loop. -/
  | iteration (callee key header : String) (count : Nat)

/-- What a nonterminal of a mined grammar stands for. -/
inductive Origin where
  /-- The start symbol. -/
  | start
  /-- A bucket with some values. -/
  | bucket (values : List Nat)
  /-- A step. -/
  | step (o : Step)
  /-- The continue part of a loop. -/
  | continued (o : Step)
  /-- The exit part of a loop. -/
  | exited (o : Step)

namespace Step

/-- The step with the numbers that a label state gives. -/
def element (s : LabelState) : Step → PathElement
  | .call f k => .call f (LabelState.placeOf f k s.contexts)
  | .loop f k h => .loop f (LabelState.placeOf f k s.contexts) (LabelState.placeOf f h s.loops)
  | .iteration f k h n => .iteration f (LabelState.placeOf f k s.contexts) (LabelState.placeOf f h s.loops) n

/-- The keys of the step were seen. -/
def SeenIn (s : LabelState) : Step → Prop
  | .call f k => (f, k) ∈ s.contexts
  | .loop f k h => (f, k) ∈ s.contexts ∧ (f, h) ∈ s.loops
  | .iteration f k h _ => (f, k) ∈ s.contexts ∧ (f, h) ∈ s.loops

/-- The steps of the loops of a call. -/
def ofLoops (f k : String) (loops : List LoopIteration) : List Step :=
  loops.flatMap fun l => [.loop f k l.header, .iteration f k l.header l.count.toNat]

/-- The steps of a call stack below the given call sites. -/
def ofCalls (mode : ContextMode) (callsites : List String) : CallStack → List Step
  | [] => []
  | f :: rest =>
    let callsites := callsites ++ [f.callsite]
    let key := LabelState.contextKey mode callsites
    .call f.callee key :: ofLoops f.callee key f.loops ++ ofCalls mode callsites rest

end Step

namespace Origin

/-- The name that a label state gives. -/
def name (s : LabelState) : Origin → String
  | .start => startName
  | .bucket values => bucketLabel (s.buckets.indexOf values + 1)
  | .step o => (o.element s).label
  | .continued o => continueName (o.element s).label
  | .exited o => exitName (o.element s).label

/-- What the name stands for was seen. -/
def SeenIn (s : LabelState) : Origin → Prop
  | .start => True
  | .bucket values => values ∈ s.buckets
  | .step o => o.SeenIn s
  | .continued o => o.SeenIn s
  | .exited o => o.SeenIn s

end Origin

/-! ### Names tell origins apart -/

namespace PathElement

theorem toList_callText (f : String) (c : Nat) : (callText f c).toList = f.toList ++ '@' :: (toString c).toList := by
  simp [callText]

theorem toList_loopText (f : String) (c i : Nat) :
    (loopText f c i).toList = ((callText f c).toList ++ ['_']) ++ 'L' :: (toString i).toList := by
  simp [loopText]

theorem callText_inj {f f' : String} {c c' : Nat} (h : callText f c = callText f' c') : f = f' ∧ c = c' := by
  rw [← String.toList_inj, toList_callText, toList_callText] at h
  obtain ⟨hf, hc⟩ := eq_of_append_cons_eq (not_mem_toString (by decide) c) (not_mem_toString (by decide) c') h
  exact ⟨String.toList_inj.mp hf, eq_of_toString_eq (String.toList_inj.mp hc)⟩

theorem loopText_inj {f f' : String} {c c' i i' : Nat} (h : loopText f c i = loopText f' c' i') :
    f = f' ∧ c = c' ∧ i = i' := by
  rw [← String.toList_inj, toList_loopText, toList_loopText] at h
  obtain ⟨hcall, hi⟩ := eq_of_append_cons_eq (not_mem_toString (by decide) i) (not_mem_toString (by decide) i') h
  obtain ⟨hf, hc⟩ := callText_inj (String.toList_inj.mp (List.append_cancel_right hcall))
  exact ⟨hf, hc, eq_of_toString_eq (String.toList_inj.mp hi)⟩

theorem toList_label_iteration (f : String) (c i n : Nat) : (iteration f c i n).label.toList =
    ('<' :: (loopText f c i).toList ++ [':']) ++ 'I' :: (toString n).toList ++ ['>'] := by
  simp [label]

/-- Different steps have different labels. -/
theorem label_injective : Function.Injective label := by
  intro e e' h
  have hkind := kind_eq_of_label_eq h
  rw [← String.toList_inj] at h
  cases e with
  | call f c =>
    cases e' with
    | call f' c' =>
      simp only [label, String.toList_append, List.append_cancel_left_eq, List.append_cancel_right_eq] at h
      obtain ⟨rfl, rfl⟩ := callText_inj (String.toList_inj.mp h)
      rfl
    | loop | iteration => cases hkind
  | loop f c i =>
    cases e' with
    | loop f' c' i' =>
      simp only [label, String.toList_append, List.append_cancel_left_eq, List.append_cancel_right_eq] at h
      obtain ⟨rfl, rfl, rfl⟩ := loopText_inj (String.toList_inj.mp h)
      rfl
    | call | iteration => cases hkind
  | iteration f c i n =>
    cases e' with
    | iteration f' c' i' n' =>
      rw [toList_label_iteration, toList_label_iteration, List.append_cancel_right_eq] at h
      obtain ⟨hloop, hn⟩ :=
        eq_of_append_cons_eq (not_mem_toString (by decide) n) (not_mem_toString (by decide) n') h
      rw [List.append_cancel_right_eq, List.cons_inj_right] at hloop
      obtain ⟨rfl, rfl, rfl⟩ := loopText_inj (String.toList_inj.mp hloop)
      rw [eq_of_toString_eq (String.toList_inj.mp hn)]
    | call | loop => cases hkind

end PathElement

/-- A label can be read back from what is left of it without its bracket. -/
theorem PathElement.eq_of_dropLast_eq {e e' : PathElement} (h : e.label.toList.dropLast = e'.label.toList.dropLast) :
    e = e' := by
  obtain ⟨u, hu⟩ := e.exists_toList_label
  obtain ⟨u', hu'⟩ := e'.exists_toList_label
  rw [hu, hu', List.dropLast_concat, List.dropLast_concat] at h
  exact PathElement.label_injective (String.toList_inj.mp (by rw [hu, hu', h]))

namespace LabelState

variable {s s' s'' : LabelState} {f k k' h h' : String} {mode : ContextMode} {keepNull : Bool}

theorem mem_filter_of_mem {seen : OrderedSet (String × String)} (hk : (f, k) ∈ seen) :
    (f, k) ∈ seen.toList.filter fun e => decide (e.1 = f) :=
  List.mem_filter.mpr ⟨hk, decide_eq_true rfl⟩

/-- Keys of one function have different numbers. -/
theorem placeOf_inj {seen : OrderedSet (String × String)} (hk : (f, k) ∈ seen)
    (heq : placeOf f k seen = placeOf f k' seen) : k = k' :=
  (Prod.mk.inj ((List.idxOf_inj (mem_filter_of_mem hk)).mp heq)).2

end LabelState

variable {s s' s'' : LabelState}

open LabelState

/-- Steps that were seen get different labels. -/
theorem Step.element_inj {o o' : Step} (ho : o.SeenIn s) (h : o.element s = o'.element s) : o = o' := by
  cases o with
  | call f k =>
    cases o' with
    | call f' k' =>
      obtain ⟨rfl, hk⟩ := PathElement.call.inj h
      rw [placeOf_inj ho hk]
    | loop | iteration => cases h
  | loop f k l =>
    cases o' with
    | loop f' k' l' =>
      obtain ⟨rfl, hk, hl⟩ := PathElement.loop.inj h
      rw [placeOf_inj ho.1 hk, placeOf_inj ho.2 hl]
    | call | iteration => cases h
  | iteration f k l n =>
    cases o' with
    | iteration f' k' l' n' =>
      obtain ⟨rfl, hk, hl, rfl⟩ := PathElement.iteration.inj h
      rw [placeOf_inj ho.1 hk, placeOf_inj ho.2 hl]
    | call | loop => cases h

theorem Step.eq_of_dropLast_eq {o o' : Step} (ho : o.SeenIn s)
    (h : (o.element s).label.toList.dropLast = (o'.element s).label.toList.dropLast) : o = o' :=
  element_inj ho (PathElement.eq_of_dropLast_eq h)

/-- The mark of the name of an origin. -/
def Origin.mark : Origin → Char
  | .start => 't'
  | .bucket _ => 'T'
  | .step (.call _ _) => '@'
  | .step (.loop _ _ _) => 'L'
  | .step (.iteration _ _ _ _) => 'I'
  | .continued _ => 't'
  | .exited _ => 't'

theorem Origin.mark_name (s : LabelState) (q : Origin) : GrammarInference.mark (q.name s) = some q.mark := by
  cases q with
  | start => exact mark_startName
  | bucket values => exact mark_bucketLabel _
  | step o => cases o <;> exact mark_label _
  | continued o => exact mark_continueName _
  | exited o => exact mark_exitName _

/-- Origins that were seen have different names. -/
theorem Origin.name_inj {q q' : Origin} (hq : q.SeenIn s) (hq' : q'.SeenIn s) (h : q.name s = q'.name s) :
    q = q' := by
  -- only the start symbol and the two names beside a loop have the same mark, so only these are compared as texts
  have hmark : q.mark = q'.mark := by rw [← Option.some_inj, ← mark_name s, ← mark_name s, h]
  cases q with
  | start =>
    cases q' with
    | start => rfl
    | bucket => cases hmark
    | step o => cases o <;> cases hmark
    | continued o => exact absurd h.symm (continueName_ne_startName _)
    | exited o => exact absurd h.symm (exitName_ne_startName _)
  | bucket values =>
    cases q' with
    | bucket values' =>
      have hindex : s.buckets.indexOf values + 1 = s.buckets.indexOf values' + 1 := by
        rw [name, name, bucketLabel, bucketLabel, ← String.toList_inj] at h
        simp only [String.toList_append, List.append_cancel_left_eq, List.append_cancel_right_eq] at h
        exact eq_of_toString_eq (String.toList_inj.mp h)
      rw [OrderedSet.indexOf_inj hq hq' (Nat.succ.inj hindex)]
    | step o => cases o <;> cases hmark
    | start | continued | exited => cases hmark
  | step o =>
    cases q' with
    | step o' => rw [Step.element_inj hq (PathElement.label_injective h)]
    | start | bucket | continued | exited => cases o <;> cases hmark
  | continued o =>
    cases q' with
    | continued o' =>
      rw [name, name, ← String.toList_inj, toList_continueName, toList_continueName] at h
      rw [Step.eq_of_dropLast_eq hq (List.append_cancel_right h)]
    | start => exact absurd h (continueName_ne_startName _)
    | bucket => cases hmark
    | step o' => cases o' <;> cases hmark
    | exited o' => exact absurd h (continueName_ne_exitName _ _)
  | exited o =>
    cases q' with
    | exited o' =>
      rw [name, name, ← String.toList_inj, toList_exitName, toList_exitName] at h
      rw [Step.eq_of_dropLast_eq hq (List.append_cancel_right h)]
    | start => exact absurd h (exitName_ne_startName _)
    | bucket => cases hmark
    | step o' => cases o' <;> cases hmark
    | continued o' => exact absurd h.symm (continueName_ne_exitName _ _)

/-! ### States only grow -/

/-- Everything was seen in the same order, and what was seen since then comes behind it. -/
structure LabelState.IsBefore (s s' : LabelState) : Prop where
  /-- The calls seen before come first. -/
  contexts : s.contexts.toList <+: s'.contexts.toList
  /-- The loops seen before come first. -/
  loops : s.loops.toList <+: s'.loops.toList
  /-- The sets of solutions seen before come first. -/
  buckets : s.buckets.toList <+: s'.buckets.toList

theorem OrderedSet.prefix_insert {α : Type} [DecidableEq α] (seen : OrderedSet α) (a : α) :
    seen.toList <+: (seen.insert a).toList := by
  by_cases h : a ∈ seen
  · rw [insert_of_mem h]
  · rw [toList_insert_of_not_mem h]
    exact List.prefix_append _ _

theorem OrderedSet.indexOf_stable {α : Type} [DecidableEq α] {seen seen' : OrderedSet α} {a : α}
    (h : seen.toList <+: seen'.toList) (ha : a ∈ seen) : seen'.indexOf a = seen.indexOf a := by
  obtain ⟨rest, hrest⟩ := h
  rw [indexOf, ← hrest]
  exact List.idxOf_append_of_mem ha

namespace LabelState

theorem IsBefore.refl (s : LabelState) : s.IsBefore s :=
  ⟨List.prefix_refl _, List.prefix_refl _, List.prefix_refl _⟩

theorem IsBefore.trans (h : s.IsBefore s') (h' : s'.IsBefore s'') : s.IsBefore s'' :=
  ⟨h.contexts.trans h'.contexts, h.loops.trans h'.loops, h.buckets.trans h'.buckets⟩

theorem isBefore_contextId (s : LabelState) (f k : String) : s.IsBefore (s.contextId f k).2 :=
  ⟨s.contexts.prefix_insert (f, k), List.prefix_refl _, List.prefix_refl _⟩

theorem isBefore_loopId (s : LabelState) (f h : String) : s.IsBefore (s.loopId f h).2 :=
  ⟨List.prefix_refl _, s.loops.prefix_insert (f, h), List.prefix_refl _⟩

theorem isBefore_bucketId (s : LabelState) (values : List Nat) : s.IsBefore (s.bucketId values).2 :=
  ⟨List.prefix_refl _, List.prefix_refl _, s.buckets.prefix_insert values⟩

theorem isBefore_loopPath (s : LabelState) (f : String) (c : Nat) (loops : List LoopIteration) :
    s.IsBefore (s.loopPath f c loops).2 := by
  induction loops generalizing s with
  | nil => exact .refl s
  | cons l rest ih => exact (s.isBefore_loopId f l.header).trans (ih _)

theorem isBefore_pathBelow (s : LabelState) (mode : ContextMode) (callsites : List String) (context : CallStack) :
    s.IsBefore (s.pathBelow mode callsites context).2 := by
  induction context generalizing s callsites with
  | nil => exact .refl s
  | cons f rest ih => exact ((s.isBefore_contextId _ _).trans (isBefore_loopPath _ _ _ _)).trans (ih _ _)

/-- A place does not change. -/
theorem placeOf_stable {seen seen' : OrderedSet (String × String)} {f k : String}
    (h : seen.toList <+: seen'.toList) (hk : (f, k) ∈ seen) : placeOf f k seen' = placeOf f k seen := by
  obtain ⟨rest, hrest⟩ := h
  rw [placeOf, ← hrest, List.filter_append]
  exact List.idxOf_append_of_mem (mem_filter_of_mem hk)

/-! ### Paths and buckets, read off a later state -/

theorem loopId_spec {f h : String} (hs : (s.loopId f h).2.IsBefore s') :
    (s.loopId f h).1 = placeOf f h s'.loops ∧ (f, h) ∈ s'.loops := by
  have hmem : (f, h) ∈ (s.loopId f h).2.loops := OrderedSet.mem_insert.mpr (.inr rfl)
  exact ⟨(placeOf_stable hs.loops hmem).symm, hs.loops.subset hmem⟩

theorem contextId_spec {f k : String} (hs : (s.contextId f k).2.IsBefore s') :
    (s.contextId f k).1 = placeOf f k s'.contexts ∧ (f, k) ∈ s'.contexts := by
  have hmem : (f, k) ∈ (s.contextId f k).2.contexts := OrderedSet.mem_insert.mpr (.inr rfl)
  exact ⟨(placeOf_stable hs.contexts hmem).symm, hs.contexts.subset hmem⟩

/-- The steps of loops have the numbers that every later state gives them. -/
theorem loopPath_spec {f k : String} {loops : List LoopIteration} (hk : (f, k) ∈ s'.contexts)
    (hs : (s.loopPath f (placeOf f k s'.contexts) loops).2.IsBefore s') :
    (s.loopPath f (placeOf f k s'.contexts) loops).1 = (Step.ofLoops f k loops).map (Step.element s') ∧
      ∀ o ∈ Step.ofLoops f k loops, o.SeenIn s' := by
  induction loops generalizing s with
  | nil => exact ⟨rfl, fun o ho => absurd ho List.not_mem_nil⟩
  | cons l rest ih =>
    obtain ⟨hpath, hseen⟩ := ih (s := (s.loopId f l.header).2) hs
    obtain ⟨hid, hl⟩ := loopId_spec ((isBefore_loopPath _ _ _ _).trans hs)
    refine ⟨?_, ?_⟩
    · rw [loopPath, Step.ofLoops, List.flatMap_cons, List.map_append]
      show _ :: _ :: _ = _
      rw [hpath, hid]
      rfl
    · rw [Step.ofLoops, List.flatMap_cons]
      exact List.forall_mem_append.mpr ⟨by simp [Step.SeenIn, hk, hl], hseen⟩

/-- The steps of a call stack have the numbers that every later state gives them. -/
theorem pathBelow_spec {mode : ContextMode} {callsites : List String} {context : CallStack}
    (hs : (s.pathBelow mode callsites context).2.IsBefore s') :
    (s.pathBelow mode callsites context).1 = (Step.ofCalls mode callsites context).map (Step.element s') ∧
      ∀ o ∈ Step.ofCalls mode callsites context, o.SeenIn s' := by
  induction context generalizing s callsites with
  | nil => exact ⟨rfl, fun o ho => absurd ho List.not_mem_nil⟩
  | cons f rest ih =>
    rw [pathBelow] at hs ⊢
    obtain ⟨hpath, hseen⟩ := ih hs
    have hloops := (isBefore_pathBelow _ mode (callsites ++ [f.callsite]) rest).trans hs
    obtain ⟨hid, hk⟩ := contextId_spec ((isBefore_loopPath _ _ _ _).trans hloops)
    simp only [hid] at hloops hpath hseen ⊢
    obtain ⟨hloopPath, hseenLoops⟩ := loopPath_spec hk hloops
    refine ⟨?_, ?_⟩
    · rw [hloopPath, hpath, Step.ofCalls]
      simp only [List.map_cons, List.map_append, List.cons_append]
      rfl
    · exact List.forall_mem_cons.mpr ⟨hk, List.forall_mem_append.mpr ⟨hseenLoops, hseen⟩⟩

/-- The values that a bucket holds for some solutions. -/
def valuesOf (keepNull : Bool) (solutions : List Nat) : List Nat :=
  (SortedSet.ofList (solutions.filter fun v => keepNull || decide (v ≠ 0))).toList

theorem bucket_spec {solutions : List Nat} {keepNull : Bool} (hs : (s.bucket solutions keepNull).2.IsBefore s') :
    (s.bucket solutions keepNull).1 =
        .node ((Origin.bucket (valuesOf keepNull solutions)).name s') (.bucket (valuesOf keepNull solutions)) [] ∧
      valuesOf keepNull solutions ∈ s'.buckets := by
  have hmem : valuesOf keepNull solutions ∈ (s.bucketId (valuesOf keepNull solutions)).2.buckets :=
    OrderedSet.mem_insert.mpr (.inr rfl)
  refine ⟨?_, hs.buckets.subset hmem⟩
  rw [Origin.name, OrderedSet.indexOf_stable hs.buckets hmem]
  rfl

end LabelState

namespace ExecutionTree

variable {mode : ContextMode} {keepNull : Bool} {positions : List OrderedPosition}

/-- The path and the leaf of a position, with the names that a label state gives. -/
def shownIn (s : LabelState) (mode : ContextMode) (keepNull : Bool) (p : OrderedPosition) :
    List PathElement × ExecutionTree :=
  ((Step.ofCalls mode [] p.context).map (Step.element s),
    .node ((Origin.bucket (valuesOf keepNull p.solutions)).name s) (.bucket (valuesOf keepNull p.solutions)) [])

/-- What a position refers to was seen. -/
structure SeenIn (s : LabelState) (mode : ContextMode) (keepNull : Bool) (p : OrderedPosition) : Prop where
  /-- The steps of its call stack were seen. -/
  steps : ∀ o ∈ Step.ofCalls mode [] p.context, o.SeenIn s
  /-- Its values were seen. -/
  values : valuesOf keepNull p.solutions ∈ s.buckets

theorem isBefore_insertPositions (s : LabelState) (ts : List ExecutionTree) (positions : List OrderedPosition) :
    s.IsBefore (insertPositions mode keepNull ts s positions).2 := by
  induction positions generalizing s ts with
  | nil => exact .refl s
  | cons p rest ih => exact ((isBefore_pathBelow _ _ _ _).trans (isBefore_bucketId _ _)).trans (ih _ _)

theorem labelled_cons (s : LabelState) (p : OrderedPosition) (rest : List OrderedPosition) :
    labelled mode keepNull s (p :: rest) =
      ((s.path p.context mode).1, ((s.path p.context mode).2.bucket p.solutions keepNull).1) ::
        labelled mode keepNull ((s.path p.context mode).2.bucket p.solutions keepNull).2 rest := rfl

theorem labelled_spec {ts : List ExecutionTree} (hs : (insertPositions mode keepNull ts s positions).2.IsBefore s') :
    labelled mode keepNull s positions = positions.map (shownIn s' mode keepNull) ∧
      ∀ p ∈ positions, SeenIn s' mode keepNull p := by
  induction positions generalizing s ts with
  | nil => exact ⟨rfl, fun p hp => absurd hp List.not_mem_nil⟩
  | cons p rest ih =>
    have hbucket : ((s.path p.context mode).2.bucket p.solutions keepNull).2.IsBefore s' :=
      (isBefore_insertPositions _ _ rest).trans hs
    obtain ⟨hrest, hseen⟩ := ih (s := ((s.path p.context mode).2.bucket p.solutions keepNull).2) hs
    obtain ⟨hleaf, hvalues⟩ := bucket_spec hbucket
    obtain ⟨hsteps, hseenSteps⟩ := pathBelow_spec ((isBefore_bucketId _ _).trans hbucket)
    refine ⟨?_, List.forall_mem_cons.mpr ⟨⟨hseenSteps, hvalues⟩, hseen⟩⟩
    rw [labelled_cons, hrest, hleaf, List.map_cons, shownIn, ← hsteps]
    rfl

/-- The tree of an ordered trace, with the names that a label state gives. -/
def treeIn (s : LabelState) (mode : ContextMode) (keepNull : Bool) (t : OrderedTrace) : Option ExecutionTree :=
  ((t.positions.map (shownIn s mode keepNull)).foldl (fun ts p => insertPath p.2 p.1 ts) []).head?

/-- The tree that is built has the names that every later state gives. -/
theorem build_eq_treeIn {t : OrderedTrace} (hs : (build t s mode keepNull).2.IsBefore s') :
    (build t s mode keepNull).1 = treeIn s' mode keepNull t ∧ ∀ p ∈ t.positions, SeenIn s' mode keepNull p := by
  obtain ⟨hlabelled, hseen⟩ := labelled_spec hs
  refine ⟨?_, hseen⟩
  show (insertPositions mode keepNull [] s t.positions).1.head? = _
  rw [insertPositions_eq, hlabelled, treeIn]

end ExecutionTree

end GrammarInference
