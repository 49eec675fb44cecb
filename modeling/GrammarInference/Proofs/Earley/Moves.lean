/-
GrammarInference/Proofs/Earley/Moves.lean

A search is a sequence of moves, and a deadline only cuts it off.

Design.  The two questions of the search call each other, with choices in between, and each of them changes the
state of the search by a few kinds of moves.  Which moves are made does not depend on the deadline: from a given
state, a question makes a fixed sequence of moves and then has a fixed answer, and under a deadline it makes the
same moves up to the first one at which the deadline has passed (`Search.IsPlayed`).  So what is true of every move is
true of every search, whether it is finished or broken off; and two searches that differ in their deadlines are
compared move by move.  Questions are put together by `Search.andThen`, so the induction on the fuel has one short
case for each of them.

    f (s.under d) = settle answer (playAll moves (s.under d))          for every deadline d
-/
import GrammarInference.Proofs.Earley.Search

namespace GrammarInference

namespace Earley

namespace Search

variable {α β : Type} {s s' : Search} {d : Deadline}

/-! ### Moves -/

/-- One change of the state of a search. -/
inductive Move where
  /-- A question for a fit is counted. -/
  | ask
  /-- A question for a tree is begun. -/
  | enter (q : Span)
  /-- A question for a tree is answered. -/
  | leave (q : Span)
  /-- A question for a tree is cut off. -/
  | cut
  /-- A dead end is met; `cuts` is the number of cuts when it was entered. -/
  | fail (gap : Gap) (cuts : Nat)
  /-- A node is added. -/
  | alloc (symbol : Symbol) (children : List NodeId)

/-- Makes a move, and says whether the search has to stop there. -/
def Move.play : Move → Search → Bool × Search
  | ask, s => (s.checkpoint.tick.1, { s with checkpoint := s.checkpoint.tick.2 })
  | enter q, s => (false, { s with active := q :: s.active })
  | leave q, s => (false, { s with active := s.active.erase q })
  | cut, s => (false, { s with cuts := s.cuts + 1 })
  | fail gap cuts, s => (false, s.fail gap cuts)
  | alloc symbol children, s => (false, (s.alloc symbol children).2)

/-- Makes moves in order, up to the first one at which the search has to stop. -/
def playAll : List Move → Search → Bool × Search
  | [], s => (false, s)
  | m :: ms, s =>
    match m.play s with
    | (true, s) => (true, s)
    | (false, s) => playAll ms s

/-- The same search under another deadline. -/
def under (s : Search) (d : Deadline) : Search := { s with checkpoint := { s.checkpoint with deadline := d } }

@[simp] theorem under_under (s : Search) (d d' : Deadline) : (s.under d).under d' = s.under d' := rfl

@[simp] theorem active_under (s : Search) (d : Deadline) : (s.under d).active = s.active := rfl

@[simp] theorem cuts_under (s : Search) (d : Deadline) : (s.under d).cuts = s.cuts := rfl

@[simp] theorem failed_under (s : Search) (d : Deadline) : (s.under d).failed = s.failed := rfl

@[simp] theorem arena_under (s : Search) (d : Deadline) : (s.under d).arena = s.arena := rfl

@[simp] theorem deadline_under (s : Search) (d : Deadline) : (s.under d).checkpoint.deadline = d := rfl

@[simp] theorem steps_under (s : Search) (d : Deadline) : (s.under d).checkpoint.steps = s.checkpoint.steps := rfl

@[simp] theorem period_under (s : Search) (d : Deadline) : (s.under d).checkpoint.period = s.checkpoint.period := rfl

theorem fail_under (s : Search) (gap : Gap) (cuts : Nat) (d : Deadline) :
    (s.under d).fail gap cuts = (s.fail gap cuts).under d := by
  rw [fail, fail, cuts_under]
  split <;> rfl

/-- The deadline decides whether a move is the last one, and nothing else about it. -/
theorem Move.play_under (m : Move) (s : Search) (d : Deadline) :
    (m.play (s.under d)).2 = (m.play s).2.under d ∧ (m.play (s.under .never)).1 = false := by
  cases m with
  | ask => exact ⟨rfl, Bool.and_false _⟩
  | fail gap cuts => exact ⟨fail_under s gap cuts d, rfl⟩
  | _ => exact ⟨rfl, rfl⟩

theorem playAll_append (ms ms' : List Move) (s : Search) :
    playAll (ms ++ ms') s =
      match playAll ms s with
      | (true, s') => (true, s')
      | (false, s') => playAll ms' s' := by
  induction ms generalizing s with
  | nil => rfl
  | cons m ms ih =>
    rw [List.cons_append, playAll, playAll]
    rcases m.play s with ⟨- | -, s₁⟩
    · exact ih s₁
    · rfl

/-- Where moves lead if there is no deadline. -/
def after (ms : List Move) (s : Search) : Search := (playAll ms (s.under .never)).2

theorem playAll_never (ms : List Move) (s : Search) : playAll ms (s.under .never) = (false, after ms s) := by
  suffices h : (playAll ms (s.under .never)).1 = false from Prod.ext h rfl
  induction ms generalizing s with
  | nil => rfl
  | cons m ms ih =>
    obtain ⟨hstate, hstop⟩ := m.play_under s .never
    rw [playAll]
    rcases hm : m.play (s.under .never) with ⟨stop, s₁⟩
    rw [hm] at hstate hstop
    obtain rfl : stop = false := hstop
    obtain rfl : s₁ = (m.play s).2.under .never := hstate
    exact ih _

/-- Moves that are not broken off lead where they lead without a deadline. -/
theorem playAll_under {ms : List Move} (h : (playAll ms (s.under d)).1 = false) :
    playAll ms (s.under d) = (false, (after ms s).under d) := by
  induction ms generalizing s with
  | nil => rfl
  | cons m ms ih =>
    obtain ⟨hstate, -⟩ := m.play_under s d
    obtain ⟨hnever, hstop⟩ := m.play_under s .never
    rw [after, playAll]
    rw [playAll] at h ⊢
    rcases hm : m.play (s.under d) with ⟨- | -, s₁⟩
    · rw [hm] at h hstate
      rcases hm' : m.play (s.under .never) with ⟨stop, s₂⟩
      rw [hm'] at hnever hstop
      obtain rfl : stop = false := hstop
      obtain rfl : s₁ = (m.play s).2.under d := hstate
      obtain rfl : s₂ = (m.play s).2.under .never := hnever
      exact ih h
    · rw [hm] at h
      cases h

/-! ### Questions -/

/-- The answer after some moves; none if the search has to stop. -/
def settle (answer : Option α) : Bool × Search → Answer α × Search
  | (true, s) => (.interrupted, s)
  | (false, s) =>
    match answer with
    | some a => (.found a, s)
    | none => (.absent, s)

/-- The children of every node that is added stand in the arena. -/
def Move.Grounded (m : Move) (a : Arena) : Prop :=
  match m with
  | alloc _ children => ∀ c ∈ children, c.index < a.size
  | _ => True

/-- The same along a sequence of moves. -/
def AllGrounded : List Move → Search → Prop
  | [], _ => True
  | m :: ms, s => m.Grounded s.arena ∧ AllGrounded ms (m.play s).2

/-- Under every deadline, a question from `s` makes the same moves and has the same answer, unless it is broken
off; nodes that it adds or finds have children, and are nodes, of the arena. -/
def IsPlayed (nodes : α → List NodeId) (f : Search → Answer α × Search) (s : Search) : Prop :=
  ∃ ms answer, (∀ d, f (s.under d) = settle answer (playAll ms (s.under d))) ∧ AllGrounded ms s ∧
    ∀ a, answer = some a → ∀ id ∈ nodes a, id.index < (after ms s).arena.size

/-- Asks one question, and goes on from its answer unless it was broken off. -/
def andThen (f : Search → Answer α × Search) (next : Option α → Search → Answer β × Search) (s : Search) :
    Answer β × Search :=
  match f s with
  | (.found a, s) => next (some a) s
  | (.absent, s) => next none s
  | (.interrupted, s) => (.interrupted, s)

/-- One move, as a question. -/
def perform (m : Move) (s : Search) : Answer Unit × Search := settle (some ()) (m.play s)

/-- Adds a node, as a question. -/
def allocate (symbol : Symbol) (children : List NodeId) (s : Search) : Answer NodeId × Search :=
  (.found (s.alloc symbol children).1, (s.alloc symbol children).2)

theorem size_play_ge (m : Move) (s : Search) : s.arena.size ≤ (m.play s).2.arena.size := by
  cases m with
  | alloc symbol children =>
    show s.arena.size ≤ (s.arena.alloc symbol children).2.size
    rw [Arena.size_alloc]
    exact Nat.le_succ _
  | fail gap cuts =>
    show s.arena.size ≤ (s.fail gap cuts).arena.size
    rw [fail]
    split <;> exact Nat.le_refl _
  | _ => exact Nat.le_refl _

theorem AllGrounded.under {ms : List Move} (h : AllGrounded ms s) (d : Deadline) : AllGrounded ms (s.under d) := by
  induction ms generalizing s with
  | nil => trivial
  | cons m ms ih =>
    refine ⟨h.1, ?_⟩
    rw [(m.play_under s d).1]
    exact ih h.2

theorem after_cons (m : Move) (ms : List Move) (s : Search) : after (m :: ms) s = after ms (m.play s).2 := by
  obtain ⟨hstate, hstop⟩ := m.play_under s .never
  rw [after, playAll]
  rcases hm : m.play (s.under .never) with ⟨stop, s₁⟩
  rw [hm] at hstate hstop
  obtain rfl : stop = false := hstop
  obtain rfl : s₁ = (m.play s).2.under .never := hstate
  rfl

theorem size_after_ge (ms : List Move) (s : Search) : s.arena.size ≤ (after ms s).arena.size := by
  induction ms generalizing s with
  | nil => exact Nat.le_refl _
  | cons m ms ih =>
    rw [after_cons]
    exact Nat.le_trans (size_play_ge m s) (ih _)

theorem under_after (ms : List Move) (s : Search) : (after ms s).under .never = after ms s := by
  have h : playAll ms (s.under .never) = _ := playAll_under (congrArg Prod.fst (playAll_never ms s))
  rw [playAll_never] at h
  exact (congrArg Prod.snd h).symm

theorem after_append (ms ms' : List Move) (s : Search) : after (ms ++ ms') s = after ms' (after ms s) := by
  rw [after, playAll_append, playAll_never]
  show (playAll ms' (after ms s)).2 = (playAll ms' ((after ms s).under .never)).2
  rw [under_after]

theorem AllGrounded.append {ms ms' : List Move} (h : AllGrounded ms s) (h' : AllGrounded ms' (after ms s)) :
    AllGrounded (ms ++ ms') s := by
  induction ms generalizing s with
  | nil => exact h'.under _
  | cons m ms ih =>
    rw [after_cons] at h'
    exact ⟨h.1, ih h.2 h'⟩

namespace IsPlayed

variable {nodes : α → List NodeId} {nodes' : β → List NodeId} {f f' : Search → Answer α × Search}

theorem congr (h : IsPlayed nodes f s) (hf : ∀ d, f' (s.under d) = f (s.under d)) : IsPlayed nodes f' s := by
  obtain ⟨ms, answer, hplay, hrest⟩ := h
  exact ⟨ms, answer, fun d => (hf d).trans (hplay d), hrest⟩

theorem absent (nodes : α → List NodeId) (s : Search) : IsPlayed nodes (fun s => (.absent, s)) s :=
  ⟨[], none, fun _ => rfl, trivial, fun _ ha => nomatch ha⟩

theorem found {a : α} (ha : ∀ id ∈ nodes a, id.index < s.arena.size) :
    IsPlayed nodes (fun s => (.found a, s)) s := by
  refine ⟨[], some a, fun _ => rfl, trivial, fun a' ha' => ?_⟩
  obtain rfl : a = a' := Option.some.inj ha'
  exact ha

theorem perform {m : Move} (h : m.Grounded s.arena) : IsPlayed (fun _ => []) (Search.perform m) s := by
  refine ⟨[m], some (), fun d => ?_, ⟨h, trivial⟩, fun _ _ id hid => absurd hid List.not_mem_nil⟩
  rw [Search.perform, playAll]
  rcases m.play (s.under d) with ⟨- | -, s₁⟩ <;> rfl

theorem allocate {symbol : Symbol} {children : List NodeId} (h : ∀ c ∈ children, c.index < s.arena.size) :
    IsPlayed (fun id => [id]) (Search.allocate symbol children) s := by
  refine ⟨[.alloc symbol children], some (s.alloc symbol children).1, fun d => rfl, ⟨h, trivial⟩, fun id hid c hc => ?_⟩
  obtain rfl : (s.alloc symbol children).1 = id := Option.some.inj hid
  obtain rfl := List.mem_singleton.mp hc
  show s.arena.size < (s.arena.alloc symbol children).2.size
  rw [Arena.size_alloc]
  exact Nat.lt_succ_self _

/-- One question after another makes the moves of the first and then those of the second. -/
theorem andThen {next : Option α → Search → Answer β × Search} (hf : IsPlayed nodes f s)
    (hnext : ∀ answer s', s.arena.size ≤ s'.arena.size →
      (∀ a, answer = some a → ∀ id ∈ nodes a, id.index < s'.arena.size) → IsPlayed nodes' (next answer) s') :
    IsPlayed nodes' (Search.andThen f next) s := by
  obtain ⟨ms, answer, hplay, hground, hnodes⟩ := hf
  obtain ⟨ms', answer', hplay', hground', hnodes'⟩ := hnext answer (after ms s) (size_after_ge ms s) hnodes
  refine ⟨ms ++ ms', answer', fun d => ?_, hground.append hground', ?_⟩
  · rw [Search.andThen, hplay d, playAll_append]
    rcases hms : playAll ms (s.under d) with ⟨- | -, s₁⟩
    · have hsame := playAll_under (congrArg Prod.fst hms)
      obtain rfl : s₁ = (after ms s).under d := congrArg Prod.snd (hms.symm.trans hsame)
      cases answer <;> exact hplay' d
    · rfl
  · rw [after_append]
    exact hnodes'

/-- Trying choices in order. -/
theorem firstFound {attempt : β → Search → Answer α × Search} (h : ∀ b s', IsPlayed nodes (attempt b) s')
    (l : List β) (s : Search) : IsPlayed nodes (Search.firstFound attempt l) s := by
  induction l generalizing s with
  | nil => exact absent nodes s
  | cons b l ih =>
    have hthen : IsPlayed nodes (Search.andThen (attempt b) fun answer =>
        match answer with
        | some a => fun s => (.found a, s)
        | none => Search.firstFound attempt l) s := (h b s).andThen fun answer s' _ hnodes => by
      cases answer with
      | some a => exact found (hnodes a rfl)
      | none => exact ih s'
    refine hthen.congr fun d => ?_
    rw [Search.firstFound, Search.andThen]
    rcases attempt b (s.under d) with ⟨- | - | -, s₁⟩ <;> rfl

end IsPlayed

/-! ### The two questions of the search -/

variable {ctx : Context} {fuel : Nat}

theorem isPlayed_derive_succ (hfit : ∀ gap s, IsPlayed (fun ids => ids) (fit ctx fuel gap) s) (q : Span) (s : Search) :
    IsPlayed (fun id => [id]) (derive ctx (fuel + 1) q) s := by
  by_cases hactive : q ∈ s.active
  · have hcut : IsPlayed (fun id => [id]) (andThen (perform .cut) fun _ s => (.absent, s)) s :=
      (IsPlayed.perform (m := .cut) trivial).andThen fun _ s' _ _ => .absent (fun id => [id]) s'
    exact hcut.congr fun d => derive_of_active (s := s.under d) hactive
  · -- the question is opened, its alternatives are tried, the node is added, and it is closed
    have hclosed : IsPlayed (fun id => [id]) (andThen (perform (.enter q)) fun _ =>
        andThen (firstFound (fun k s => fit ctx fuel ⟨q.first, q.last, k, 0⟩ s) (ctx.spans.productions q)) fun answer =>
          match answer with
          | none => andThen (perform (.leave q)) fun _ s => (.absent, s)
          | some ids => andThen (allocate (.nonterminal q.name) ids) fun id =>
              andThen (perform (.leave q)) fun _ s =>
                match id with
                | some id => (.found id, s)
                | none => (.absent, s)) s := by
      refine (IsPlayed.perform (m := .enter q) trivial).andThen fun _ s₁ _ _ => ?_
      refine (IsPlayed.firstFound (fun k s' => hfit _ s') _ s₁).andThen fun answer s₂ _ hnodes => ?_
      cases answer with
      | none => exact (IsPlayed.perform (m := .leave q) trivial).andThen fun _ s₃ _ _ => .absent _ s₃
      | some ids =>
        refine (IsPlayed.allocate (hnodes ids rfl)).andThen fun id s₃ _ hid => ?_
        refine (IsPlayed.perform (m := .leave q) trivial).andThen fun _ s₄ hsize _ => ?_
        cases id with
        | none => exact .absent _ s₄
        | some id => exact .found fun c hc => Nat.lt_of_lt_of_le (hid id rfl c hc) hsize
    refine hclosed.congr fun d => ?_
    rw [derive_of_not_active (s := s.under d) hactive]
    simp only [andThen, perform, Move.play, settle]
    rcases firstFound _ _ _ with ⟨- | - | -, s₁⟩ <;> rfl

theorem isPlayed_fitText (hfit : ∀ gap s, IsPlayed (fun ids => ids) (fit ctx fuel gap) s) (gap : Gap) (w : List Char)
    (s : Search) : IsPlayed (fun ids => ids) (fitText ctx fuel gap w) s := by
  by_cases hmatch : matchesAt ctx.input gap.first gap.last w = true
  · have hrest : IsPlayed (fun ids => ids)
        (andThen (fit ctx fuel ⟨gap.first + w.length, gap.last, gap.production, gap.part + 1⟩) fun answer =>
          match answer with
          | none => andThen (perform (.fail gap s.cuts)) fun _ s => (.absent, s)
          | some rest => andThen (allocate (.terminal (String.ofList w)) []) fun id s =>
              match id with
              | some id => (.found (id :: rest), s)
              | none => (.absent, s)) s := by
      refine (hfit _ s).andThen fun answer s₁ _ hnodes => ?_
      cases answer with
      | none => exact (IsPlayed.perform (m := .fail gap s.cuts) trivial).andThen fun _ s₂ _ _ => .absent _ s₂
      | some rest =>
        refine (IsPlayed.allocate fun c hc => absurd hc List.not_mem_nil).andThen fun id s₂ hsize hid => ?_
        cases id with
        | none => exact .absent _ s₂
        | some id =>
          refine .found (List.forall_mem_cons.mpr ⟨hid id rfl id List.mem_cons_self, fun c hc => ?_⟩)
          exact Nat.lt_of_lt_of_le (hnodes rest rfl c hc) hsize
    refine hrest.congr fun d => ?_
    rw [fitText, if_pos hmatch, andThen]
    rcases fit ctx fuel _ (s.under d) with ⟨- | - | -, s₁⟩ <;> rfl
  · have hfail : IsPlayed (fun ids => ids) (andThen (perform (.fail gap s.cuts)) fun _ s => (.absent, s)) s :=
      (IsPlayed.perform (m := .fail gap s.cuts) trivial).andThen fun _ s₁ _ _ => .absent _ s₁
    refine hfail.congr fun d => ?_
    rw [fitText, if_neg hmatch]
    rfl

theorem isPlayed_fitEnd (hfit : ∀ gap s, IsPlayed (fun ids => ids) (fit ctx fuel gap) s)
    (hderive : ∀ q s, IsPlayed (fun id => [id]) (derive ctx fuel q) s) (gap : Gap) (n : String) (e : Nat) (s : Search) :
    IsPlayed (fun ids => ids) (fitEnd ctx fuel gap n e) s := by
  have hboth : IsPlayed (fun ids => ids)
      (andThen (fit ctx fuel ⟨e, gap.last, gap.production, gap.part + 1⟩) fun answer =>
        match answer with
        | none => fun s => (.absent, s)
        | some rest => andThen (derive ctx fuel ⟨gap.first, e, n⟩) fun id s =>
            match id with
            | some id => (.found (id :: rest), s)
            | none => (.absent, s)) s := by
    refine (hfit _ s).andThen fun answer s₁ _ hnodes => ?_
    cases answer with
    | none => exact .absent _ s₁
    | some rest =>
      refine (hderive _ s₁).andThen fun id s₂ hsize hid => ?_
      cases id with
      | none => exact .absent _ s₂
      | some id =>
        refine .found (List.forall_mem_cons.mpr ⟨hid id rfl id List.mem_cons_self, fun c hc => ?_⟩)
        exact Nat.lt_of_lt_of_le (hnodes rest rfl c hc) hsize
  refine hboth.congr fun d => ?_
  rw [fitEnd, andThen]
  rcases fit ctx fuel _ (s.under d) with ⟨rest | - | -, s₁⟩
  · simp only [andThen]
    rcases derive ctx fuel _ s₁ with ⟨- | - | -, s₂⟩ <;> rfl
  · rfl
  · rfl

theorem isPlayed_fitName (hfit : ∀ gap s, IsPlayed (fun ids => ids) (fit ctx fuel gap) s)
    (hderive : ∀ q s, IsPlayed (fun id => [id]) (derive ctx fuel q) s) (gap : Gap) (n : String) (s : Search) :
    IsPlayed (fun ids => ids) (fitName ctx fuel gap n) s := by
  have hends : IsPlayed (fun ids => ids)
      (andThen (firstFound (fitEnd ctx fuel gap n) (ctx.spans.ends n gap.first gap.last
          (ctx.table.part? gap.production (gap.part + 1)).isNone)) fun answer =>
        match answer with
        | none => andThen (perform (.fail gap s.cuts)) fun _ s => (.absent, s)
        | some ids => fun s => (.found ids, s)) s := by
    refine (IsPlayed.firstFound (isPlayed_fitEnd hfit hderive gap n) _ s).andThen fun answer s₁ _ hnodes => ?_
    cases answer with
    | none => exact (IsPlayed.perform (m := .fail gap s.cuts) trivial).andThen fun _ s₂ _ _ => .absent _ s₂
    | some ids => exact .found (hnodes ids rfl)
  refine hends.congr fun d => ?_
  rw [fitName, andThen]
  rcases firstFound _ _ (s.under d) with ⟨- | - | -, s₁⟩ <;> rfl

theorem isPlayed_fit_succ (hfit : ∀ gap s, IsPlayed (fun ids => ids) (fit ctx fuel gap) s)
    (hderive : ∀ q s, IsPlayed (fun id => [id]) (derive ctx fuel q) s) (gap : Gap) (s : Search) :
    IsPlayed (fun ids => ids) (fit ctx (fuel + 1) gap) s := by
  -- the question is counted; then the part at the gap decides
  have hask (run : Search → Answer (List NodeId) × Search) (hrun : ∀ s, IsPlayed (fun ids => ids) run s) :
      IsPlayed (fun ids => ids) (andThen (perform .ask) fun _ s₁ =>
        if s₁.failed.contains gap then (.absent, s₁) else run s₁) s := by
    refine (IsPlayed.perform (m := .ask) trivial).andThen fun _ s₁ _ _ => ?_
    by_cases hdead : s₁.failed.contains gap = true
    · exact (IsPlayed.absent _ s₁).congr fun d => if_pos hdead
    · exact (hrun s₁).congr fun d => if_neg hdead
  rcases hpart : ctx.table.part? gap.production gap.part with - | w | n
  · have hend : IsPlayed (fun ids => ids) (andThen (perform .ask) fun _ s₁ =>
        if gap.first = gap.last then (.found [], s₁) else (.absent, s₁)) s := by
      refine (IsPlayed.perform (m := .ask) trivial).andThen fun _ s₁ _ _ => ?_
      by_cases hend : gap.first = gap.last
      · simp only [if_pos hend]
        exact .found fun id hid => absurd hid List.not_mem_nil
      · simp only [if_neg hend]
        exact .absent _ s₁
    refine hend.congr fun d => ?_
    rw [fit, andThen, perform, Move.play, hpart]
    rcases (s.under d).checkpoint.tick with ⟨- | -, cp⟩ <;> rfl
  · refine (hask _ (isPlayed_fitText hfit gap w)).congr fun d => ?_
    rw [fit, andThen, perform, Move.play, hpart]
    rcases (s.under d).checkpoint.tick with ⟨- | -, cp⟩ <;> rfl
  · refine (hask _ (isPlayed_fitName hfit hderive gap n)).congr fun d => ?_
    rw [fit, andThen, perform, Move.play, hpart]
    rcases (s.under d).checkpoint.tick with ⟨- | -, cp⟩ <;> rfl

/-- **Every search is a sequence of moves**, the same under every deadline, up to the one at which it is broken
off. -/
theorem isPlayed_derive_and_fit (ctx : Context) (fuel : Nat) :
    (∀ q s, IsPlayed (fun id => [id]) (derive ctx fuel q) s) ∧
      ∀ gap s, IsPlayed (fun ids => ids) (fit ctx fuel gap) s := by
  -- both at once, since each asks the other with one step of fuel less
  induction fuel with
  | zero =>
    constructor
    · intro q s
      exact (IsPlayed.absent _ s).congr fun d => rfl
    · intro gap s
      exact (IsPlayed.absent _ s).congr fun d => rfl
  | succ fuel ih => exact ⟨isPlayed_derive_succ ih.2, isPlayed_fit_succ ih.2 ih.1⟩

end Search

end Earley

end GrammarInference
