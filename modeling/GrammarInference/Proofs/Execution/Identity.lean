/-
GrammarInference/Proofs/Execution/Identity.lean

Labels identify what they are given to.

Design.  A run of a label state is a list of requests, for the path of a call stack or for a bucket.  Every label
of such a run is given to something that can be told without keys and numbers: a call with all call sites that lead
to it, a loop of it, an iteration, a part of a loop, a set of solutions (`Labelled`).  Later states only add to
what was seen, so all labels of a run are the names that its last state gives to their origins, and these tell
origins apart.  What is left is how much of the call sites an origin keeps: their text, joined by commas.  As long
as no call site holds a comma, the text can be cut into call sites again.

    l = l'  ↔  the same function, the same call sites as far as the mode looks at them, the same loop, …
-/
import GrammarInference.Proofs.Execution.Origin

namespace GrammarInference

/-! ### Call sites -/

/-- The call sites that tell a call apart from others of its function. -/
def tellingSites (mode : ContextMode) (callsites : List String) : List String :=
  match mode with
  | .none => []
  | .caller => callsites.getLast?.toList
  | .callPath => callsites
  | .window k => callsites.drop (callsites.length - k)

/-- The key of a call is the text of these call sites. -/
theorem contextKey_eq (mode : ContextMode) (callsites : List String) :
    LabelState.contextKey mode callsites = ",".intercalate (tellingSites mode callsites) := by
  cases mode with
  | none | callPath | window => rfl
  | caller =>
    rw [LabelState.contextKey, tellingSites]
    cases callsites.getLast? <;> simp

theorem mem_of_mem_tellingSites {mode : ContextMode} {callsites : List String} {x : String}
    (h : x ∈ tellingSites mode callsites) : x ∈ callsites := by
  cases mode with
  | none => cases h
  | caller => exact List.mem_of_getLast? (Option.mem_toList.mp h)
  | callPath => exact h
  | window k => exact List.mem_of_mem_drop h

/-- Whether any call site is looked at depends on the mode alone. -/
theorem tellingSites_eq_nil_iff (mode : ContextMode) {callsites : List String} (h : callsites ≠ []) :
    tellingSites mode callsites = [] ↔ mode = .none ∨ mode = .window 0 := by
  have hpos := List.length_pos_iff.mpr h
  cases mode with
  | none => simp [tellingSites]
  | caller => simp [tellingSites, Option.toList_eq_nil_iff, h]
  | callPath => simp [tellingSites, h]
  | window k =>
    simp only [tellingSites, List.drop_eq_nil_iff, reduceCtorEq, ContextMode.window.injEq, false_or]
    omega

/-- Texts without the separator can be read back after they were joined. -/
theorem eq_of_intercalate_eq {l l' : List String} (hl : ∀ x ∈ l, ',' ∉ x.toList) (hl' : ∀ x ∈ l', ',' ∉ x.toList)
    (hnil : l = [] ↔ l' = []) (h : ",".intercalate l = ",".intercalate l') : l = l' := by
  have hcut : ∀ m : List String, m ≠ [] → (∀ x ∈ m, ',' ∉ x.toList) →
      List.splitOn ',' (",".intercalate m).toList = m.map String.toList := by
    intro m hm hcomma
    rw [String.toList_intercalate]
    exact List.splitOn_intercalate ',' (List.forall_mem_map.mpr hcomma) (by simpa using hm)
  by_cases hempty : l = []
  · rw [hempty, hnil.mp hempty]
  · have hmap : l.map String.toList = l'.map String.toList := by
      rw [← hcut l hempty hl, ← hcut l' (fun h => hempty (hnil.mpr h)) hl', h]
    exact List.map_injective_iff.mpr (fun x y => String.toList_inj.mp) hmap

/-- Without commas in them, call sites can be told from their key, as far as the mode looks at them. -/
theorem contextKey_eq_iff (mode : ContextMode) {cs cs' : List String} (hne : cs ≠ []) (hne' : cs' ≠ [])
    (hcomma : ∀ x ∈ cs, ',' ∉ x.toList) (hcomma' : ∀ x ∈ cs', ',' ∉ x.toList) :
    LabelState.contextKey mode cs = LabelState.contextKey mode cs' ↔ tellingSites mode cs = tellingSites mode cs' := by
  rw [contextKey_eq, contextKey_eq]
  refine ⟨eq_of_intercalate_eq (fun x hx => hcomma x (mem_of_mem_tellingSites hx))
    (fun x hx => hcomma' x (mem_of_mem_tellingSites hx)) ?_, congrArg _⟩
  rw [tellingSites_eq_nil_iff mode hne, tellingSites_eq_nil_iff mode hne']

/-! ### What labels are given to -/

/-- What a label is given to, told without keys and numbers; call sites are listed from the outermost one on. -/
inductive Labelled where
  /-- A call of a function. -/
  | call (callee : String) (callsites : List String)
  /-- A loop of a call. -/
  | loop (callee : String) (callsites : List String) (header : String)
  /-- One iteration of a loop. -/
  | iteration (callee : String) (callsites : List String) (header : String) (count : Nat)
  /-- The continue part of a loop. -/
  | continued (callee : String) (callsites : List String) (header : String)
  /-- The exit part of a loop. -/
  | exited (callee : String) (callsites : List String) (header : String)
  /-- A set of solutions, with zero or without. -/
  | bucket (solutions : List Nat) (keepNull : Bool)
  deriving DecidableEq

/-- What is asked of a label state. -/
inductive LabelRequest where
  /-- The path of a call stack. -/
  | path (context : CallStack)
  /-- The leaf for some solutions. -/
  | bucket (solutions : List Nat) (keepNull : Bool)

/-- The call sites in a request. -/
def LabelRequest.callsites : LabelRequest → List String
  | .path context => context.map Frame.callsite
  | .bucket _ _ => []

namespace Labelled

/-- The steps of the loops of a call. -/
def ofLoops (f : String) (callsites : List String) (loops : List LoopIteration) : List Labelled :=
  loops.flatMap fun l => [.loop f callsites l.header, .iteration f callsites l.header l.count.toNat]

/-- The steps of a call stack below the given call sites. -/
def ofCalls (callsites : List String) : CallStack → List Labelled
  | [] => []
  | f :: rest =>
    let callsites := callsites ++ [f.callsite]
    .call f.callee callsites :: ofLoops f.callee callsites f.loops ++ ofCalls callsites rest

/-- A step with the parts that a loop has. -/
def withParts : Labelled → List Labelled
  | .loop f cs h => [.loop f cs h, .continued f cs h, .exited f cs h]
  | a => [a]

/-- All that gets a label by a request. -/
def ofRequest : LabelRequest → List Labelled
  | .path context => (ofCalls [] context).flatMap withParts
  | .bucket solutions keepNull => [.bucket solutions keepNull]

/-- The origin that a label state keeps. -/
def origin (mode : ContextMode) : Labelled → Origin
  | .call f cs => .step (.call f (LabelState.contextKey mode cs))
  | .loop f cs h => .step (.loop f (LabelState.contextKey mode cs) h)
  | .iteration f cs h n => .step (.iteration f (LabelState.contextKey mode cs) h n)
  | .continued f cs h => .continued (.loop f (LabelState.contextKey mode cs) h)
  | .exited f cs h => .exited (.loop f (LabelState.contextKey mode cs) h)
  | .bucket solutions keepNull => .bucket (LabelState.valuesOf keepNull solutions)

/-- Is this the same, if calls of one function are told apart by the given key of their call sites? -/
def Agrees {κ : Type} (key : List String → κ) : Labelled → Labelled → Prop
  | .call f cs, .call f' cs' => f = f' ∧ key cs = key cs'
  | .loop f cs h, .loop f' cs' h' => (f = f' ∧ key cs = key cs') ∧ h = h'
  | .iteration f cs h n, .iteration f' cs' h' n' => (f = f' ∧ key cs = key cs') ∧ h = h' ∧ n = n'
  | .continued f cs h, .continued f' cs' h' => (f = f' ∧ key cs = key cs') ∧ h = h'
  | .exited f cs h, .exited f' cs' h' => (f = f' ∧ key cs = key cs') ∧ h = h'
  | .bucket vs keep, .bucket vs' keep' => ∀ v, v ∈ vs ∧ (keep = true ∨ v ≠ 0) ↔ v ∈ vs' ∧ (keep' = true ∨ v ≠ 0)
  | _, _ => False

variable {mode : ContextMode} {s : LabelState} {a b : Labelled} {o : Step}

/-! ### Origins -/

theorem map_origin_ofLoops (mode : ContextMode) (f : String) (cs : List String) (loops : List LoopIteration) :
    (ofLoops f cs loops).map (origin mode) =
      (Step.ofLoops f (LabelState.contextKey mode cs) loops).map Origin.step := by
  rw [ofLoops, Step.ofLoops, List.map_flatMap, List.map_flatMap]
  rfl

/-- The steps of a call stack have the origins that a label state keeps of them. -/
theorem map_origin_ofCalls (mode : ContextMode) (cs : List String) (context : CallStack) :
    (ofCalls cs context).map (origin mode) = (Step.ofCalls mode cs context).map Origin.step := by
  induction context generalizing cs with
  | nil => rfl
  | cons f rest ih =>
    rw [ofCalls, Step.ofCalls, List.map_append, List.map_append, List.map_cons, List.map_cons,
      map_origin_ofLoops, ih]
    rfl

/-- The values of a bucket are its solutions, where zero counts only if it is kept. -/
theorem mem_valuesOf {vs : List Nat} {keep : Bool} {v : Nat} :
    v ∈ LabelState.valuesOf keep vs ↔ v ∈ vs ∧ (keep = true ∨ v ≠ 0) := by
  have hmem : v ∈ LabelState.valuesOf keep vs ↔ v ∈ vs.filter fun v => keep || decide (v ≠ 0) :=
    SortedSet.mem_ofList
  simpa using hmem

theorem valuesOf_eq_iff {vs vs' : List Nat} {keep keep' : Bool} :
    LabelState.valuesOf keep vs = LabelState.valuesOf keep' vs' ↔
      ∀ v, v ∈ vs ∧ (keep = true ∨ v ≠ 0) ↔ v ∈ vs' ∧ (keep' = true ∨ v ≠ 0) := by
  simp only [← mem_valuesOf]
  refine ⟨fun h v => h ▸ Iff.rfl, fun h => ?_⟩
  exact congrArg SortedSet.toList (SortedSet.ext_mem h)

/-- Origins keep the key of the call sites. -/
theorem origin_eq_iff : a.origin mode = b.origin mode ↔ a.Agrees (LabelState.contextKey mode) b := by
  cases a <;> cases b <;> simp [origin, Agrees, and_assoc, valuesOf_eq_iff]

/-! ### Call sites without commas -/

/-- A bucket, or something below at least one call site, and no call site holds a comma. -/
def IsClean : Labelled → Prop
  | .call _ cs | .loop _ cs _ | .iteration _ cs _ _ | .continued _ cs _ | .exited _ cs _ =>
    cs ≠ [] ∧ ∀ x ∈ cs, ',' ∉ x.toList
  | .bucket _ _ => True

theorem IsClean.agrees_iff (ha : a.IsClean) (hb : b.IsClean) :
    a.Agrees (LabelState.contextKey mode) b ↔ a.Agrees (tellingSites mode) b := by
  cases a <;> cases b <;> first
    | exact Iff.rfl
    | simp only [Agrees, contextKey_eq_iff mode ha.1 hb.1 ha.2 hb.2]

theorem isClean_of_mem_ofCalls {cs : List String} {context : CallStack} (hcs : ∀ x ∈ cs, ',' ∉ x.toList)
    (hcontext : ∀ f ∈ context, ',' ∉ f.callsite.toList) (ha : a ∈ ofCalls cs context) : a.IsClean := by
  induction context generalizing cs with
  | nil => cases ha
  | cons f rest ih =>
    obtain ⟨hf, hrest⟩ := List.forall_mem_cons.mp hcontext
    have hnew : ∀ x ∈ cs ++ [f.callsite], ',' ∉ x.toList :=
      List.forall_mem_append.mpr ⟨hcs, List.forall_mem_singleton.mpr hf⟩
    have hclean : cs ++ [f.callsite] ≠ [] ∧ ∀ x ∈ cs ++ [f.callsite], ',' ∉ x.toList := ⟨by simp, hnew⟩
    rw [ofCalls, List.mem_append, List.mem_cons] at ha
    rcases ha with (rfl | ha) | ha
    · exact hclean
    · obtain ⟨l, -, ha⟩ := List.mem_flatMap.mp ha
      rcases List.mem_pair.mp ha with rfl | rfl <;> exact hclean
    · exact ih hnew hrest ha

theorem IsClean.withParts (ha : a.IsClean) (hb : b ∈ a.withParts) : b.IsClean := by
  cases a with
  | loop =>
    simp only [Labelled.withParts, List.mem_cons, List.not_mem_nil, or_false] at hb
    rcases hb with rfl | rfl | rfl <;> exact ha
  | call | iteration | continued | exited | bucket => exact List.mem_singleton.mp hb ▸ ha

theorem isClean_of_mem_ofRequest {r : LabelRequest} (hr : ∀ x ∈ r.callsites, ',' ∉ x.toList)
    (ha : a ∈ ofRequest r) : a.IsClean := by
  cases r with
  | path context =>
    obtain ⟨b, hb, ha⟩ := List.mem_flatMap.mp ha
    have hsites : ∀ f ∈ context, ',' ∉ f.callsite.toList := fun f hf => hr f.callsite (List.mem_map_of_mem hf)
    exact (isClean_of_mem_ofCalls (fun x hx => absurd hx List.not_mem_nil) hsites hb).withParts ha
  | bucket => exact List.mem_singleton.mp ha ▸ trivial

end Labelled

/-! ### Runs -/

namespace LabelState

variable {mode : ContextMode} {s s' : LabelState}

/-- The label of a step, with the names that the parts of a loop get from it. -/
def namesWithParts (e : PathElement) : List String :=
  match e with
  | .loop _ _ _ => [e.label, continueName e.label, exitName e.label]
  | _ => [e.label]

/-- The answer to a request: the labels in it with what they are given to, and the next state. -/
def answer (mode : ContextMode) (s : LabelState) (r : LabelRequest) : List (Labelled × String) × LabelState :=
  match r with
  | .path context =>
    let (steps, s) := s.path context mode
    ((Labelled.ofRequest r).zip (steps.flatMap namesWithParts), s)
  | .bucket solutions keepNull =>
    let (leaf, s) := s.bucket solutions keepNull
    ((Labelled.ofRequest r).zip [leaf.label], s)

/-- The labels in the answers to some requests, with what they are given to. -/
def given (mode : ContextMode) (s : LabelState) : List LabelRequest → List (Labelled × String)
  | [] => []
  | r :: rest => (answer mode s r).1 ++ given mode (answer mode s r).2 rest

/-- The state after some requests. -/
def after (mode : ContextMode) (s : LabelState) (rs : List LabelRequest) : LabelState :=
  rs.foldl (fun s r => (answer mode s r).2) s

theorem isBefore_answer (mode : ContextMode) (s : LabelState) (r : LabelRequest) :
    s.IsBefore (answer mode s r).2 := by
  cases r with
  | path context => exact isBefore_pathBelow s mode [] context
  | bucket solutions keepNull => exact isBefore_bucketId s _

theorem isBefore_after (mode : ContextMode) (s : LabelState) (rs : List LabelRequest) :
    s.IsBefore (after mode s rs) := by
  induction rs generalizing s with
  | nil => exact .refl s
  | cons r rs ih => exact (isBefore_answer mode s r).trans (ih _)

/-! ### Labels are names of origins -/

/-- A step and its parts have the names of their origins. -/
theorem names_withParts {a : Labelled} {o : Step} (h : a.origin mode = .step o) :
    a.withParts.map (fun b => (b.origin mode).name s') = namesWithParts (o.element s') := by
  cases a with
  | call | loop | iteration =>
    cases h
    rfl
  | continued | exited | bucket => cases h

/-- The parts of a step that was seen were seen with it. -/
theorem seenIn_withParts {a b : Labelled} {o : Step} (h : a.origin mode = .step o) (ho : o.SeenIn s')
    (hb : b ∈ a.withParts) : (b.origin mode).SeenIn s' := by
  cases a with
  | loop =>
    cases h
    simp only [Labelled.withParts, List.mem_cons, List.not_mem_nil, or_false] at hb
    rcases hb with rfl | rfl | rfl <;> exact ho
  | call | iteration =>
    cases h
    obtain rfl := List.mem_singleton.mp hb
    exact ho
  | continued | exited | bucket => cases h

/-- The same for all steps of a path. -/
theorem names_flatMap_withParts {as : List Labelled} {os : List Step}
    (h : as.map (Labelled.origin mode) = os.map Origin.step) (hos : ∀ o ∈ os, o.SeenIn s') :
    (as.flatMap Labelled.withParts).map (fun b => (b.origin mode).name s') =
        (os.map (Step.element s')).flatMap namesWithParts ∧
      ∀ b ∈ as.flatMap Labelled.withParts, (b.origin mode).SeenIn s' := by
  induction as generalizing os with
  | nil =>
    obtain rfl := List.map_eq_nil_iff.mp h.symm
    exact ⟨rfl, fun b hb => absurd hb List.not_mem_nil⟩
  | cons a as ih =>
    cases os with
    | nil => cases h
    | cons o os =>
      obtain ⟨ho, hos⟩ := List.forall_mem_cons.mp hos
      obtain ⟨ha, has⟩ := List.cons.inj h
      obtain ⟨hnames, hseen⟩ := ih has hos
      refine ⟨?_, ?_⟩
      · rw [List.flatMap_cons, List.map_append, names_withParts ha, hnames, List.map_cons, List.flatMap_cons]
      · rw [List.flatMap_cons]
        exact List.forall_mem_append.mpr ⟨fun b => seenIn_withParts ha ho, hseen⟩

/-- The labels in an answer are names that every later state gives. -/
theorem answer_spec {r : LabelRequest} (hs : (answer mode s r).2.IsBefore s') :
    (answer mode s r).1 = (Labelled.ofRequest r).map (fun a => (a, (a.origin mode).name s')) ∧
      ∀ a ∈ Labelled.ofRequest r, (a.origin mode).SeenIn s' := by
  rw [List.map_prod_left_eq_zip]
  cases r with
  | path context =>
    obtain ⟨hsteps, hseenSteps⟩ := pathBelow_spec hs
    obtain ⟨hnames, hseen⟩ := names_flatMap_withParts (Labelled.map_origin_ofCalls mode [] context) hseenSteps
    refine ⟨?_, hseen⟩
    rw [answer, Labelled.ofRequest, hnames, ← hsteps]
    rfl
  | bucket solutions keepNull =>
    obtain ⟨hleaf, hseen⟩ := bucket_spec hs
    refine ⟨?_, List.forall_mem_singleton.mpr hseen⟩
    simp only [answer, hleaf]
    rfl

/-- The labels of a run are names that every later state gives. -/
theorem given_spec {rs : List LabelRequest} (hs : (after mode s rs).IsBefore s') :
    given mode s rs = (rs.flatMap Labelled.ofRequest).map (fun a => (a, (a.origin mode).name s')) ∧
      ∀ a ∈ rs.flatMap Labelled.ofRequest, (a.origin mode).SeenIn s' := by
  induction rs generalizing s with
  | nil => exact ⟨rfl, fun a ha => absurd ha List.not_mem_nil⟩
  | cons r rs ih =>
    obtain ⟨hrest, hseenRest⟩ := ih (s := (answer mode s r).2) hs
    obtain ⟨hfirst, hseen⟩ := answer_spec ((isBefore_after mode _ rs).trans hs)
    rw [given, hfirst, hrest, List.flatMap_cons, List.map_append]
    exact ⟨rfl, List.forall_mem_append.mpr ⟨hseen, hseenRest⟩⟩

/-- Two labels of a run are equal exactly if they are given to the same, up to the keys of calls. -/
theorem given_eq_iff {rs : List LabelRequest} {p q : Labelled × String} (hp : p ∈ given mode s rs)
    (hq : q ∈ given mode s rs) : p.2 = q.2 ↔ p.1.Agrees (contextKey mode) q.1 := by
  obtain ⟨hgiven, hseen⟩ := given_spec (.refl (after mode s rs))
  rw [hgiven] at hp hq
  obtain ⟨a, ha, rfl⟩ := List.mem_map.mp hp
  obtain ⟨b, hb, rfl⟩ := List.mem_map.mp hq
  rw [← Labelled.origin_eq_iff]
  exact ⟨Origin.name_inj (hseen a ha) (hseen b hb), fun h => congrArg (Origin.name (after mode s rs)) h⟩

/-- **Labels identify what they are given to, as far as the keys of calls do.**  In a run from any state and in
any mode, every call, every loop and iteration, both parts of every loop and every bucket get one label.  Two
labels are equal exactly if they are given to things of one kind that agree: calls in the function and in the text
of the call sites that the mode looks at, loops in the call and in the header, buckets in the set of solutions.  So
two loops have one label exactly if their calls have one label and their headers are equal.  If no call site holds a
comma, then calls agree only if these call sites are the same: the whole path of them, or the last `k`. -/
theorem labels_identify_contexts (mode : ContextMode) (s : LabelState) (rs : List LabelRequest) :
    (given mode s rs).map Prod.fst = rs.flatMap Labelled.ofRequest ∧
    (∀ p ∈ given mode s rs, ∀ q ∈ given mode s rs, p.2 = q.2 ↔ p.1.Agrees (contextKey mode) q.1) ∧
    (∀ f cs h l c f' cs' h' l' c', (.loop f cs h, l) ∈ given mode s rs → (.call f cs, c) ∈ given mode s rs →
      (.loop f' cs' h', l') ∈ given mode s rs → (.call f' cs', c') ∈ given mode s rs →
        (l = l' ↔ c = c' ∧ h = h')) ∧
    ((∀ r ∈ rs, ∀ x ∈ r.callsites, ',' ∉ x.toList) → ∀ p ∈ given mode s rs, ∀ q ∈ given mode s rs,
      p.2 = q.2 ↔ p.1.Agrees (tellingSites mode) q.1) := by
  obtain ⟨hgiven, -⟩ := given_spec (.refl (after mode s rs))
  have hfst : (given mode s rs).map Prod.fst = rs.flatMap Labelled.ofRequest := by
    rw [hgiven, List.map_map]
    exact List.map_id _
  refine ⟨hfst, fun p hp q hq => given_eq_iff hp hq, ?_, ?_⟩
  · intro f cs h l c f' cs' h' l' c' hl hc hl' hc'
    have hloop : l = l' ↔ (f = f' ∧ contextKey mode cs = contextKey mode cs') ∧ h = h' := given_eq_iff hl hl'
    have hcall : c = c' ↔ f = f' ∧ contextKey mode cs = contextKey mode cs' := given_eq_iff hc hc'
    rw [hloop, hcall]
  · intro hcomma p hp q hq
    have hclean : ∀ p ∈ given mode s rs, p.1.IsClean := by
      intro p hp
      have hmem : p.1 ∈ rs.flatMap Labelled.ofRequest := hfst ▸ List.mem_map_of_mem hp
      obtain ⟨r, hr, hmem⟩ := List.mem_flatMap.mp hmem
      exact Labelled.isClean_of_mem_ofRequest (hcomma r hr) hmem
    rw [given_eq_iff hp hq, (hclean p hp).agrees_iff (hclean q hq)]

/-- Two call stacks without commas that lead to one function in different ways. -/
def plainSites : List LabelRequest :=
  [.path [⟨"main", "0", []⟩, ⟨"f", "12", []⟩], .path [⟨"main", "0", []⟩, ⟨"g", "1", []⟩, ⟨"f", "2", []⟩]]

/-- Without commas the two calls get different labels, since their call sites differ. -/
theorem labels_plainSites : (∀ r ∈ plainSites, ∀ x ∈ r.callsites, ',' ∉ x.toList) ∧
    (.call "f" ["0", "12"], "<f@0>") ∈ given .callPath ∅ plainSites ∧
    (.call "f" ["0", "1", "2"], "<f@1>") ∈ given .callPath ∅ plainSites ∧
    ¬(Labelled.call "f" ["0", "12"]).Agrees (tellingSites .callPath) (.call "f" ["0", "1", "2"]) := by
  have hcomma : ∀ r ∈ plainSites, ∀ x ∈ r.callsites, ',' ∉ x.toList := by decide
  have hone : (.call "f" ["0", "12"], "<f@0>") ∈ given .callPath ∅ plainSites := by decide +kernel
  have htwo : (.call "f" ["0", "1", "2"], "<f@1>") ∈ given .callPath ∅ plainSites := by decide +kernel
  obtain ⟨-, -, -, hsites⟩ := labels_identify_contexts .callPath ∅ plainSites
  refine ⟨hcomma, hone, htwo, ?_⟩
  rw [← hsites hcomma _ hone _ htwo]
  decide

/-- Two call stacks that lead to one function, with a comma in a call site of the first one. -/
def joinedSites : List LabelRequest :=
  [.path [⟨"main", "0", []⟩, ⟨"f", "1,2", []⟩], .path [⟨"main", "0", []⟩, ⟨"g", "1", []⟩, ⟨"f", "2", []⟩]]

/-- With a comma in a call site two calls get one label, though the paths to them and their last call sites differ. -/
theorem labels_joinedSites : (∀ mode ∈ [ContextMode.callPath, .window 3],
      (.call "f" ["0", "1,2"], "<f@0>") ∈ given mode ∅ joinedSites ∧
      (.call "f" ["0", "1", "2"], "<f@0>") ∈ given mode ∅ joinedSites) ∧
    tellingSites .callPath ["0", "1,2"] ≠ tellingSites .callPath ["0", "1", "2"] ∧
    tellingSites (.window 3) ["0", "1,2"] ≠ tellingSites (.window 3) ["0", "1", "2"] := by
  refine ⟨by decide +kernel, by decide, by decide⟩

end LabelState

end GrammarInference
