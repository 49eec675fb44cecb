/-
GrammarInference/Proofs/Mining/Failure.lean

What a call that fails leaves behind.

Design.  A value of a bucket has an alternative or is refused, with an error (`TerminalMode.refusal?`), whether
values are bytes or tokens.  Extraction stops at the first value that is refused, and takes nothing back: the
grammar has what the nodes before that bucket add and what the values before that value add (`Stopped`).  A tree
that starts in another call adds nothing.  This needs that every loop of the grammar has its definition, which
holds after any calls, those that failed among them (`looped_reached`).  The labels and the counts of a trace are
kept from the moment it is ordered (`Failed`).
-/
import GrammarInference.Proofs.Mining.Permutation
import GrammarInference.Proofs.Trace.Repair

namespace GrammarInference

open Grammar ExecutionTree Miner

variable {g g' : Grammar} {n : String} {t root : ExecutionTree} {ts : List ExecutionTree} {mode : TerminalMode}
  {values : List Nat} {e : Error}

/-! ### Values -/

namespace TerminalMode

/-- The alternative for a value. -/
def rule : TerminalMode → Nat → Rule
  | .bytes, v => byteRule v
  | .tokens _, v => [.nonterminal (tokenName (toString v))]

/-- Why there is no alternative for a value, if there is none. -/
def refusal? : TerminalMode → Nat → Option Error
  | .bytes, v => if v < 256 then none else some (.solutionOutOfRange v)
  | .tokens definitions, v =>
    if definitions.contains (tokenName (toString v)) then none else some (.unknownToken (tokenName (toString v)))

/-- The alternatives for all tokens, if that is what the values mean. -/
def anyToken? : TerminalMode → List Nat → Option (List Rule)
  | .bytes, _ => none
  | .tokens definitions, values =>
    if unconstrainedTokenCount ≤ values.length then
      some ((definitions.keys.filter isTokenName).map fun t => [.nonterminal t])
    else none

/-- The alternatives of a bucket whose values are not refused. -/
def bucketRules (mode : TerminalMode) (values : List Nat) : List Rule :=
  if values.isEmpty then [[]] else (mode.anyToken? values).getD (values.map mode.rule)

/-- What a node adds. -/
def additions (mode : TerminalMode) : ExecutionTree → List Addition
  | .node n (.bucket values) _ => (n, none) :: (mode.bucketRules values).map fun r => (n, some r)
  | t => GrammarInference.additions t

/-- No value of the node is refused. -/
def Reads (mode : TerminalMode) (t : ExecutionTree) : Prop :=
  ∀ values, t.kind = .bucket values → mode.anyToken? values = none → ∀ v ∈ values, mode.refusal? v = none

/-- With bytes as values a node adds what it adds when none of them is refused. -/
theorem additions_bytes (t : ExecutionTree) : bytes.additions t = GrammarInference.additions t := by
  obtain ⟨n, kind, ts⟩ := t
  cases kind <;> rfl

theorem bucketRules_of_ne_nil (h : values ≠ []) :
    mode.bucketRules values = (mode.anyToken? values).getD (values.map mode.rule) :=
  if_neg (by rwa [List.isEmpty_iff])

theorem reads_of_kind_ne (h : ∀ values, t.kind ≠ .bucket values) : mode.Reads t :=
  fun values hkind => absurd hkind (h values)

end TerminalMode

/-- Adds one alternative for each value, up to the first one that is refused. -/
def addValues (mode : TerminalMode) (n : String) (g : Grammar) : List Nat → Extracted
  | [] => (g, .ok ())
  | v :: rest =>
    match mode.refusal? v with
    | none => addValues mode n (g.addAlternative n (mode.rule v)) rest
    | some e => (g, .error e)

theorem addBytes_eq_addValues (n : String) (g : Grammar) (values : List Nat) :
    addBytes n g values = addValues .bytes n g values := by
  induction values generalizing g with
  | nil => rfl
  | cons v rest ih =>
    rw [addBytes, addValues, TerminalMode.refusal?]
    split
    · exact ih _
    · rfl

theorem addTokens_eq_addValues (definitions : Grammar) (n : String) (g : Grammar) (values : List Nat) :
    addTokens definitions n g values = addValues (.tokens definitions) n g values := by
  induction values generalizing g with
  | nil => rfl
  | cons v rest ih =>
    rw [addTokens, addValues, TerminalMode.refusal?]
    split
    · exact ih _
    · rfl

/-- What becomes of a grammar when values are added to a name. -/
inductive ValuesAdded (mode : TerminalMode) (n : String) (g : Grammar) (values : List Nat) : Extracted → Prop
  | done {g' : Grammar} : (∀ v ∈ values, mode.refusal? v = none) →
      Mines g ((values.map mode.rule).map fun r => (n, some r)) g' → ValuesAdded mode n g values (g', .ok ())
  | stopped {g' : Grammar} {front : List Nat} {v : Nat} {back : List Nat} {e : Error} :
      values = front ++ v :: back → (∀ u ∈ front, mode.refusal? u = none) → mode.refusal? v = some e →
      Mines g ((front.map mode.rule).map fun r => (n, some r)) g' → ValuesAdded mode n g values (g', .error e)

theorem valuesAdded_addValues (mode : TerminalMode) (g : Grammar) (values : List Nat) (hn : mark n ≠ some 'L') :
    ValuesAdded mode n g values (addValues mode n g values) := by
  induction values generalizing g with
  | nil => exact .done (fun v hv => absurd hv List.not_mem_nil) (.refl g)
  | cons v rest ih =>
    rw [addValues]
    rcases hv : mode.refusal? v with - | e
    · have hfirst := mines_addAlternative g hn (mode.rule v)
      -- the remaining values decide whether one is refused
      have hrest := ih (g.addAlternative n (mode.rule v))
      dsimp only
      generalize addValues mode n (g.addAlternative n (mode.rule v)) rest = x at hrest
      cases hrest with
      | done hread hmines => exact .done (List.forall_mem_cons.mpr ⟨hv, hread⟩) (hfirst.trans hmines)
      | stopped hvalues hfront he hmines =>
        exact .stopped (congrArg (v :: ·) hvalues) (List.forall_mem_cons.mpr ⟨hv, hfront⟩) he (hfirst.trans hmines)
    · exact .stopped (List.nil_append _).symm (fun u hu => absurd hu List.not_mem_nil) hv (.refl g)

/-! ### Nodes -/

/-- `Stopped mode ts c e`: a value of one of the nodes is refused, with the error `e`, no value before it is, and
what is before it adds `c`. -/
inductive Stopped (mode : TerminalMode) (ts : List ExecutionTree) : List Addition → Error → Prop
  | value {before after below : List ExecutionTree} {n : String} {values front back : List Nat} {v : Nat} {e : Error} :
      ts = before ++ .node n (.bucket values) below :: after → (∀ t ∈ before, mode.Reads t) →
      mode.anyToken? values = none → values = front ++ v :: back → (∀ u ∈ front, mode.refusal? u = none) →
      mode.refusal? v = some e →
      Stopped mode ts
        (before.flatMap mode.additions ++ (n, none) :: (front.map mode.rule).map fun r => (n, some r)) e

/-- What becomes of a grammar when nodes are added to it. -/
inductive NodesAdded (mode : TerminalMode) (g : Grammar) (ts : List ExecutionTree) : Extracted → Prop
  | done {g' : Grammar} : (∀ t ∈ ts, mode.Reads t) → Mines g (ts.flatMap mode.additions) g' →
      NodesAdded mode g ts (g', .ok ())
  | stopped {g' : Grammar} {c : List Addition} {e : Error} : Stopped mode ts c e → Mines g c g' →
      NodesAdded mode g ts (g', .error e)

theorem NodesAdded.looped {x : Extracted} (h : NodesAdded mode g ts x) (hg : Looped g) : Looped x.1 := by
  cases h with
  | done _ hmines | stopped _ hmines => exact hmines.looped hg

theorem NodesAdded.singleton (hread : mode.Reads t) (hmines : Mines g (mode.additions t) g') :
    NodesAdded mode g [t] (g', .ok ()) :=
  .done (List.forall_mem_singleton.mpr hread) (by rwa [List.flatMap_singleton])

/-- Values that do not mean any token are added one by one. -/
theorem addBucket_of_ne_nil (h : values ≠ []) : addBucket mode g n values =
    match mode.anyToken? values with
    | none => addValues mode n (g.ensure n) values
    | some rs => (rs.foldl (fun g r => Grammar.addAlternative g n r) (g.ensure n), .ok ()) := by
  have hne : values.isEmpty = false := by rwa [List.isEmpty_eq_false_iff]
  cases mode with
  | bytes =>
    simp only [addBucket, hne]
    exact addBytes_eq_addValues n _ values
  | tokens definitions =>
    simp only [addBucket, hne, TerminalMode.anyToken?, Bool.false_eq_true, if_false]
    split
    · simp only [List.foldl_map]
    · exact addTokens_eq_addValues definitions n _ values

theorem nodesAdded_addBucket (hn : mark n ≠ some 'L') (below : List ExecutionTree) :
    NodesAdded mode g [.node n (.bucket values) below] (addBucket mode g n values) := by
  have hname := mines_ensure g hn
  by_cases hvalues : values = []
  · subst hvalues
    refine .singleton (fun values' hkind _ v hv => ?_) (hname.trans (mines_addAlternative _ hn []))
    cases hkind
    exact absurd hv List.not_mem_nil
  · rw [addBucket_of_ne_nil hvalues]
    rcases hany : mode.anyToken? values with - | rs
    · -- the name stays defined also where a value is refused
      have hadded := valuesAdded_addValues mode (g.ensure n) values hn
      dsimp only
      generalize addValues mode n (g.ensure n) values = x at hadded
      cases hadded with
      | done hread hmines =>
        refine .singleton (fun values' hkind _ => ?_) ?_
        · cases hkind
          exact hread
        · rw [TerminalMode.additions, TerminalMode.bucketRules_of_ne_nil hvalues, hany]
          exact hname.trans hmines
      | stopped hsplit hfront he hmines =>
        exact .stopped (.value (List.nil_append _).symm (fun t ht => absurd ht List.not_mem_nil) hany hsplit hfront he)
          (hname.trans hmines)
    · refine .singleton (fun values' hkind hnone => ?_) ?_
      · cases hkind
        rw [hany] at hnone
        cases hnone
      · rw [TerminalMode.additions, TerminalMode.bucketRules_of_ne_nil hvalues, hany]
        exact hname.trans (mines_foldl_addAlternative _ hn id rs)

theorem nodesAdded_addNode (mode : TerminalMode) (hg : Looped g) (ht : Marked t) :
    NodesAdded mode g [t] (addNode mode g t) := by
  obtain ⟨n, kind, ts⟩ := t
  have hmark : mark n = some kind.mark := ht
  cases kind with
  | bucket values => exact nodesAdded_addBucket (by rw [hmark, NodeKind.mark]; decide) ts
  | call =>
    refine .singleton (TerminalMode.reads_of_kind_ne fun _ => NodeKind.noConfusion) ?_
    exact mines_addAlternative g (by rw [hmark, NodeKind.mark]; decide) (labelRule ts)
  | loop =>
    refine .singleton (TerminalMode.reads_of_kind_ne fun _ => NodeKind.noConfusion) ?_
    exact addLoop_spec hg hmark ts
  | iteration => exact .singleton (TerminalMode.reads_of_kind_ne fun _ => NodeKind.noConfusion) (.refl g)

/-- A value that is refused behind nodes whose values are not. -/
theorem Stopped.append {c : List Addition} (h : Stopped mode ts c e) {before : List ExecutionTree}
    (hbefore : ∀ t ∈ before, mode.Reads t) :
    Stopped mode (before ++ ts) (before.flatMap mode.additions ++ c) e := by
  cases h with
  | @value before' after below n values front back v _ hts hbefore' hany hvalues hfront he =>
    rw [← List.append_assoc, ← List.flatMap_append]
    exact .value (by rw [hts, List.append_assoc]) (List.forall_mem_append.mpr ⟨hbefore, hbefore'⟩) hany hvalues
      hfront he

/-- More nodes behind the value change nothing. -/
theorem Stopped.concat {c : List Addition} (h : Stopped mode ts c e) (behind : List ExecutionTree) :
    Stopped mode (ts ++ behind) c e := by
  cases h with
  | @value before after below n values front back v _ hts hbefore hany hvalues hfront he =>
    exact .value (by rw [hts, List.append_assoc, List.cons_append]) hbefore hany hvalues hfront he

theorem nodesAdded_addNodes (hg : Looped g) (hts : ∀ t ∈ ts, Marked t) :
    NodesAdded mode g ts (addNodes mode g ts) := by
  induction ts generalizing g with
  | nil => exact .done (fun t ht => absurd ht List.not_mem_nil) (.refl g)
  | cons t ts ih =>
    obtain ⟨ht, hts⟩ := List.forall_mem_cons.mp hts
    have hnode := nodesAdded_addNode mode hg ht
    rw [addNodes]
    generalize addNode mode g t = x at hnode
    cases hnode with
    | stopped hstop hmines => exact .stopped (hstop.concat ts) hmines
    | @done g₁ hread hmines =>
      -- the loops have their definitions again before the remaining nodes
      have hrest := ih (hmines.looped hg) hts
      dsimp only
      generalize addNodes mode g₁ ts = y at hrest
      cases hrest with
      | done hreads hmines' =>
        refine .done (List.forall_mem_append.mpr ⟨hread, hreads⟩) ?_
        rw [← List.singleton_append, List.flatMap_append]
        exact hmines.trans hmines'
      | stopped hstop hmines' => exact .stopped (hstop.append hread) (hmines.trans hmines')

/-! ### Whole trees -/

/-- The rule of the start symbol is one more alternative. -/
theorem extractInto_of_startsIn (h : StartsIn g root.label) :
    extractInto mode g root = addNodes mode (g.addAlternative startName [.nonterminal root.label]) root.levels := by
  rw [extractInto, addAlternative, alternatives, push, alternatives]
  rcases hget : g.get? startName with - | existing
  · rfl
  · have hsame := h existing hget
    subst hsame
    simp

theorem extractInto_of_not_startsIn (mode : TerminalMode) (h : ¬StartsIn g root.label) :
    ∃ existing, g.get? startName = some existing ∧ existing ≠ [[.nonterminal root.label]] ∧
      extractInto mode g root = (g, .error (.startMismatch (displayAlternatives existing) root.label)) := by
  obtain ⟨existing, h⟩ := not_forall.mp h
  obtain ⟨hget, hne⟩ := Classical.not_imp.mp h
  exact ⟨existing, hget, hne, by simp only [extractInto, Option.mem_def.mp hget, if_neg hne]⟩

theorem mines_start (g : Grammar) (n : String) :
    Mines g [(startName, some [.nonterminal n])] (g.addAlternative startName [.nonterminal n]) :=
  mines_addAlternative g (by rw [mark_startName]; decide) [.nonterminal n]

theorem nodesAdded_extractInto (mode : TerminalMode) (hg : Looped g) (hroot : ∀ t ∈ root.levels, Marked t)
    (h : StartsIn g root.label) :
    NodesAdded mode (g.addAlternative startName [.nonterminal root.label]) root.levels (extractInto mode g root) := by
  rw [extractInto_of_startsIn h]
  exact nodesAdded_addNodes ((mines_start g root.label).looped hg) hroot

theorem looped_extractInto (hg : Looped g) (hroot : ∀ t ∈ root.levels, Marked t) :
    Looped (extractInto mode g root).1 := by
  by_cases h : StartsIn g root.label
  · exact (nodesAdded_extractInto mode hg hroot h).looped ((mines_start g root.label).looped hg)
  · obtain ⟨existing, -, -, heq⟩ := extractInto_of_not_startsIn mode h
    rw [heq]
    exact hg

namespace Miner

variable {m m' : Miner} {t : Trace}

/-! ### Calls -/

/-- What is done with a trace that is ordered and has a tree. -/
theorem addTrace_of_build {o : OrderedTrace} {labels : LabelState} (ho : orderTrace t m.config.order = .ok o)
    (hb : ExecutionTree.build o m.labels m.config.context m.tokens?.isSome = (some root, labels)) :
    m.addTrace t = ((extractInto m.mode m.grammar root).2.map fun _ => some root, { m with
      labels := labels
      stats := countTrace m.stats o
      grammar := (extractInto m.mode m.grammar root).1 }) := by
  simp only [addTrace, ho, hb]
  rfl

theorem addTrace_of_build_none {o : OrderedTrace} {labels : LabelState} (ho : orderTrace t m.config.order = .ok o)
    (hb : ExecutionTree.build o m.labels m.config.context m.tokens?.isSome = (none, labels)) :
    m.addTrace t = (.ok none, { m with labels := labels, stats := countTrace m.stats o }) := by
  simp only [addTrace, ho, hb]

/-- The nodes of a tree that was built have the marks of their kinds. -/
theorem marked_of_build {o : OrderedTrace} {s labels : LabelState} {context : ContextMode} {keepNull : Bool}
    (hb : ExecutionTree.build o s context keepNull = (some root, labels)) : ∀ u ∈ root.levels, Marked u := by
  have hgrown := (ExecutionTree.build_grown (P := fun _ => True) (fun _ _ _ _ => trivial) (congrArg Prod.fst hb)).1
  exact fun u hu => (hgrown.of_mem_levels hu).marked

/-- A call keeps the definitions of loops, also if it fails. -/
theorem looped_addTrace (hm : Looped m.grammar) : Looped (m.addTrace t).2.grammar := by
  rcases ho : orderTrace t m.config.order with e | o
  · rw [addTrace, ho]
    cases e <;> exact hm
  · rcases hb : ExecutionTree.build o m.labels m.config.context m.tokens?.isSome with ⟨- | root, labels⟩
    · rw [addTrace_of_build_none ho hb]
      exact hm
    · rw [addTrace_of_build ho hb]
      exact looped_extractInto hm (marked_of_build hb)

/-- The miner after calls for some traces, whether they failed or not. -/
def reached (config : MinerConfig) (tokens? : Option Grammar) (earlier : List Trace) : Miner :=
  earlier.foldl (fun m t => (m.addTrace t).2) (new config tokens?)

theorem looped_reached (config : MinerConfig) (tokens? : Option Grammar) (earlier : List Trace) :
    Looped (reached config tokens? earlier).grammar := by
  refine List.foldlRecOn (motive := fun m : Miner => Looped m.grammar) earlier _ looped_empty fun m hm t _ => ?_
  exact looped_addTrace hm

/-! ### Calls that fail -/

/-- A trace whose first position was read is put into order, or skipped. -/
theorem orderable_of_readsFirst (config : MinerConfig) (h : t.readsFirst = true) : Orderable config t := by
  intro e he
  rw [orderTrace, h, Bool.not_true, if_neg Bool.false_ne_true] at he
  rcases (Repair.follows_start h).run 0 (config.order.maxRounds t.size) with ⟨s, hrun, -⟩ | ⟨hrun, -⟩
  · rw [hrun] at he
    cases he
  · rw [hrun] at he
    cases he
    exact ⟨_, rfl⟩

/-- What a call that fails leaves behind. -/
inductive Failed (m : Miner) (t : Trace) : Error → Miner → Prop
  /-- Nothing is touched if the first position was never read. -/
  | unread : t.readsFirst = false → Failed m t .unreadFirstPosition m
  /-- The grammar is as it was if the tree starts in another call; the trace is counted. -/
  | mismatch {o : OrderedTrace} {labels : LabelState} {root : ExecutionTree} {existing : List Rule} :
      orderTrace t m.config.order = .ok o →
      ExecutionTree.build o m.labels m.config.context m.tokens?.isSome = (some root, labels) →
      m.grammar.get? startName = some existing → existing ≠ [[.nonterminal root.label]] →
      Failed m t (.startMismatch (displayAlternatives existing) root.label)
        { m with labels := labels, stats := countTrace m.stats o }
  /-- The grammar has got what comes before the value that was refused; the trace is counted. -/
  | value {o : OrderedTrace} {labels : LabelState} {root : ExecutionTree} {c : List Addition} {e : Error}
      {g : Grammar} :
      orderTrace t m.config.order = .ok o →
      ExecutionTree.build o m.labels m.config.context m.tokens?.isSome = (some root, labels) →
      StartsIn m.grammar root.label → Stopped m.mode root.levels c e →
      Mines m.grammar ((startName, some [.nonterminal root.label]) :: c) g →
      Failed m t e { m with labels := labels, stats := countTrace m.stats o, grammar := g }

/-- What a call that fails leaves behind, where every loop has its definition. -/
theorem failed_of_looped {e : Error} (hm : Looped m.grammar) (h : m.addTrace t = (.error e, m')) :
    Failed m t e m' := by
  rcases ho : orderTrace t m.config.order with e' | o
  · rcases hread : t.readsFirst with - | -
    · have hunread : orderTrace t m.config.order = .error .unreadFirstPosition := by
        rw [orderTrace, hread]
        rfl
      simp only [addTrace, hunread] at h
      cases h
      exact .unread hread
    · -- the trace would be skipped
      obtain ⟨rounds, rfl⟩ := orderable_of_readsFirst m.config hread e' ho
      simp only [addTrace, ho] at h
      cases h
  · rcases hb : ExecutionTree.build o m.labels m.config.context m.tokens?.isSome with ⟨- | root, labels⟩
    · rw [addTrace_of_build_none ho hb] at h
      cases h
    · rw [addTrace_of_build ho hb] at h
      by_cases hstart : StartsIn m.grammar root.label
      · have hadded := nodesAdded_extractInto m.mode hm (marked_of_build hb) hstart
        generalize extractInto m.mode m.grammar root = x at hadded h
        cases hadded with
        | done _ _ => cases h
        | stopped hstop hmines =>
          cases h
          exact .value ho hb hstart hstop ((mines_start m.grammar root.label).trans hmines)
      · obtain ⟨existing, hget, hne, heq⟩ := extractInto_of_not_startsIn m.mode hstart
        rw [heq] at h
        cases h
        exact .mismatch ho hb hget hne

/-- **A call that fails takes nothing back.**  After any calls, failed ones among them, a call fails only for want of
a first read, for a tree that starts in another call, or at a value that is refused.  Of these only the first leaves
the miner as it was: in the second case the trace is counted, and in the third the grammar has also got the rule of
the start symbol and what comes before that value. -/
theorem failed_of_addTrace_reached (config : MinerConfig) (tokens? : Option Grammar) (earlier : List Trace)
    (t : Trace) (e : Error) (m' : Miner) (h : (reached config tokens? earlier).addTrace t = (.error e, m')) :
    Failed (reached config tokens? earlier) t e m' :=
  failed_of_looped (looped_reached config tokens? earlier) h

/-- The call `main` reads a byte or a value that is none, and then calls `f`, which reads a byte. -/
def wideTrace : Trace where
  positions := [⟨[1], [[⟨"main", "0", []⟩]], [97, 300]⟩, ⟨[2], [[⟨"main", "0", []⟩, ⟨"f", "1", []⟩]], [98]⟩]
  nonempty := List.cons_ne_nil _ _
  consistent := by simp [PositionRecord.Consistent]
  size_le := by decide

theorem addTrace_wideTrace : (reached {} none []).addTrace wideTrace =
    (.error (.solutionOutOfRange 300), ((reached {} none []).addTrace wideTrace).2) :=
  Prod.ext rfl rfl

/-- The rules for the start symbol, for `main` and for the byte stay, with `f` undefined. -/
theorem failed_wideTrace : ∃ m', (reached {} none []).addTrace wideTrace = (.error (.solutionOutOfRange 300), m') ∧
    Failed (reached {} none []) wideTrace (.solutionOutOfRange 300) m' ∧
    m'.grammar.entries = [("<start>", [[.nonterminal "<main@0>"]]),
      ("<main@0>", [[.nonterminal "<__T1>", .nonterminal "<f@0>"]]), ("<__T1>", [[.terminal "a"]])] := by
  have herror := addTrace_wideTrace
  exact ⟨_, herror, failed_of_addTrace_reached {} none [] wideTrace _ _ herror, by decide +kernel⟩

/-- Some call fails and does not leave the grammar and the counts as they were. -/
theorem not_unchanged_of_addTrace_error : ¬∀ config tokens? earlier t e m',
    (reached config tokens? earlier).addTrace t = (.error e, m') →
      m'.grammar = (reached config tokens? earlier).grammar ∧ m'.stats = (reached config tokens? earlier).stats := by
  intro h
  obtain ⟨hgrammar, -⟩ := h {} none [] wideTrace _ _ addTrace_wideTrace
  have hstart : ((reached {} none []).addTrace wideTrace).2.grammar.get? startName = none := by
    rw [hgrammar]
    rfl
  revert hstart
  decide +kernel

end Miner

end GrammarInference
