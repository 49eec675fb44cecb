/-
GrammarInference/Proofs/Refinement/Caching.lean

An oracle with a memory asks every question once.

Design.  What calls of an oracle with a memory do is told by a log: the questions that were passed on, with the answers
to them (`Asked`).  The log is what the oracle behind the memory goes through, the memory grows by exactly its entries,
and its questions are the inputs that the memory did not have, each one once and in the order of their first
occurrences.  One input is passed on or not, logs of consecutive calls are appended, and so every sequence of calls has
a log.  Nothing is assumed of the oracle: it may give another answer when it is asked again, and is not asked again.
If it does follow a function, then the oracle with a memory follows the same one, and nobody who asks either of them
can tell which it is.
-/
import GrammarInference.Collection.Distinct
import GrammarInference.Proofs.Refinement.Deterministic
import GrammarInference.Proofs.Refinement.Log

namespace GrammarInference

variable {σ : Type}

namespace Oracle

/-! ### Calls -/

/-- A call of an oracle. -/
inductive Call where
  /-- For the verdict on one input. -/
  | one (input : String)
  /-- For the verdicts on a batch. -/
  | batch (inputs : List String)

/-- The inputs of a call, in order. -/
def Call.inputs : Call → List String
  | one input => [input]
  | batch inputs => inputs

/-- The verdicts of a call. -/
def answerCall (o : Oracle σ) : Call → σ → List Verdict × σ
  | .one input, s => let (v, s) := o.classify input s; ([v], s)
  | .batch inputs, s => o.classifyAll inputs s

/-- The verdicts of a sequence of calls. -/
def answerCalls (o : Oracle σ) : List Call → σ → List (List Verdict) × σ
  | [], s => ([], s)
  | c :: rest, s =>
    let (vs, s) := o.answerCall c s
    let (vss, s) := answerCalls o rest s
    (vs :: vss, s)

/-- A call for one verdict is a call for a batch of one input. -/
theorem answerCall_eq (o : Oracle σ) (c : Call) (s : σ) : o.answerCall c s = o.classifyAll c.inputs s := by
  cases c <;> rfl

theorem answerCalls_append (o : Oracle σ) (calls later : List Call) (s : σ) :
    o.answerCalls (calls ++ later) s = ((o.answerCalls calls s).1 ++ (o.answerCalls later (o.answerCalls calls s).2).1,
      (o.answerCalls later (o.answerCalls calls s).2).2) := by
  induction calls generalizing s with
  | nil => rfl
  | cons c rest ih => simp only [List.cons_append, answerCalls, ih]

/-! ### What is passed on -/

variable {o : Oracle σ} {log log' : Log} {inputs inputs' : List String} {verdicts verdicts' : List Verdict}

/-- The answers to the same questions from the same state are the same. -/
theorem Answers.log_eq {s s' s'' : σ} (h : o.Answers log s s') (h' : o.Answers log' s s'')
    (hquestions : log.map Prod.fst = log'.map Prod.fst) : log = log' := by
  rw [Answers, hquestions, h'] at h
  have hanswers : log.map Prod.snd = log'.map Prod.snd := (congrArg Prod.fst h).symm
  exact (List.zip_of_prod hquestions hanswers).trans (List.zip_of_prod rfl rfl).symm

/-- Asked for the verdicts on the inputs, the oracle with a memory goes from `x` to `x'` and passes on the questions of
the log. -/
structure Asked (o : Oracle σ) (log : Log) (inputs : List String) (verdicts : List Verdict) (x x' : σ × Memory) :
    Prop where
  /-- The log is what the oracle behind the memory goes through. -/
  answers : o.Answers log x.1 x'.1
  /-- It is appended to the memory. -/
  entries : x'.2.entries = x.2.entries ++ log
  /-- Its questions are the inputs that the memory did not have. -/
  questions : log.map Prod.fst = distinct (inputs.filter fun input => !x.2.contains input)
  /-- The verdicts are those of the memory. -/
  verdicts : verdicts.map some = inputs.map x'.2.get?

namespace Asked

variable {x x' x'' : σ × Memory}

theorem nil (o : Oracle σ) (x : σ × Memory) : Asked o [] [] [] x x where
  answers := answers_nil o x.1
  entries := (List.append_nil _).symm
  questions := rfl
  verdicts := rfl

/-- What the memory has, it keeps. -/
theorem get?_eq_some (h : Asked o log inputs verdicts x x') {input : String} {v : Verdict}
    (hget : x.2.get? input = some v) : x'.2.get? input = some v := by
  rw [OrderedMap.get?_eq_some_iff] at hget ⊢
  rw [h.entries]
  exact List.mem_append_left log hget

/-- The memory has what it had and what was asked for. -/
theorem contains_iff (h : Asked o log inputs verdicts x x') {input : String} :
    x'.2.contains input = true ↔ x.2.contains input = true ∨ input ∈ inputs := by
  have hkeys : x'.2.keys = x.2.keys ++ log.map Prod.fst := by
    rw [OrderedMap.keys, h.entries, List.map_append]
    rfl
  rw [OrderedMap.contains_iff_mem_keys, hkeys, List.mem_append, h.questions, mem_distinct, List.mem_filter,
    ← OrderedMap.contains_iff_mem_keys]
  by_cases hx : x.2.contains input = true <;> simp [hx]

/-- The verdicts are those of every later memory. -/
theorem verdicts_later (h : Asked o log inputs verdicts x x') (h' : Asked o log' inputs' verdicts' x' x'') :
    verdicts.map some = inputs.map x''.2.get? := by
  rw [h.verdicts]
  refine List.map_congr_left fun input hinput => ?_
  obtain ⟨v, hv⟩ : ∃ v, x'.2.get? input = some v :=
    Option.isSome_iff_exists.mp (h.contains_iff.mpr (.inr hinput))
  rw [hv, h'.get?_eq_some hv]

/-- To an empty memory every input is new. -/
theorem questions_of_empty {s : σ} (h : Asked o log inputs verdicts (s, ∅) x') :
    log.map Prod.fst = distinct inputs :=
  h.questions.trans (congrArg distinct (List.filter_eq_self.mpr fun _ _ => rfl))

/-- Consecutive questions. -/
theorem append (h : Asked o log inputs verdicts x x') (h' : Asked o log' inputs' verdicts' x' x'') :
    Asked o (log ++ log') (inputs ++ inputs') (verdicts ++ verdicts') x x'' where
  answers := h.answers.append h'.answers
  entries := by rw [h'.entries, h.entries, List.append_assoc]
  questions := by
    rw [List.map_append, h.questions, h'.questions, List.filter_append, distinct_append, List.filter_filter]
    congr 2
    refine List.filter_congr fun input _ => ?_
    -- an input is new to the second memory if the first one did not have it and it was not asked for since
    rw [Bool.eq_iff_iff, Bool.not_eq_true', Bool.eq_false_iff, ne_eq, h.contains_iff]
    by_cases hx : x.2.contains input = true <;> simp [hx]
  verdicts := by rw [List.map_append, List.map_append, h.verdicts_later h', h'.verdicts]

end Asked

/-- One input is passed on if the memory does not have it. -/
theorem asked_classify (o : Oracle σ) (input : String) (x : σ × Memory) :
    ∃ log, Asked o log [input] [(o.cached.classify input x).1] x (o.cached.classify input x).2 := by
  obtain ⟨s, memory⟩ := x
  rcases hget : memory.get? input with - | v
  · have hnew : memory.contains input = false := by rw [OrderedMap.contains, hget]; rfl
    have hstep : o.cached.classify input (s, memory) = ((o.classify input s).1,
        ((o.classify input s).2, memory.insert input (o.classify input s).1)) := by
      simp only [cached, hget]
    rw [hstep]
    refine ⟨[(input, (o.classify input s).1)], answers_cons_iff.mpr ⟨rfl, answers_nil o _⟩, ?_, ?_, ?_⟩
    · have hkey : input ∉ memory.keys := by
        rw [← OrderedMap.contains_iff_mem_keys, hnew]
        exact Bool.false_ne_true
      exact OrderedMap.entries_insert_of_not_mem hkey _
    · rw [List.filter_cons_of_pos (by rw [hnew]; rfl)]
      rfl
    · rw [List.map_cons, List.map_cons, OrderedMap.get?_insert, if_pos rfl]
      rfl
  · have hstep : o.cached.classify input (s, memory) = (v, (s, memory)) := by simp only [cached, hget]
    rw [hstep]
    refine ⟨[], answers_nil o s, (List.append_nil _).symm, ?_, ?_⟩
    · rw [List.filter_cons_of_neg (by rw [OrderedMap.contains, hget]; exact Bool.false_ne_true)]
      rfl
    · rw [List.map_cons, List.map_cons, hget]
      rfl

/-- A batch is asked input by input. -/
theorem asked_classifyAll (o : Oracle σ) (inputs : List String) (x : σ × Memory) :
    ∃ log, Asked o log inputs (o.cached.classifyAll inputs x).1 x (o.cached.classifyAll inputs x).2 := by
  induction inputs generalizing x with
  | nil => exact ⟨[], .nil o x⟩
  | cons input rest ih =>
    obtain ⟨log, h⟩ := asked_classify o input x
    obtain ⟨log', h'⟩ := ih (o.cached.classify input x).2
    exact ⟨log ++ log', h.append h'⟩

/-- Every sequence of calls has a log, and each call has the verdicts of the memory that is left. -/
theorem asked_answerCalls (o : Oracle σ) (calls : List Call) (x : σ × Memory) :
    ∃ log, Asked o log (calls.flatMap Call.inputs) (o.cached.answerCalls calls x).1.flatten x
        (o.cached.answerCalls calls x).2 ∧
      (o.cached.answerCalls calls x).1.map (List.map some) =
        calls.map fun c => c.inputs.map (o.cached.answerCalls calls x).2.2.get? := by
  induction calls generalizing x with
  | nil => exact ⟨[], .nil o x, rfl⟩
  | cons c rest ih =>
    obtain ⟨log, h⟩ := asked_classifyAll o c.inputs x
    rw [← answerCall_eq] at h
    obtain ⟨log', h', hrest⟩ := ih (o.cached.answerCall c x).2
    refine ⟨log ++ log', ?_, ?_⟩
    · rw [List.flatMap_cons]
      exact h.append h'
    · exact congrArg₂ List.cons (h.verdicts_later h') hrest

/-- What the oracle behind the memory is asked, as it records it itself. -/
theorem Asked.record {y y' : (σ × Record) × Memory} (h : Asked o.recording log inputs verdicts y y') :
    o.Answers log y.1.1 y'.1.1 ∧ y'.1.2.reverse = y.1.2.reverse ++ log := by
  obtain ⟨hanswers, hrecord⟩ := h.answers.recording
  refine ⟨hanswers, ?_⟩
  rw [hrecord, List.reverse_append, List.reverse_reverse]

/-! ### Oracles that do not change -/

variable {f : String → Verdict} {P : σ → Prop}

/-- With nothing wrong in the memory, the oracle answers by the function that the oracle behind the memory follows. -/
theorem Follows.cached (h : o.Follows f P) : o.cached.Follows f fun x => P x.1 ∧ ∀ e ∈ x.2.entries, f e.1 = e.2 := by
  rintro input ⟨s, memory⟩ ⟨hs, hmemory⟩
  rcases hget : memory.get? input with - | v
  · obtain ⟨hanswer, hs'⟩ := h input s hs
    have hnew : input ∉ memory.keys := by
      rw [← OrderedMap.contains_iff_mem_keys, OrderedMap.contains, hget]
      exact Bool.false_ne_true
    simp only [Oracle.cached, hget]
    refine ⟨hanswer, hs', fun e he => ?_⟩
    rw [OrderedMap.entries_insert_of_not_mem hnew] at he
    rcases List.mem_append.mp he with he | he
    · exact hmemory e he
    · rw [List.mem_singleton.mp he]
      exact hanswer.symm
  · simp only [Oracle.cached, hget]
    exact ⟨(hmemory (input, v) (OrderedMap.get?_eq_some_iff.mp hget)).symm, hs, hmemory⟩

end Oracle

/-! ### Refiners -/

namespace Refiner

open Oracle (Memory)

variable {τ : Type} {f : String → Verdict} {P : σ → Prop} {r : Refiner σ} {r' : Refiner τ} {memory : Memory}

/-- The refiner with a memory in front of its oracle. -/
def caching (r : Refiner σ) (memory : Memory) : Refiner (σ × Memory) where
  oracle := r.oracle.cached
  oracleState := (r.oracleState, memory)
  config := r.config
  isCancelled := r.isCancelled
  discriminating := r.discriminating
  confirmed := r.confirmed
  names := r.names
  snapshots := r.snapshots

/-- It is the new refiner of the oracle with a memory. -/
theorem caching_new (o : Oracle σ) (s : σ) (config : RefinementConfig) (isCancelled : Bool)
    (directories : List String) (memory : Memory) :
    (Refiner.new o s config isCancelled directories).caching memory =
      Refiner.new o.cached (s, memory) config isCancelled directories := rfl

/-- The refiners differ in their oracles at most. -/
structure SameKnowledge (r : Refiner σ) (r' : Refiner τ) : Prop where
  /-- They have the same settings. -/
  config : r.config = r'.config
  /-- They are cancelled or not. -/
  isCancelled : r.isCancelled = r'.isCancelled
  /-- They hold the same inputs to be rejected. -/
  discriminating : r.discriminating = r'.discriminating
  /-- They hold the same inputs to be accepted. -/
  confirmed : r.confirmed = r'.confirmed
  /-- They have given the same names. -/
  names : r.names = r'.names
  /-- They have written the same files. -/
  snapshots : r.snapshots = r'.snapshots

theorem sameKnowledge_of_asFunction_eq (h : r.asFunction f = r'.asFunction f) : SameKnowledge r r' where
  config := congrArg Refiner.config h
  isCancelled := congrArg Refiner.isCancelled h
  discriminating := congrArg Refiner.discriminating h
  confirmed := congrArg Refiner.confirmed h
  names := congrArg Refiner.names h
  snapshots := congrArg Refiner.snapshots h

/-- With a function in the place of the oracle, the memory is gone as well. -/
theorem asFunction_caching (r : Refiner σ) (memory : Memory) : (r.caching memory).asFunction f = r.asFunction f := rfl

theorem Follows.caching (h : Follows f P r) (hmemory : ∀ e ∈ memory.entries, f e.1 = e.2) :
    Follows f (fun x => P x.1 ∧ ∀ e ∈ x.2.entries, f e.1 = e.2) (r.caching memory) where
  oracle := h.oracle.cached
  state := ⟨h.state, hmemory⟩

theorem refine_caching (h : Follows f P r) (hmemory : ∀ e ∈ memory.entries, f e.1 = e.2) (g : Grammar) :
    ((r.caching memory).refine g).1 = (r.refine g).1 ∧
      SameKnowledge ((r.caching memory).refine g).2 (r.refine g).2 := by
  have heq := refine_follows (h.caching hmemory) g
  rw [asFunction_caching, refine_follows h g, Prod.mk.injEq] at heq
  exact ⟨heq.1.symm, sameKnowledge_of_asFunction_eq heq.2.symm⟩

theorem refineForInput_caching (h : Follows f P r) (hmemory : ∀ e ∈ memory.entries, f e.1 = e.2) (g : Grammar)
    (input : String) (seed : Nat) :
    ((r.caching memory).refineForInput g input seed).1 = (r.refineForInput g input seed).1 ∧
      SameKnowledge ((r.caching memory).refineForInput g input seed).2 (r.refineForInput g input seed).2 := by
  have hone : (r.asFunction f).refineForInput g input seed =
      ((r.refineForInput g input seed).1, (r.refineForInput g input seed).2.asFunction f) :=
    (refineForInput_follows h rfl).1
  have heq : ((r.caching memory).asFunction f).refineForInput g input seed = _ :=
    (refineForInput_follows (h.caching hmemory) rfl).1
  rw [asFunction_caching, hone, Prod.mk.injEq] at heq
  exact ⟨heq.1.symm, sameKnowledge_of_asFunction_eq heq.2.symm⟩

end Refiner

/-! ### Transparency -/

open Oracle in
/-- **A memory cannot be told from the oracle behind it, except that every question is asked once.**  Take any oracle,
one that changes its answers included, in any state, and any calls of it with an empty memory.  There is one verdict
for each input, which answers it in all calls, batches in their order.  The oracle behind the memory is asked for
exactly the different inputs, in the order of their first occurrences, and the verdicts are what it answers then; the
memory holds these, so its size is the number of different inputs.  A record kept by the oracle shows the same
questions, and later calls add to it those of their inputs that did not occur before, once each.  Hence, if the answers
follow a function and the memory has nothing else in it, then sampling and refinement with the memory give the same
results as without, and the refiner knows the same afterwards. -/
theorem caching_transparent (o : Oracle σ) (s : σ) :
    (∀ calls : List Call, ∃ (log : Log) (answer : String → Verdict) (s' : σ) (memory : Memory),
      o.cached.answerCalls calls (s, ∅) = (calls.map fun c => c.inputs.map answer, (s', memory)) ∧
      o.Answers log s s' ∧ (∀ e ∈ log, answer e.1 = e.2) ∧
      log.map Prod.fst = distinct (calls.flatMap Call.inputs) ∧
      memory.entries = log ∧ memory.size = (distinct (calls.flatMap Call.inputs)).length ∧
      (o.recording.cached.answerCalls calls ((s, []), ∅)).2.1.2.reverse = log ∧
      ∀ later : List Call, ∃ log' : Log,
        (o.recording.cached.answerCalls (calls ++ later) ((s, []), ∅)).2.1.2.reverse = log ++ log' ∧
        log'.map Prod.fst = distinct ((later.flatMap Call.inputs).filter fun input =>
          !decide (input ∈ calls.flatMap Call.inputs))) ∧
    ∀ (f : String → Verdict) (P : σ → Prop) (memory : Memory), o.Follows f P → P s →
      (∀ e ∈ memory.entries, f e.1 = e.2) →
      (∀ (g : Grammar) (config : RefinementConfig) (seed : Nat) (cancelled : Bool),
        (sampleAndClassify g o.cached config seed cancelled (s, memory)).1 =
          (sampleAndClassify g o config seed cancelled s).1) ∧
      (∀ (g : Grammar) (config : RefinementConfig),
        (precision g o.cached config (s, memory)).1 = (precision g o config s).1) ∧
      ∀ r : Refiner σ, r.oracle = o → r.oracleState = s → ∀ g : Grammar,
        (((r.caching memory).refine g).1 = (r.refine g).1 ∧
          Refiner.SameKnowledge ((r.caching memory).refine g).2 (r.refine g).2) ∧
        ∀ (input : String) (seed : Nat),
          ((r.caching memory).refineForInput g input seed).1 = (r.refineForInput g input seed).1 ∧
            Refiner.SameKnowledge ((r.caching memory).refineForInput g input seed).2
              (r.refineForInput g input seed).2 := by
  refine ⟨fun calls => ?_, fun f P memory hf hs hmemory => ⟨?_, ?_, ?_⟩⟩
  · obtain ⟨log, h, hverdicts⟩ := asked_answerCalls o calls (s, ∅)
    obtain ⟨recorded, hrecorded, -⟩ := asked_answerCalls o.recording calls ((s, []), ∅)
    have hentries : (o.cached.answerCalls calls (s, ∅)).2.2.entries = log := h.entries
    obtain ⟨hanswers, hrecord⟩ := hrecorded.record
    -- the oracle that keeps a record is asked the same questions from the same state
    obtain rfl : recorded = log :=
      hanswers.log_eq h.answers (hrecorded.questions_of_empty.trans h.questions_of_empty.symm)
    refine ⟨recorded, fun input => ((o.cached.answerCalls calls (s, ∅)).2.2.get? input).getD .inconclusive, _, _,
      Prod.ext ?_ rfl, h.answers, fun e he => ?_, h.questions_of_empty, hentries, ?_, hrecord, fun later => ?_⟩
    · have hread := congrArg (List.map (List.map fun v : Option Verdict => v.getD .inconclusive)) hverdicts
      simpa [Function.comp_def] using hread
    · rw [← hentries] at he
      exact congrArg (fun v : Option Verdict => v.getD .inconclusive) (OrderedMap.get?_eq_some_iff.mpr he)
    · rw [OrderedMap.size, hentries, ← h.questions_of_empty, List.length_map]
    · obtain ⟨log', h', -⟩ :=
        asked_answerCalls o.recording later (o.recording.cached.answerCalls calls ((s, []), ∅)).2
      refine ⟨log', ?_, h'.questions.trans (congrArg distinct (List.filter_congr fun input _ => ?_))⟩
      · rw [answerCalls_append, h'.record.2, hrecord]
        rfl
      · -- after the calls the memory has their inputs and nothing else
        rw [Bool.eq_iff_iff, Bool.not_eq_true', Bool.not_eq_true', Bool.eq_false_iff, ne_eq, hrecorded.contains_iff,
          decide_eq_false_iff_not]
        exact not_congr (or_iff_right Bool.false_ne_true)
  · exact fun g config seed cancelled =>
      (sampleAndClassify_follows hf.cached ⟨hs, hmemory⟩ g config seed cancelled).1.trans
        (sampleAndClassify_follows hf hs g config seed cancelled).1.symm
  · exact fun g config =>
      (precision_follows hf.cached ⟨hs, hmemory⟩ g config).trans (precision_follows hf hs g config).symm
  · rintro r rfl rfl g
    have hr : Refiner.Follows f P r := ⟨hf, hs⟩
    exact ⟨Refiner.refine_caching hr hmemory g, Refiner.refineForInput_caching hr hmemory g⟩

/-- An oracle that accepts what begins with `a`, and counts its questions. -/
def counting : Oracle Nat :=
  ⟨fun input asked => (if input.toList.head? = some 'a' then .accept else .reject, asked + 1)⟩

open Refiner (letterPairs choosing) in
/-- With a memory or without, one of two samples is accepted, and refinement ends in the same way; but with a memory
four questions are asked for it, and without one eight. -/
theorem caching_transparent_counted :
    (sampleAndClassify letterPairs counting.cached choosing.config 0 false (0, ∅)).1 =
      .ok ⟨.ofList ["ab"], .ofList ["bb"], 0⟩ ∧
    (precision letterPairs counting.cached choosing.config (0, ∅)).1 =
      (precision letterPairs counting choosing.config 0).1 ∧
    ((Refiner.new counting.cached (0, ∅) choosing.config false []).refine letterPairs).1 =
      ((Refiner.new counting 0 choosing.config false []).refine letterPairs).1 ∧
    ((Refiner.new counting.cached (0, ∅) choosing.config false []).refine letterPairs).2.oracleState.1 = 4 ∧
    ((Refiner.new counting 0 choosing.config false []).refine letterPairs).2.oracleState = 8 := by
  have hsample : (sampleAndClassify letterPairs counting choosing.config 0 false 0).1 =
      .ok ⟨.ofList ["ab"], .ofList ["bb"], 0⟩ := by decide +kernel
  have hwith : ((Refiner.new counting.cached (0, ∅) choosing.config false []).refine letterPairs).2.oracleState.1 =
      4 := by decide +kernel
  have hwithout : ((Refiner.new counting 0 choosing.config false []).refine letterPairs).2.oracleState = 8 := by
    decide +kernel
  obtain ⟨hsampling, hprecision, hrefine⟩ := (caching_transparent counting 0).2
    (fun input => if input.toList.head? = some 'a' then .accept else .reject) (fun _ => True) ∅
    (Oracle.follows_of_forall fun _ _ => rfl) trivial fun _ he => absurd he List.not_mem_nil
  refine ⟨(hsampling letterPairs choosing.config 0 false).trans hsample, hprecision letterPairs choosing.config, ?_,
    hwith, hwithout⟩
  rw [← Refiner.caching_new]
  exact (hrefine (.new counting 0 choosing.config false []) rfl rfl letterPairs).1.1

open Oracle in
/-- An oracle that accepts the first question and rejects all others keeps to its first answers with a memory. -/
example : ((⟨fun _ asked => (if asked = 0 then .accept else .reject, asked + 1)⟩ : Oracle Nat).cached.answerCalls
    [.one "a", .batch ["b", "a", "b"], .one "a"] (0, ∅)) =
    ([[.accept], [.reject, .accept, .reject], [.accept]], (2, .ofList [("a", .accept), ("b", .reject)])) := by
  decide

end GrammarInference
