/-
GrammarInference/Proofs/Trace/Work.lean

Giving up a read and filling again leaves less work, or changes nothing.

Design.  Two rounds are compared after positions without reads were filled.  Between them one position gives up its
newest read, and if that was its last one it takes over the read before it (`Gives`).  The number of recorded reads
that are left is no measure, since a position can give up a read that it took over.  But then it takes over another
one, which agrees with the read before it, and only the next position may disagree now.  So a recorded read that is
left counts as much as all positions, and a position that disagrees with the one before it counts as much as the
positions from it on (`work`).
-/
import GrammarInference.Proofs.Trace.Repair

namespace GrammarInference

namespace Repair

variable {s f f' : Repair} {l l' pre post : List (List Candidate)} {c : Candidate} {cs : List Candidate} {p : Nat}

/-! ### Giving up and taking over -/

/-- What a position without reads takes over. -/
def takeOver (c : Candidate) : Candidate := ⟨c.order.next, c.context⟩

theorem lt_takeOver (c : Candidate) : c.order < (takeOver c).order := .inr ⟨rfl, Nat.lt_succ_self _⟩

/-- Position `p` gives up its newest read; without another one it takes over the read before it. -/
inductive Gives (l : List (List Candidate)) (p : Nat) : List (List Candidate) → Prop
  /-- It has an older read. -/
  | older {pre post : List (List Candidate)} {c c' : Candidate} {cs : List Candidate} :
      p = pre.length → l = pre ++ (c :: c' :: cs) :: post → Gives l p (pre ++ (c' :: cs) :: post)
  /-- It takes over the read of the position before it. -/
  | again {pre post : List (List Candidate)} {b c : Candidate} {bs : List Candidate} : p = pre.length + 1 →
      l = pre ++ (b :: bs) :: [c] :: post → Gives l p (pre ++ (b :: bs) :: [takeOver b] :: post)

theorem Filled.ne_nil (h : s.Filled) : ∀ cs ∈ s.candidates, cs ≠ [] := by
  intro cs hcs
  obtain ⟨i, hi⟩ := List.mem_iff_getElem?.mp hcs
  exact h i cs hi

/-- Nothing is taken over where every position has a read. -/
theorem inherit_of_ne_nil (h : ∀ cs ∈ l, cs ≠ []) (b : Option Candidate) (p : Nat) : inherit b p l = some (l, []) := by
  induction l generalizing b p with
  | nil => rfl
  | cons cs rest ih =>
    obtain ⟨hcs, hrest⟩ := List.forall_mem_cons.mp h
    obtain ⟨c, cs, rfl⟩ := List.exists_cons_of_ne_nil hcs
    rw [inherit, ih hrest]
    rfl

/-- The one position without a read takes over the read before it. -/
theorem inherit_of_single_nil (hpre : ∀ cs ∈ pre, cs ≠ []) (hpost : ∀ cs ∈ post, cs ≠ []) (b : Option Candidate)
    (p : Nat) (c : Candidate) (cs : List Candidate) : ∃ ps,
      inherit b p (pre ++ (c :: cs) :: [] :: post) = some (pre ++ (c :: cs) :: [takeOver c] :: post, ps) := by
  induction pre generalizing b p with
  | nil => exact ⟨[p + 1], by rw [List.nil_append, inherit, inherit, inherit_of_ne_nil hpost]; rfl⟩
  | cons ds pre ih =>
    obtain ⟨hds, hrest⟩ := List.forall_mem_cons.mp hpre
    obtain ⟨d, ds, rfl⟩ := List.exists_cons_of_ne_nil hds
    obtain ⟨ps, hps⟩ := ih hrest (some d) (p + 1)
    exact ⟨ps, by rw [List.cons_append, inherit, hps]; rfl⟩

/-- Giving up the read of a position that can spare it, and filling again. -/
theorem Filled.gives_of_fill_pop (hf : f.Filled) (hp : p < f.candidates.length)
    (hspare : f.CanSpare p) (h : (f.pop p).fill = some f') :
    Gives f.candidates p f'.candidates := by
  have hne := hf.ne_nil
  rw [Repair.fill, Option.map_eq_some_iff] at h
  obtain ⟨⟨l', ps⟩, hinherit, rfl⟩ := h
  show Gives f.candidates p l'
  obtain ⟨pre, cs, post, hl, hlength, hmodify⟩ := List.exists_of_modify List.tail hp
  rw [Repair.pop] at hinherit
  simp only at hinherit
  rw [hmodify] at hinherit
  rw [CanSpare, hl] at hspare
  rw [hl] at hne ⊢
  obtain ⟨hpre, hcs, hpost⟩ : (∀ ds ∈ pre, ds ≠ []) ∧ cs ≠ [] ∧ ∀ ds ∈ post, ds ≠ [] := by
    simpa only [List.forall_mem_append, List.forall_mem_cons] using hne
  obtain ⟨c, cs, rfl⟩ := List.exists_cons_of_ne_nil hcs
  rw [← hlength, List.getElem?_append_right (Nat.le_refl _), Nat.sub_self] at hspare
  cases cs with
  | cons c' cs =>
    have hall : ∀ ds ∈ pre ++ (c' :: cs) :: post, ds ≠ [] := by
      simpa only [List.forall_mem_append, List.forall_mem_cons] using ⟨hpre, List.cons_ne_nil c' cs, hpost⟩
    rw [List.tail_cons, inherit_of_ne_nil hall] at hinherit
    cases hinherit
    exact .older hlength.symm rfl
  | nil =>
    -- the only read of a position is given up only behind another position
    rcases List.eq_nil_or_concat pre with rfl | ⟨init, bs, rfl⟩
    · simp at hspare
    · rw [List.concat_eq_append] at hlength hpre hinherit ⊢
      obtain ⟨hinit, hbs⟩ := List.forall_mem_append.mp hpre
      obtain ⟨b, bs, rfl⟩ := List.exists_cons_of_ne_nil (hbs bs (List.mem_singleton_self _))
      rw [List.append_assoc] at hinherit ⊢
      obtain ⟨ps', hps'⟩ := inherit_of_single_nil hinit hpost none 0 b bs
      rw [List.singleton_append, List.tail_cons, hps'] at hinherit
      cases hinherit
      exact .again (by rw [← hlength, List.length_append]; rfl) rfl

/-! ### The work that is left -/

/-- Was the read recorded for its own position? -/
def isRecorded (c : Candidate) : Bool := decide (c.order.offset = 0)

/-- The number of recorded reads that are left. -/
def recordedCount (l : List (List Candidate)) : Nat := l.flatten.countP isRecorded

/-- The read was taken over, but not from this one. -/
def isStale : Option Candidate → List Candidate → Bool
  | some b, c :: _ => decide (c.order.offset ≠ 0 ∧ c ≠ takeOver b)
  | _, _ => false

/-- For every position that disagrees with the one before it, the number of the positions from it on. -/
def lag : Option Candidate → List (List Candidate) → Nat
  | _, [] => 0
  | b, cs :: rest => (if isStale b cs then rest.length + 1 else 0) + lag cs.head? rest

/-- A recorded read that is left counts as much as all positions. -/
def work (l : List (List Candidate)) : Nat := recordedCount l * l.length + lag none l

/-- Only a single read may have been taken over. -/
def Shaped (l : List (List Candidate)) : Prop := ∀ cs ∈ l, cs.length ≤ 1 ∨ ∀ c ∈ cs, c.order.offset = 0

/-- Another read before them changes only whether the first position agrees with it. -/
theorem lag_le_add_length (b b' : Option Candidate) (l : List (List Candidate)) : lag b l ≤ lag b' l + l.length := by
  cases l with
  | nil => exact Nat.le_refl _
  | cons cs rest =>
    rw [lag, lag, List.length_cons]
    split <;> split <;> omega

/-- The positions before a change count the same. -/
theorem lag_append_le {k m : Nat} (hlength : l.length = l'.length) (h : ∀ b, lag b l + k ≤ lag b l' + m)
    (pre : List (List Candidate)) (b : Option Candidate) : lag b (pre ++ l) + k ≤ lag b (pre ++ l') + m := by
  induction pre generalizing b with
  | nil => exact h b
  | cons cs pre ih =>
    rw [List.cons_append, List.cons_append, lag, lag, List.length_append, List.length_append, hlength]
    have hrest := ih cs.head?
    omega

theorem isStale_recorded (b : Option Candidate) (h : c.order.offset = 0) : isStale b (c :: cs) = false := by
  cases b with
  | none => rfl
  | some b => exact decide_eq_false fun hstale => hstale.1 h

theorem isStale_takeOver (c : Candidate) : isStale (some c) [takeOver c] = false :=
  decide_eq_false fun hstale => hstale.2 rfl

theorem recordedCount_append (l l' : List (List Candidate)) :
    recordedCount (l ++ l') = recordedCount l + recordedCount l' := by
  rw [recordedCount, List.flatten_append, List.countP_append]
  rfl

theorem recordedCount_cons (cs : List Candidate) (l : List (List Candidate)) :
    recordedCount (cs :: l) = cs.countP isRecorded + recordedCount l := by
  rw [recordedCount, List.flatten_cons, List.countP_append]
  rfl

theorem countP_isRecorded_cons (h : c.order.offset = 0) (cs : List Candidate) :
    (c :: cs).countP isRecorded = cs.countP isRecorded + 1 :=
  List.countP_cons_of_pos (p := isRecorded) (decide_eq_true h)

theorem countP_isRecorded_singleton (h : c.order.offset ≠ 0) : [c].countP isRecorded = 0 :=
  List.countP_cons_of_neg (p := isRecorded) (Bool.eq_false_iff.mp (decide_eq_false h))

theorem offset_takeOver_ne_zero (c : Candidate) : (takeOver c).order.offset ≠ 0 := Nat.succ_ne_zero _

theorem Gives.length_eq (h : Gives l p l') : l'.length = l.length := by
  cases h with
  | older hp hl => rw [hl, List.length_append, List.length_append]; rfl
  | again hp hl => rw [hl, List.length_append, List.length_append]; rfl

theorem Gives.shaped (h : Gives l p l') (hs : Shaped l) : Shaped l' := by
  cases h with
  | @older pre post c c' cs hp hl =>
    rw [hl] at hs
    simp only [Shaped, List.forall_mem_append, List.forall_mem_cons] at hs ⊢
    obtain ⟨hpre, hcs, hpost⟩ := hs
    refine ⟨hpre, .inr ?_, hpost⟩
    rcases hcs with hone | ⟨-, hrest⟩
    · simp at hone
    · exact hrest
  | @again pre post b c bs hp hl =>
    rw [hl] at hs
    simp only [Shaped, List.forall_mem_append, List.forall_mem_cons] at hs ⊢
    exact ⟨hs.1, hs.2.1, .inl (Nat.le_refl 1), hs.2.2.2⟩

/-- One recorded read less makes up for a disagreement behind it. -/
theorem work_lt_of_recordedCount {k : Nat} (hlength : l'.length = l.length) (hk : k < l.length)
    (hrecorded : recordedCount l' + 1 = recordedCount l) (hlag : lag none l' ≤ lag none l + k) : work l' < work l := by
  rw [work, work, ← hrecorded, hlength, Nat.add_mul, Nat.one_mul]
  omega

/-- **A round makes progress.**  Either a position gives up the very read that it then takes over, or there is less
work left. -/
theorem Gives.eq_or_work_lt (h : Gives l p l') (hs : Shaped l) :
    (∃ pre post b bs, p = pre.length + 1 ∧ l = pre ++ (b :: bs) :: [takeOver b] :: post) ∨ work l' < work l := by
  have hlength := h.length_eq
  cases h with
  | @older pre post c c' cs hp hl =>
    right
    rw [hl] at hs
    simp only [Shaped, List.forall_mem_append, List.forall_mem_cons] at hs
    obtain ⟨-, hone | ⟨hc, hc', -⟩, -⟩ := hs
    · simp at hone
    refine work_lt_of_recordedCount (k := post.length) hlength ?_ ?_ ?_
    · rw [hl, List.length_append, List.length_cons]
      omega
    · rw [hl, recordedCount_append, recordedCount_append, recordedCount_cons, recordedCount_cons,
        countP_isRecorded_cons hc]
      omega
    · rw [hl]
      refine lag_append_le (k := 0) (by simp) (fun b => ?_) pre none
      have hpost := lag_le_add_length (some c') (some c) post
      rw [lag, lag, isStale_recorded b hc, isStale_recorded b hc']
      simpa using hpost
  | @again pre post b c bs hp hl =>
    by_cases hsame : c = takeOver b
    · exact .inl ⟨pre, post, b, bs, hp, hsame ▸ hl⟩
    right
    have hpost := lag_le_add_length (some (takeOver b)) (some c) post
    by_cases hc : c.order.offset = 0
    · -- a recorded read is given up
      refine work_lt_of_recordedCount (k := post.length) hlength ?_ ?_ ?_
      · rw [hl, List.length_append, List.length_cons, List.length_cons]
        omega
      · rw [hl, recordedCount_append, recordedCount_append, recordedCount_cons, recordedCount_cons,
          recordedCount_cons, recordedCount_cons, countP_isRecorded_cons hc,
          countP_isRecorded_singleton (offset_takeOver_ne_zero b), List.countP_nil]
        omega
      · rw [hl]
        refine lag_append_le (k := 0) (by simp) (fun a => ?_) pre none
        simp only [lag, List.head?_cons, isStale_takeOver, isStale_recorded (some b) hc, List.length_cons]
        omega
    · -- a read is given up that disagrees with the one before it
      have hrecorded : recordedCount (pre ++ (b :: bs) :: [takeOver b] :: post) = recordedCount l := by
        rw [hl, recordedCount_append, recordedCount_append, recordedCount_cons, recordedCount_cons,
          recordedCount_cons, recordedCount_cons, countP_isRecorded_singleton hc,
          countP_isRecorded_singleton (offset_takeOver_ne_zero b)]
      rw [work, work, hrecorded, hlength]
      refine Nat.add_lt_add_left ?_ _
      rw [hl]
      refine lag_append_le (k := 1) (m := 0) (by simp) (fun a => ?_) pre none
      have hstale : isStale (some b) [c] = true := decide_eq_true ⟨hc, hsame⟩
      simp only [lag, List.head?_cons, isStale_takeOver, hstale, List.length_cons, if_true, if_false,
        Bool.false_eq_true]
      omega

end Repair

end GrammarInference
