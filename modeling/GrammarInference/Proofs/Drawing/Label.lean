/-
GrammarInference/Proofs/Drawing/Label.lean

The text of a drawing can be read: labels end where they should, and a statement is a row.

Design.  The text of a label consists of characters that stand for themselves and of escapes, each of them a backslash
with the one character behind it (`Quotable`).  A reader of quoted texts has to know only whether a backslash is open
(`quotedTexts`); such a text leaves none open and shows it no closing quote.  The other parts of a statement have no
quotes and end no rows.  So what the reader finds in a drawing is its labels, and nothing but the end of a statement
ends a row.
-/
import GrammarInference.Drawing.Dot
import GrammarInference.Text.Natural

namespace GrammarInference

namespace Dot

variable {l l' : List Char} {config : DotConfig}

/-! ### Texts between quotes -/

/-- Between quotes, the text has no quote that is not escaped, no backslash that escapes nothing, and no control
character. -/
inductive Quotable : List Char → Prop
  | nil : Quotable []
  | plain {c : Char} {l : List Char} : c ≠ quoteMark → c ≠ backslash → isControl c = false → Quotable l →
      Quotable (c :: l)
  | escape {c : Char} {l : List Char} : c = quoteMark ∨ c = backslash ∨ c = 'n' → Quotable l →
      Quotable (backslash :: c :: l)

theorem Quotable.append (h : Quotable l) (h' : Quotable l') : Quotable (l ++ l') := by
  induction h with
  | nil => exact h'
  | plain hquote hslash hcontrol _ ih => exact .plain hquote hslash hcontrol ih
  | escape hc _ ih => exact .escape hc ih

theorem quotable_of_forall (h : ∀ c ∈ l, c ≠ quoteMark ∧ c ≠ backslash ∧ isControl c = false) : Quotable l := by
  induction l with
  | nil => exact .nil
  | cons c l ih =>
    obtain ⟨hquote, hslash, hcontrol⟩ := h c List.mem_cons_self
    exact .plain hquote hslash hcontrol (ih fun d hd => h d (List.mem_cons_of_mem c hd))

theorem Quotable.isControl_eq_false (h : Quotable l) : ∀ c ∈ l, isControl c = false := by
  induction h with
  | nil => exact fun c hc => absurd hc List.not_mem_nil
  | plain _ _ hcontrol _ ih => exact List.forall_mem_cons.mpr ⟨hcontrol, ih⟩
  | escape hc _ ih =>
    refine List.forall_mem_cons.mpr ⟨rfl, List.forall_mem_cons.mpr ⟨?_, ih⟩⟩
    rcases hc with rfl | rfl | rfl <;> rfl

/-! ### Escaping -/

theorem mem_hexDigits {n : Nat} {c : Char} (h : c ∈ hexDigits n) : ∃ k < 16, c = Nat.digitChar k := by
  induction n using Nat.strongRecOn with
  | ind n ih =>
    rw [hexDigits] at h
    by_cases hn : n < 16
    · rw [Nat.toDigits_of_lt_base hn] at h
      exact ⟨n, hn, List.mem_singleton.mp h⟩
    · rw [Nat.toDigits_of_base_le (by decide) (Nat.le_of_not_lt hn), List.mem_append] at h
      rcases h with h | h
      · exact ih (n / 16) (by omega) h
      · exact ⟨n % 16, Nat.mod_lt n (by decide), List.mem_singleton.mp h⟩

theorem plain_digitChar : ∀ k < 16, Nat.digitChar k ≠ quoteMark ∧ Nat.digitChar k ≠ backslash ∧
    isControl (Nat.digitChar k) = false := by
  decide

/-- The code of a character is written with characters that stand for themselves. -/
theorem quotable_code (n : Nat) : Quotable (padZeros 2 (hexDigits n)) := by
  refine quotable_of_forall fun c hc => ?_
  rcases List.mem_append.mp hc with hc | hc
  · obtain rfl := List.eq_of_mem_replicate hc
    exact plain_digitChar 0 (by decide)
  · obtain ⟨k, hk, rfl⟩ := mem_hexDigits hc
    exact plain_digitChar k hk

theorem quotable_escapeChar (c : Char) : Quotable (escapeChar c) := by
  rw [escapeChar]
  split
  · exact .escape (.inl rfl) .nil
  · rename_i hquote
    split
    · exact .escape (.inr (.inl rfl)) .nil
    · rename_i hslash
      split
      · exact .escape (.inr (.inr rfl)) .nil
      · split
        · -- an escaped backslash, behind which the code stands for itself
          exact .escape (.inr (.inl rfl)) (.plain (by decide) (by decide) rfl (quotable_code c.toNat))
        · rename_i hcontrol
          exact .plain hquote hslash (Bool.eq_false_iff.mpr hcontrol) .nil

/-- Whatever the string is, its escaped form can stand between quotes. -/
theorem quotable_escape (s : String) : Quotable (escape s).toList := by
  rw [escape, String.toList_ofList]
  induction s.toList with
  | nil => exact .nil
  | cons c l ih => exact (quotable_escapeChar c).append ih

/-! ### Reading -/

/-- Where a reader of quoted texts is. -/
inductive Reader where
  /-- Between two quoted texts. -/
  | outside
  /-- In a quoted text, of which it has read some, last character first, behind a backslash that is open or not. -/
  | inside (isOpen : Bool) (read : List Char)

/-- The quoted texts in a text, as they stand between their quotes. -/
def quotedTexts : Reader → List Char → List (List Char)
  | _, [] => []
  | .outside, c :: rest => quotedTexts (if c = quoteMark then .inside false [] else .outside) rest
  | .inside isOpen read, c :: rest =>
    if !isOpen && decide (c = quoteMark) then read.reverse :: quotedTexts .outside rest
    else quotedTexts (.inside (!isOpen && decide (c = backslash)) (c :: read)) rest

/-- Without quotes, nothing is found. -/
theorem quotedTexts_outside (h : quoteMark ∉ l) (rest : List Char) :
    quotedTexts .outside (l ++ rest) = quotedTexts .outside rest := by
  induction l with
  | nil => rfl
  | cons c l ih =>
    obtain ⟨hc, hl⟩ := not_or.mp (mt List.mem_cons.mpr h)
    rw [List.cons_append, quotedTexts, if_neg (Ne.symm hc), ih hl]

/-- The reader takes a quotable text up to the closing quote. -/
theorem Quotable.quotedTexts_inside (h : Quotable l) (read rest : List Char) :
    quotedTexts (.inside false read) (l ++ quoteMark :: rest) = (read.reverse ++ l) :: quotedTexts .outside rest := by
  induction h generalizing read with
  | nil => rw [List.nil_append, quotedTexts, if_pos (by decide), List.append_nil]
  | @plain c l hquote hslash _ _ ih =>
    have hno : (!false && decide (c = quoteMark)) ≠ true := by simpa using hquote
    have hclosed : (!false && decide (c = backslash)) = false := by simpa using hslash
    rw [List.cons_append, quotedTexts, if_neg hno, hclosed, ih, List.reverse_cons, List.append_assoc]
    rfl
  | @escape c l _ _ ih =>
    -- the backslash is open for one character, which does not close the text
    have hno : (!false && decide (backslash = quoteMark)) ≠ true := by decide
    have hopen : (!false && decide (backslash = backslash)) = true := rfl
    rw [List.cons_append, List.cons_append, quotedTexts, if_neg hno, hopen, quotedTexts,
      if_neg (by rw [Bool.not_true, Bool.false_and]; exact Bool.false_ne_true), Bool.not_true, Bool.false_and, ih,
      List.reverse_cons, List.reverse_cons, List.append_assoc, List.append_assoc]
    rfl

/-! ### Statements -/

/-- The text has no quotes and no ends of rows. -/
def IsPlainText (l : List Char) : Prop := quoteMark ∉ l ∧ '\n' ∉ l

instance (l : List Char) : Decidable (IsPlainText l) := inferInstanceAs (Decidable (_ ∧ _))

theorem IsPlainText.append (h : IsPlainText l) (h' : IsPlainText l') : IsPlainText (l ++ l') :=
  ⟨List.not_mem_append h.1 h'.1, List.not_mem_append h.2 h'.2⟩

theorem isPlainText_nodeName (n : Nat) : IsPlainText (nodeName n).toList := by
  rw [nodeName, String.toList_append]
  exact IsPlainText.append (by decide) ⟨not_mem_toString (by decide) n, not_mem_toString (by decide) n⟩

/-- Different nodes have different names. -/
theorem nodeName_injective : Function.Injective nodeName := by
  intro m n h
  rw [nodeName, nodeName, ← String.toList_inj, String.toList_append, String.toList_append,
    List.append_cancel_left_eq, String.toList_inj] at h
  exact eq_of_toString_eq h

/-- The settings have no quotes and no ends of rows in them. -/
def IsPlain (config : DotConfig) : Prop :=
  ∀ s ∈ [config.nodeShape, config.terminalShape, config.loopEdgeStyle], IsPlainText s.toList

/-- Is the statement for a node? -/
def Line.isNode : Line → Bool
  | .node _ _ _ => true
  | .edge _ _ _ => false

/-- Is the statement for an edge? -/
def Line.isEdge (line : Line) : Bool := !line.isNode

/-- The text between the quotes of a statement. -/
def Line.label? : Line → Option String
  | .node _ _ label => some label
  | .edge _ _ _ => none

/-- Label, shape and style of the statement are such as a drawing has. -/
inductive Line.Fits (config : DotConfig) : Line → Prop
  | inner (n : Nat) {label : String} : Quotable label.toList → Fits config (.node n none label)
  | terminal (n : Nat) {label : String} : Quotable label.toList →
      Fits config (.node n (some config.terminalShape) label)
  | edge (m n : Nat) : Fits config (.edge m n none)
  | styled (m n : Nat) : Fits config (.edge m n (some config.loopEdgeStyle))

/-- The parts of a statement: a plain text, the quoted label if there is one, and the end of the row. -/
theorem Line.Fits.toList_render {line : Line} (h : line.Fits config) (hconfig : IsPlain config) :
    (∃ before, IsPlainText before ∧ line.render.toList = before ++ ['\n'] ∧ line.label? = none) ∨
      ∃ before label, IsPlainText before ∧ Quotable label.toList ∧ line.label? = some label ∧
        line.render.toList = before ++ quoteMark :: (label.toList ++ quoteMark :: [']', ';', '\n']) := by
  cases h with
  | @inner n label hlabel =>
    refine .inr ⟨(nodeName n).toList ++ " [label=".toList, label, (isPlainText_nodeName n).append (by decide), hlabel,
      rfl, ?_⟩
    simp only [Line.render, String.toList_append, List.append_assoc]
    rfl
  | @terminal n label hlabel =>
    have hshape : IsPlainText config.terminalShape.toList := hconfig _ (by simp)
    refine .inr ⟨(nodeName n).toList ++ (" [shape=".toList ++ (config.terminalShape.toList ++ ", label=".toList)), label,
      (isPlainText_nodeName n).append (.append (by decide) (hshape.append (by decide))), hlabel, rfl, ?_⟩
    simp only [Line.render, String.toList_append, List.append_assoc]
    rfl
  | edge m n =>
    refine .inl ⟨(nodeName m).toList ++ (" -> ".toList ++ ((nodeName n).toList ++ ";".toList)),
      (isPlainText_nodeName m).append (.append (by decide) ((isPlainText_nodeName n).append (by decide))), ?_, rfl⟩
    simp only [Line.render, String.toList_append, List.append_assoc]
    rfl
  | styled m n =>
    have hstyle : IsPlainText config.loopEdgeStyle.toList := hconfig _ (by simp)
    refine .inl ⟨(nodeName m).toList ++ (" -> ".toList ++ ((nodeName n).toList ++ (" [style=".toList ++
      (config.loopEdgeStyle.toList ++ "];".toList)))), (isPlainText_nodeName m).append (.append (by decide)
        ((isPlainText_nodeName n).append (.append (by decide) (hstyle.append (by decide))))), ?_, rfl⟩
    simp only [Line.render, String.toList_append, List.append_assoc]
    rfl

/-- A statement is one row. -/
theorem Line.Fits.row {line : Line} (h : line.Fits config) (hconfig : IsPlain config) :
    ∃ row, line.render.toList = row ++ ['\n'] ∧ '\n' ∉ row := by
  rcases h.toList_render hconfig with ⟨before, hbefore, heq, -⟩ | ⟨before, label, hbefore, hlabel, -, heq⟩
  · exact ⟨before, heq, hbefore.2⟩
  · refine ⟨before ++ quoteMark :: (label.toList ++ quoteMark :: [']', ';']), ?_, List.not_mem_append hbefore.2 ?_⟩
    · rw [heq]
      simp
    · have hno : '\n' ∉ label.toList := fun hmem => absurd (hlabel.isControl_eq_false '\n' hmem) (by decide)
      exact List.not_mem_cons_of_ne_of_not_mem (by decide) (List.not_mem_append hno (by decide))

/-- A reader finds the label of a statement and goes on behind it. -/
theorem Line.Fits.quotedTexts {line : Line} (h : line.Fits config) (hconfig : IsPlain config) (rest : List Char) :
    Dot.quotedTexts .outside (line.render.toList ++ rest) =
      (line.label?.map String.toList).toList ++ Dot.quotedTexts .outside rest := by
  rcases h.toList_render hconfig with ⟨before, hbefore, heq, hnone⟩ | ⟨before, label, hbefore, hlabel, hsome, heq⟩
  · rw [heq, hnone, List.append_assoc, quotedTexts_outside hbefore.1]
    exact quotedTexts_outside (by decide) rest
  · rw [heq, hsome, List.append_assoc, quotedTexts_outside hbefore.1, List.cons_append, Dot.quotedTexts, if_pos rfl,
      List.append_assoc, List.cons_append, hlabel.quotedTexts_inside]
    exact congrArg (label.toList :: ·) (quotedTexts_outside (by decide) rest)

/-! ### Drawings -/

/-- The text of a drawing with its statements. -/
structure Reads (config : DotConfig) (text : String) (lines : List Line) : Prop where
  /-- The statements are written one after the other. -/
  text_eq : text = render config lines
  /-- Their labels can stand between quotes. -/
  labels : ∀ n shape label, .node n shape label ∈ lines → Quotable label.toList
  /-- A reader finds these labels. -/
  quoted : IsPlain config → quotedTexts .outside text.toList = (lines.filterMap Line.label?).map String.toList
  /-- Every statement is one row. -/
  rows : IsPlain config → ∀ line ∈ lines, ∃ row, line.render.toList = row ++ ['\n'] ∧ '\n' ∉ row

theorem quotedTexts_flatMap_render {lines : List Line} (h : ∀ line ∈ lines, line.Fits config)
    (hconfig : IsPlain config) (rest : List Char) :
    quotedTexts .outside (lines.flatMap (fun line => line.render.toList) ++ rest) =
      (lines.filterMap Line.label?).map String.toList ++ quotedTexts .outside rest := by
  induction lines with
  | nil => rfl
  | cons line lines ih =>
    obtain ⟨hline, hlines⟩ := List.forall_mem_cons.mp h
    rw [List.flatMap_cons, List.append_assoc, hline.quotedTexts hconfig, ih hlines, ← List.append_assoc]
    congr 1
    rcases hlabel : line.label? with - | label
    · rw [List.filterMap_cons_none hlabel]
      rfl
    · rw [List.filterMap_cons_some hlabel]
      rfl

theorem reads_render {lines : List Line} (h : ∀ line ∈ lines, line.Fits config) :
    Reads config (render config lines) lines where
  text_eq := rfl
  labels n shape label hmem := by
    cases h _ hmem with
    | inner _ hlabel => exact hlabel
    | terminal _ hlabel => exact hlabel
  quoted hconfig := by
    have hshape : IsPlainText config.nodeShape.toList := hconfig _ (by simp)
    have hfront : quoteMark ∉ "digraph \x7b\nnode [shape=".toList ++ (config.nodeShape.toList ++ "];\n".toList) :=
      List.not_mem_append (by decide) (List.not_mem_append hshape.1 (by decide))
    have htext : (render config lines).toList = ("digraph \x7b\nnode [shape=".toList ++ (config.nodeShape.toList ++
        "];\n".toList)) ++ (lines.flatMap (fun line => line.render.toList) ++ "\x7d\n".toList) := by
      unfold render
      simp only [String.toList_append, String.toList_join, List.flatMap_map, List.append_assoc]
    have hback : quotedTexts .outside "\x7d\n".toList = [] := rfl
    rw [htext, quotedTexts_outside hfront, quotedTexts_flatMap_render h hconfig, hback, List.append_nil]
  rows hconfig line hline := (h line hline).row hconfig

/-- The default settings are plain. -/
example : IsPlain {} := by
  unfold IsPlain
  decide

end Dot

end GrammarInference
