/-
GrammarInference/Proofs/Earley/Segment.lean

Segments of the input of a parse.

Design.  A parse speaks about words as pairs of positions.  `segment input a b` is the word between them;
neighbouring segments join (`segment_append`), and a segment that falls into two words does so at a position
between its ends (`segment_eq_append_iff`).  A text stands at a position exactly if the segment of its length
there is the text (`matchesAt_iff`).
-/
import GrammarInference.Earley.Table

namespace GrammarInference

namespace Earley

/-- The characters of the input from position `a` up to position `b`. -/
def segment (input : Array Char) (a b : Nat) : List Char := (input.toList.take b).drop a

variable {input : Array Char}

@[simp] theorem segment_self (input : Array Char) (a : Nat) : segment input a a = [] :=
  List.drop_eq_nil_of_le (List.length_take_le a input.toList)

theorem length_segment {a b : Nat} (hb : b ≤ input.size) : (segment input a b).length = b - a := by
  simp [segment, Nat.min_eq_left hb]

theorem segment_zero_size (input : Array Char) : segment input 0 input.size = input.toList := by
  rw [segment, List.drop_zero]
  exact List.take_of_length_le (Nat.le_of_eq Array.length_toList)

theorem segment_append {a b c : Nat} (hab : a ≤ b) (hbc : b ≤ c) :
    segment input a b ++ segment input b c = segment input a c := by
  have hb : input.toList.take b = (input.toList.take c).take b := by rw [List.take_take, Nat.min_eq_left hbc]
  have hd : (input.toList.take c).drop b = (((input.toList.take c).drop a).drop (b - a)) := by
    rw [List.drop_drop, Nat.add_sub_cancel' hab]
  rw [segment, segment, segment, hb, hd, List.drop_take, List.take_append_drop]

/-- A segment starts with its first `k` characters. -/
theorem segment_eq_take {a b k : Nat} (h : a + k ≤ b) :
    segment input a (a + k) = (segment input a b).take k := by
  have hb : input.toList.take (a + k) = (input.toList.take b).take (a + k) := by
    rw [List.take_take, Nat.min_eq_left h]
  rw [segment, segment, hb, List.drop_take, Nat.add_sub_cancel_left]

/-- A segment falls into two words exactly at the position where the first one ends. -/
theorem segment_eq_append_iff {a b : Nat} {u v : List Char} (hab : a ≤ b) (hb : b ≤ input.size) :
    segment input a b = u ++ v ↔
      a + u.length ≤ b ∧ segment input a (a + u.length) = u ∧ segment input (a + u.length) b = v := by
  constructor
  · intro h
    have hlen : b - a = u.length + v.length := by
      rw [← length_segment hb, h, List.length_append]
    have hle : a + u.length ≤ b := by omega
    have hu : segment input a (a + u.length) = u := by
      rw [segment_eq_take hle, h, List.take_left]
    refine ⟨hle, hu, ?_⟩
    have hjoin : segment input a (a + u.length) ++ segment input (a + u.length) b = segment input a b :=
      segment_append (Nat.le_add_right a u.length) hle
    rw [hu, h] at hjoin
    exact List.append_cancel_left hjoin
  · rintro ⟨hle, hu, hv⟩
    rw [← segment_append (Nat.le_add_right a u.length) hle, hu, hv]

theorem segment_cons {a b : Nat} {c : Char} (hab : a < b) (hc : input[a]? = some c) :
    segment input a b = c :: segment input (a + 1) b := by
  have ha : a < input.size := (Array.getElem?_eq_some_iff.mp hc).1
  have hget : input[a] = c := (Array.getElem?_eq_some_iff.mp hc).2
  have hlt : a < (input.toList.take b).length := by
    rw [List.length_take, Array.length_toList]
    exact Nat.lt_min.mpr ⟨hab, ha⟩
  rw [segment, segment, List.drop_eq_getElem_cons hlt]
  simp [hget]

/-- A text stands at a position, and ends no later than `last`, if the segment of its length is the text. -/
theorem matchesAt_iff {a last : Nat} {w : List Char} (ha : a ≤ last) (hlast : last ≤ input.size) :
    matchesAt input a last w = true ↔ a + w.length ≤ last ∧ segment input a (a + w.length) = w := by
  induction w generalizing a with
  | nil => simp [matchesAt, ha]
  | cons c w ih =>
    simp only [matchesAt, Bool.and_eq_true, decide_eq_true_eq, List.length_cons]
    have hadd : a + (w.length + 1) = a + 1 + w.length := by omega
    rw [hadd]
    constructor
    · rintro ⟨⟨hlt, hc⟩, hw⟩
      obtain ⟨hle, hseg⟩ := (ih hlt).mp hw
      refine ⟨hle, ?_⟩
      rw [segment_cons (by omega) hc, hseg]
    · rintro ⟨hle, hseg⟩
      have hlt : a < last := by omega
      have hget : input[a]? = some input[a] := Array.getElem?_eq_getElem (by omega)
      rw [segment_cons (by omega) hget, List.cons.injEq] at hseg
      refine ⟨⟨hlt, ?_⟩, (ih hlt).mpr ⟨hle, hseg.2⟩⟩
      rw [hget, hseg.1]

end Earley

end GrammarInference
