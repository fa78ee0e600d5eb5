import Mathlib.Data.List.Basic
import GrammarDoc.Text.Position

namespace GrammarDoc.Text

/-- The line of an offset in a text, counted from one. -/
def lineAt (cs : List Char) (offset : Nat) : Nat :=
  1 + (cs.take offset).count '\n'

/-- The column of an offset in a text, counted from one at the last line feed before it. -/
def columnAt (cs : List Char) (offset : Nat) : Nat :=
  1 + ((cs.take offset).reverse.takeWhile (· ≠ '\n')).length

namespace Position

/-- Places are ordered by their lines, and on one line by their columns. -/
instance : LE Position :=
  ⟨fun p q => p.line < q.line ∨ p.line = q.line ∧ p.column ≤ q.column⟩

variable {cs xs ys us vs : List Char} {p : Position}

theorem le_iff {q : Position} :
    p ≤ q ↔ p.line < q.line ∨ p.line = q.line ∧ p.column ≤ q.column :=
  Iff.rfl

theorem le_refl (p : Position) : p ≤ p :=
  .inr ⟨rfl, Nat.le_refl _⟩

theorem after_append (p : Position) (xs ys : List Char) :
    p.after (xs ++ ys) = (p.after xs).after ys :=
  List.foldl_append

theorem after_line (p : Position) (cs : List Char) :
    (p.after cs).line = p.line + cs.count '\n' := by
  induction cs generalizing p with
  | nil => rfl
  | cons c cs ih =>
    have hs : (p.after (c :: cs)).line = (p.step c).line + cs.count '\n' := ih _
    rw [hs, step]
    split
    next hc =>
      subst hc
      rw [List.count_cons_self]
      simp only
      omega
    next hc => rw [List.count_cons_of_ne hc]

theorem after_column (p : Position) (h : '\n' ∉ cs) :
    (p.after cs).column = p.column + cs.length := by
  induction cs generalizing p with
  | nil => rfl
  | cons c cs ih =>
    simp only [List.mem_cons, not_or] at h
    have hs : (p.after (c :: cs)).column = (p.step c).column + cs.length := ih _ h.2
    rw [hs, step, if_neg (Ne.symm h.1), List.length_cons]
    simp only
    omega

/-- The place of an offset in a text. -/
theorem start_after_take (cs : List Char) (offset : Nat) :
    start.after (cs.take offset) = ⟨lineAt cs offset, columnAt cs offset⟩ := by
  have hplace : ∀ rs : List Char, start.after rs.reverse =
      ⟨1 + rs.count '\n', 1 + (rs.takeWhile (· ≠ '\n')).length⟩ := by
    intro rs
    induction rs with
    | nil => rfl
    | cons c rs ih =>
      have hs : start.after (c :: rs).reverse = (start.after rs.reverse).step c := by
        rw [List.reverse_cons, after_append]
        rfl
      rw [hs, ih, step]
      by_cases hc : c = '\n'
      · subst hc
        simp only [↓reduceIte, List.count_cons_self, ne_eq, not_true_eq_false, decide_false,
          Bool.false_eq_true, not_false_eq_true, List.takeWhile_cons_of_neg, List.length_nil]
        rfl
      · rw [if_neg hc, List.count_cons_of_ne hc, List.takeWhile_cons_of_pos (by simpa using hc)]
        rfl
  have h := hplace (cs.take offset).reverse
  rw [List.reverse_reverse, List.count_reverse] at h
  exact h

theorem not_after_le (p : Position) (h : cs ≠ []) : ¬p.after cs ≤ p := by
  rw [le_iff, after_line]
  rintro (hl | ⟨hl, hc⟩)
  · omega
  · have hn : '\n' ∉ cs := List.count_eq_zero.mp (by omega)
    have hp := List.length_pos_iff.mpr h
    rw [after_column p hn] at hc
    omega

theorem le_after (p : Position) (cs : List Char) : p ≤ p.after cs := by
  rw [le_iff, after_line]
  rcases Nat.eq_zero_or_pos (cs.count '\n') with hz | hp
  · rw [after_column p (List.count_eq_zero.mp hz)]
    omega
  · omega

/-- Of two places in one text, the earlier one has less text before it. -/
theorem exists_append_of_after_le (he : xs ++ us = ys ++ vs) (h : p.after xs ≤ p.after ys) :
    ∃ zs, ys = xs ++ zs := by
  rcases List.append_eq_append_iff.mp he with ⟨zs, hz, -⟩ | ⟨zs, rfl, -⟩
  · exact ⟨zs, hz⟩
  · rcases eq_or_ne zs [] with rfl | hz
    · exact ⟨[], by simp⟩
    · rw [after_append] at h
      exact absurd h (not_after_le _ hz)

/-- A place in a text tells what is before it. -/
theorem eq_of_after_eq (he : xs ++ us = ys ++ vs) (h : p.after xs = p.after ys) : xs = ys := by
  have hle : p.after ys ≤ p.after xs := by
    rw [h]
    exact le_refl _
  obtain ⟨zs, rfl⟩ := exists_append_of_after_le he.symm hle
  rcases eq_or_ne zs [] with rfl | hz
  · simp
  · rw [after_append] at h
    refine absurd ?_ (not_after_le (p.after ys) hz)
    rw [h]
    exact le_refl _

end Position

namespace Span

/-- One span lies in another one. -/
def Within (inner outer : Span) : Prop :=
  outer.first ≤ inner.first ∧ inner.last ≤ outer.last

/-- The span of a stretch of text, given the text before it. -/
def following (before stretch : List Char) : Span :=
  ⟨Position.start.after before, Position.start.after (before ++ stretch)⟩

end Span
end GrammarDoc.Text
