import Mathlib.Data.List.Forall2
import GrammarDoc.Proofs.Source.Masking

namespace GrammarDoc.Source

open Text (Position)

/-- What masking may make of a character. -/
def Masks (c m : Char) : Prop :=
  m = c ∨ m = blankOut c

variable {cs ms xs ys ns us vs : List Char} {c m : Char}

theorem isSpace_blankOut (c : Char) : isSpace (blankOut c) := by
  unfold blankOut
  split
  next h =>
    rcases h with rfl | rfl <;> decide
  next => rfl

theorem blankOut_ne {d : Char} (h : isSpace d = false) (c : Char) : blankOut c ≠ d := by
  intro he
  have hs := isSpace_blankOut c
  rw [he, h] at hs
  cases hs

theorem isSpace_of_mem_map (h : c ∈ cs.map blankOut) : isSpace c := by
  obtain ⟨d, -, rfl⟩ := List.mem_map.mp h
  exact isSpace_blankOut d

theorem eq_of_masks_break (h : Masks c m) : (m = '\r' ↔ c = '\r') ∧
    (m = '\n' ↔ c = '\n') ∧ (m = '\\' → c = '\\') := by
  rcases h with rfl | rfl
  · exact ⟨.rfl, .rfl, id⟩
  · unfold blankOut
    split
    · exact ⟨.rfl, .rfl, id⟩
    next hn =>
      rw [not_or] at hn
      simp [hn.1, hn.2]

theorem masks_same (cs : List Char) : List.Forall₂ Masks cs cs :=
  List.forall₂_same.mpr fun _ _ => .inl rfl

theorem masks_map_blankOut (cs : List Char) : List.Forall₂ Masks cs (cs.map blankOut) :=
  List.forall₂_map_right_iff.mpr (List.forall₂_same.mpr fun _ _ => .inr rfl)

theorem masks_piece (piece : Piece) : List.Forall₂ Masks piece.text piece.masked := by
  cases piece with
  | block body =>
    exact .cons (.inl rfl) (List.rel_append (masks_map_blankOut body) (masks_same _))
  | _ => exact masks_same _

theorem masks_pieces (ps : List Piece) :
    List.Forall₂ Masks (ps.flatMap Piece.text) (ps.flatMap Piece.masked) := by
  induction ps with
  | nil => exact .nil
  | cons p ps ih =>
    simp only [List.flatMap_cons]
    exact List.rel_append (masks_piece p) ih

/-- Masking works character by character. -/
theorem masks_maskChars (cs : List Char) : List.Forall₂ Masks cs (maskChars cs) := by
  have h := masks_pieces (pieces cs)
  rwa [pieces_text] at h

theorem length_masked (ps : List Piece) :
    (ps.flatMap Piece.masked).length = (ps.flatMap Piece.text).length :=
  (masks_pieces ps).length_eq.symm

theorem step_masks (p : Position) (h : Masks c m) : p.step m = p.step c := by
  rcases h with rfl | rfl
  · rfl
  · unfold blankOut Position.step
    split
    · rfl
    next h =>
      simp only [not_or] at h
      rw [if_neg (by decide), if_neg h.1]

theorem after_masks (p : Position) (h : List.Forall₂ Masks cs ms) : p.after ms = p.after cs := by
  induction h generalizing p with
  | nil => rfl
  | @cons c m cs ms hc _ ih =>
    change (p.step m).after ms = (p.step c).after cs
    rw [step_masks p hc, ih]

theorem exists_append_of_forall₂ {α β : Type} {R : α → β → Prop} {as : List α} {bs ds : List β}
    (h : List.Forall₂ R as (bs ++ ds)) :
    ∃ us vs, as = us ++ vs ∧ List.Forall₂ R us bs ∧ List.Forall₂ R vs ds :=
  ⟨_, _, (List.take_append_drop bs.length as).symm, List.forall₂_take_append _ _ _ h,
    List.forall₂_drop_append _ _ _ h⟩

/-- Where a piece differs from its masked text it is a block, and the place is in its body. -/
theorem exists_body_of_ne {piece : Piece} (ht : piece.text = xs ++ c :: ys)
    (hm : piece.masked = ms ++ m :: ns) (hl : xs.length = ms.length) (hc : m ≠ c) :
    ∃ us vs, piece = .block (us ++ c :: vs) ∧ m = blankOut c ∧ xs = '\x7b' :: us ∧
      ms = '\x7b' :: us.map blankOut ∧ ys = vs ++ ['\x7d'] ∧ ns = vs.map blankOut ++ ['\x7d'] := by
  have hsame : piece.masked ≠ piece.text := by
    intro he
    rw [hm, ht] at he
    exact hc (List.cons.inj (List.append_inj he hl.symm).2).1
  cases piece with
  | block body =>
    change '\x7b' :: (body ++ ['\x7d']) = xs ++ c :: ys at ht
    change '\x7b' :: (body.map blankOut ++ ['\x7d']) = ms ++ m :: ns at hm
    cases xs with
    | nil =>
      cases List.length_eq_zero_iff.mp hl.symm
      cases ht
      cases hm
      exact absurd rfl hc
    | cons d us =>
      obtain ⟨e, ms, rfl⟩ := List.exists_cons_of_length_eq_add_one hl.symm
      obtain ⟨rfl, hbody⟩ := List.cons.inj ht
      obtain ⟨rfl, hblank⟩ := List.cons.inj hm
      have hlen : us.length = ms.length := Nat.succ.inj hl
      rcases List.eq_nil_or_concat' ys with rfl | ⟨vs, d, rfl⟩
      · obtain ⟨rfl, hd⟩ := List.append_inj' hbody rfl
        obtain ⟨-, hd'⟩ := List.append_inj hblank (by simpa using hlen)
        cases hd
        cases hd'
        exact absurd rfl hc
      · have hsplit : body ++ ['\x7d'] = (us ++ c :: vs) ++ [d] := by simpa using hbody
        obtain ⟨rfl, hd⟩ := List.append_inj' hsplit rfl
        cases hd
        simp only [List.map_append, List.map_cons, List.append_assoc, List.cons_append] at hblank
        obtain ⟨rfl, htail⟩ := List.append_inj hblank (by simpa using hlen)
        obtain ⟨rfl, rfl⟩ := List.cons.inj htail
        exact ⟨us, vs, rfl, rfl, rfl, rfl, rfl, rfl⟩
  | _ => exact absurd rfl hsame

theorem exists_append_of_length_le {α : Type} {as bs ds es : List α} (h : as ++ bs = ds ++ es)
    (hl : as.length ≤ ds.length) : ∃ us, ds = as ++ us ∧ bs = us ++ es := by
  rcases List.append_eq_append_iff.mp h with hu | ⟨us, rfl, rfl⟩
  · exact hu
  · have hz : us.length = 0 := by
      simp only [List.length_append] at hl
      omega
    cases List.length_eq_zero_iff.mp hz
    exact ⟨[], by simp, by simp⟩

/-- Where masking changes a text there is a block, and the place is in its body. -/
theorem exists_block_of_ne {ps : List Piece} (ht : ps.flatMap Piece.text = xs ++ c :: ys)
    (hm : ps.flatMap Piece.masked = ms ++ m :: ns) (hl : xs.length = ms.length) (hc : m ≠ c) :
    ∃ earlier us vs later, ps = earlier ++ .block (us ++ c :: vs) :: later ∧ m = blankOut c ∧
      xs = earlier.flatMap Piece.text ++ '\x7b' :: us ∧
      ms = earlier.flatMap Piece.masked ++ '\x7b' :: us.map blankOut ∧
      ys = vs ++ '\x7d' :: later.flatMap Piece.text ∧
      ns = vs.map blankOut ++ '\x7d' :: later.flatMap Piece.masked := by
  induction ps generalizing xs ms with
  | nil => simp at ht
  | cons p ps ih =>
    have hp := (masks_piece p).length_eq
    rw [List.flatMap_cons] at ht hm
    rcases Nat.lt_or_ge xs.length p.text.length with hlt | hge
    · -- The place is in the first piece.
      have ht' : (xs ++ [c]) ++ ys = p.text ++ ps.flatMap Piece.text := by simp [ht]
      have hm' : (ms ++ [m]) ++ ns = p.masked ++ ps.flatMap Piece.masked := by simp [hm]
      obtain ⟨ys', hpt, rfl⟩ := exists_append_of_length_le ht' (by simp; omega)
      obtain ⟨ns', hpm, rfl⟩ := exists_append_of_length_le hm' (by simp; omega)
      obtain ⟨us, vs, rfl, hb, rfl, rfl, rfl, rfl⟩ :=
        exists_body_of_ne (by simpa using hpt) (by simpa using hpm) hl hc
      exact ⟨[], us, vs, ps, rfl, hb, rfl, rfl, by simp, by simp⟩
    · obtain ⟨xs', rfl, hxs⟩ := exists_append_of_length_le ht hge
      obtain ⟨ms', rfl, hms⟩ := exists_append_of_length_le hm (by omega)
      have hl' : xs'.length = ms'.length := by
        simp only [List.length_append] at hl
        omega
      obtain ⟨earlier, us, vs, later, rfl, hb, rfl, rfl, hys, hns⟩ := ih hxs hms hl'
      exact ⟨p :: earlier, us, vs, later, rfl, hb, by simp, by simp, hys, hns⟩

end GrammarDoc.Source
