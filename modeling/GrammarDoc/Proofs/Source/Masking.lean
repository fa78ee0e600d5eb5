import GrammarDoc.Proofs.Source.Lexemes
import GrammarDoc.Source.Masking

namespace GrammarDoc.Source

variable {cs rest body after : List Char} {c : Char}

theorem pieces_nil : pieces [] = [] := by
  rw [pieces]
  rfl

theorem pieces_comment {p : List Char × List Char} (h : comment? cs = some p) :
    pieces cs = .comment p.1 :: pieces p.2 := by
  rw [pieces]
  split
  next text rest hc =>
    cases hc.symm.trans h
    rfl
  next hn => cases hn.symm.trans h

theorem comment?_eq_none (hc : c ≠ '/') : comment? (c :: rest) = none := by
  unfold comment?
  split <;> simp_all

theorem pieces_literal :
    pieces ('\'' :: rest) = .literal ('\'' :: (quotedRest '\'' rest).1) ::
      pieces (quotedRest '\'' rest).2 := by
  rw [pieces]
  split
  next h => simp [comment?_eq_none] at h
  next => simp

theorem pieces_bracket :
    pieces ('[' :: rest) = .bracket ('[' :: (bracketRest rest).1) ::
      pieces (bracketRest rest).2 := by
  rw [pieces]
  split
  next h => simp [comment?_eq_none] at h
  next => simp

theorem pieces_block (h : blockBody? 0 rest = some (body, after)) :
    pieces ('\x7b' :: rest) = .block body :: pieces after := by
  rw [pieces]
  split
  next h => simp [comment?_eq_none] at h
  next =>
    simp only [Char.reduceEq, ↓reduceIte]
    split
    next hn => cases hn.symm.trans h
    next body' after' hs =>
      cases hs.symm.trans h
      rfl

theorem pieces_unclosed (h : blockBody? 0 rest = none) :
    pieces ('\x7b' :: rest) = [.unclosed ('\x7b' :: rest)] := by
  rw [pieces]
  split
  next h => simp [comment?_eq_none] at h
  next =>
    simp only [Char.reduceEq, ↓reduceIte]
    split
    next => rfl
    next hs => cases hs.symm.trans h

theorem pieces_char (h : comment? (c :: rest) = none) (hc : c ∉ ['\'', '[', '\x7b']) :
    pieces (c :: rest) = .char c :: pieces rest := by
  simp only [List.mem_cons, List.not_mem_nil, or_false, not_or] at hc
  rw [pieces]
  split
  next hs => cases hs.symm.trans h
  next => simp [hc]

/-- The first piece of a text and the text after it. -/
inductive Cuts : List Char → Piece → List Char → Prop
  | comment {cs : List Char} {p : List Char × List Char} :
      comment? cs = some p → Cuts cs (.comment p.1) p.2
  | literal {rest : List Char} :
      Cuts ('\'' :: rest) (.literal ('\'' :: (quotedRest '\'' rest).1)) (quotedRest '\'' rest).2
  | bracket {rest : List Char} :
      Cuts ('[' :: rest) (.bracket ('[' :: (bracketRest rest).1)) (bracketRest rest).2
  | block {rest body after : List Char} :
      blockBody? 0 rest = some (body, after) → Cuts ('\x7b' :: rest) (.block body) after
  | unclosed {rest : List Char} :
      blockBody? 0 rest = none → Cuts ('\x7b' :: rest) (.unclosed ('\x7b' :: rest)) []
  | char {c : Char} {rest : List Char} :
      comment? (c :: rest) = none → c ∉ ['\'', '[', '\x7b'] → Cuts (c :: rest) (.char c) rest

theorem Cuts.pieces_eq {piece : Piece} (h : Cuts cs piece rest) :
    pieces cs = piece :: pieces rest := by
  cases h with
  | comment hc => exact pieces_comment hc
  | literal => exact pieces_literal
  | bracket => exact pieces_bracket
  | block hb => exact pieces_block hb
  | unclosed hb => rw [pieces_unclosed hb, pieces_nil]
  | char hc hm => exact pieces_char hc hm

theorem Cuts.maskChars_eq {piece : Piece} (h : Cuts cs piece rest) :
    maskChars cs = piece.masked ++ maskChars rest := by
  rw [maskChars, h.pieces_eq, List.flatMap_cons, maskChars]

theorem Cuts.shorter {piece : Piece} (h : Cuts cs piece rest) : rest.length < cs.length := by
  cases h with
  | comment hc => exact comment?_shorter hc
  | literal => exact Nat.lt_succ_of_le (quotedRest_length_le _ _)
  | bracket => exact Nat.lt_succ_of_le (bracketRest_length_le _)
  | block hb => exact Nat.lt_succ_of_lt (blockBody?_shorter hb)
  | unclosed => exact Nat.zero_lt_succ _
  | char => exact Nat.lt_succ_self _

theorem exists_cut (h : cs ≠ []) :
    ∃ piece rest, Cuts cs piece rest ∧ pieces cs = piece :: pieces rest := by
  have hcut : ∃ piece rest, Cuts cs piece rest := by
    obtain ⟨c, rest, rfl⟩ := List.exists_cons_of_ne_nil h
    cases hc : comment? (c :: rest) with
    | some p => exact ⟨_, _, .comment hc⟩
    | none =>
      by_cases hm : c ∈ ['\'', '[', '\x7b']
      · simp only [List.mem_cons, List.not_mem_nil, or_false] at hm
        rcases hm with rfl | rfl | rfl
        · exact ⟨_, _, .literal⟩
        · exact ⟨_, _, .bracket⟩
        · cases hb : blockBody? 0 rest with
          | none => exact ⟨_, _, .unclosed hb⟩
          | some p => exact ⟨_, _, .block hb⟩
      · exact ⟨_, _, .char hc hm⟩
  obtain ⟨piece, rest, hcut⟩ := hcut
  exact ⟨piece, rest, hcut, hcut.pieces_eq⟩

theorem cuts_of_pieces {piece : Piece} {ps : List Piece} (h : pieces cs = piece :: ps) :
    ∃ rest, Cuts cs piece rest ∧ pieces rest = ps := by
  have hne : cs ≠ [] := by
    rintro rfl
    rw [pieces_nil] at h
    cases h
  obtain ⟨piece', rest, hcut, hp⟩ := exists_cut hne
  obtain ⟨rfl, hrest⟩ := List.cons.inj (hp.symm.trans h)
  exact ⟨rest, hcut, hrest⟩

/-- What holds of the empty text, and of a text if it does of what follows its first piece, holds of
every text. -/
@[elab_as_elim]
theorem cuts_induction {motive : List Char → Prop} (cs : List Char) (nil : motive [])
    (cut : ∀ cs piece rest, Cuts cs piece rest → motive rest → motive cs) : motive cs := by
  induction hn : cs.length using Nat.strong_induction_on generalizing cs with
  | h n ih =>
    rcases eq_or_ne cs [] with rfl | hne
    · exact nil
    · obtain ⟨piece, rest, hcut, -⟩ := exists_cut hne
      exact cut cs piece rest hcut (ih _ (hn ▸ hcut.shorter) rest rfl)

theorem quotedRest_of_literalBody (h : LiteralBody body) :
    quotedRest '\'' (body ++ '\'' :: rest) = (body ++ ['\''], rest) := by
  induction h with
  | nil => simp [quotedRest]
  | escape hc _ ih => simp [quotedRest, ih]
  | @plain c cs hq hb hr hn _ ih =>
    rw [List.cons_append, quotedRest]
    · simp [hq, hn, ih]
    · intro d ds hc
      exact absurd hc hb

theorem maskChars_nil : maskChars [] = [] := by
  rw [maskChars, pieces_nil]
  rfl

theorem maskChars_cons (hc : c ∉ ['/', '\'', '[', '\x7b']) :
    maskChars (c :: rest) = c :: maskChars rest := by
  simp only [List.mem_cons, List.not_mem_nil, or_false, not_or] at hc
  rw [maskChars, pieces_char (comment?_eq_none hc.1) (by simp [hc])]
  rfl

theorem maskChars_literal (h : LiteralBody body) :
    maskChars ('\'' :: (body ++ '\'' :: rest)) = '\'' :: (body ++ '\'' :: maskChars rest) := by
  rw [maskChars, pieces_literal, quotedRest_of_literalBody h]
  simp [Piece.masked, Piece.text, maskChars]

/-- Masking changes no first character. -/
theorem head?_maskChars (cs : List Char) : (maskChars cs).head? = cs.head? := by
  rcases eq_or_ne cs [] with rfl | h
  · rw [maskChars_nil]
  · obtain ⟨piece, rest, hcut, hp⟩ := exists_cut h
    rw [maskChars, hp, List.flatMap_cons]
    cases hcut with
    | @comment _ p hc =>
      have hn : p.1 ≠ [] := by
        unfold comment? at hc
        split at hc <;> cases hc <;> simp
      rw [← comment?_append hc]
      change (p.1 ++ _).head? = _
      rw [List.head?_append_of_ne_nil _ hn, List.head?_append_of_ne_nil _ hn]
    | _ => rfl

theorem exists_cons_of_maskChars (h : maskChars cs = c :: after) : ∃ rest, cs = c :: rest := by
  have hh := head?_maskChars cs
  rw [h] at hh
  exact List.head?_eq_some_iff.mp hh.symm

/-- Masking leaves a text alone, whatever comes after it. -/
def Untouched (cs : List Char) : Prop :=
  ∀ rest, maskChars (cs ++ rest) = cs ++ maskChars rest

theorem untouched_append (h : Untouched cs) (h' : Untouched rest) : Untouched (cs ++ rest) := by
  intro after
  rw [List.append_assoc, h, h', List.append_assoc]

theorem untouched_of_forall (h : ∀ c ∈ cs, c ∉ ['/', '\'', '[', '\x7b']) : Untouched cs := by
  intro after
  induction cs with
  | nil => rfl
  | cons c cs ih =>
    rw [List.cons_append, maskChars_cons (h c List.mem_cons_self),
      ih fun d hd => h d (List.mem_cons_of_mem _ hd)]
    rfl

theorem untouched_literal (h : LiteralBody body) : Untouched ('\'' :: (body ++ ['\''])) := by
  intro after
  simpa using maskChars_literal h

theorem untouched_intercalate {sep : List Char} {parts : List (List Char)} (hs : Untouched sep)
    (h : ∀ part ∈ parts, Untouched part) : Untouched (sep.intercalate parts) := by
  induction parts with
  | nil => exact fun _ => rfl
  | cons part parts ih =>
    have hp := h part List.mem_cons_self
    have ih := ih fun q hq => h q (List.mem_cons_of_mem _ hq)
    cases parts with
    | nil => simpa using hp
    | cons q qs =>
      rw [List.intercalate_cons_cons]
      exact untouched_append (untouched_append hp hs) ih

theorem maskChars_of_untouched (h : Untouched cs) : maskChars cs = cs := by
  simpa [maskChars_nil] using h []

theorem untouched_name {first : Char → Bool} (hf : ∀ c, first c → isNameChar c)
    (h : IsName first cs) : Untouched cs := by
  apply untouched_of_forall
  intro d hd hm
  have hn := isNameChar_of_isName hf h d hd
  simp only [List.mem_cons, List.not_mem_nil, or_false] at hm
  rcases hm with rfl | rfl | rfl | rfl <;> revert hn <;> decide

end GrammarDoc.Source
