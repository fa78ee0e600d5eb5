import GrammarDoc.Proofs.Source.Agreement
import GrammarDoc.Proofs.Source.Nesting

namespace GrammarDoc.Source

/-- Masking gets to a brace block between two offsets, outside of comments, literals and other
blocks. -/
structure BlockAt (cs : List Char) (first last : Nat) : Prop where
  reached : Reaches cs (cs.take first)
  opened : cs[first]? = some '\x7b'
  closed : BlockBetween cs first last

/-- A piece of a masked text. -/
def Piece.blanked : Piece → Piece
  | .block body => .block (body.map blankOut)
  | piece => piece

variable {cs rest body : List Char} {c : Char} {piece : Piece} {qs : List Piece}
variable {i first last : Nat}

section Blanks

theorem blankOut_mem (c : Char) : blankOut c ∈ [' ', '\r', '\n'] := by
  unfold blankOut
  split
  next h => rcases h with rfl | rfl <;> decide
  next => exact List.mem_cons_self

theorem blankOut_blankOut (c : Char) : blankOut (blankOut c) = blankOut c := by
  rcases List.mem_cons.mp (blankOut_mem c) with h | h
  · rw [h]
    rfl
  · have hbreak : blankOut c = '\n' ∨ blankOut c = '\r' := by
      simpa using (List.mem_pair.mp h).symm
    rw [blankOut, if_pos hbreak]

theorem blankOut_of_ne (h : blankOut c ≠ c) : blankOut c = ' ' := by
  unfold blankOut at h ⊢
  split at h
  next => exact absurd rfl h
  next hc => rw [if_neg hc]

theorem item_blankOut (c : Char) (rest : List Char) : Item [blankOut c] rest := by
  have hmarks : ∀ d ∈ ['\x7b', '\x7d', '"', '\''], isSpace d = false := by simp [isSpace]
  have hplain : blankOut c ∉ ['\x7b', '\x7d', '"', '\''] := fun hm =>
    blankOut_ne (hmarks _ hm) c rfl
  have hslash : blankOut c ≠ '/' := blankOut_ne (by decide) c
  exact .char hplain (opensNoComment_iff.mpr (comment?_eq_none hslash))

theorem items_map_blankOut (body rest : List Char) : Items (body.map blankOut) rest := by
  induction body with
  | nil => exact .nil
  | cons c body ih => exact .cons (item_blankOut c _) ih

/-- A blanked body is a body, however the text goes on. -/
theorem blockBody?_map_blankOut (body rest : List Char) :
    blockBody? 0 (body.map blankOut ++ '\x7d' :: rest) = some (body.map blankOut, rest) :=
  blockBody?_eq_some_iff.mpr ⟨rfl, items_map_blankOut body _⟩

end Blanks

section Again

theorem Piece.masked_blanked (piece : Piece) : piece.blanked.masked = piece.masked := by
  cases piece with
  | block body =>
    have hbody : (body.map blankOut).map blankOut = body.map blankOut := by
      rw [List.map_map]
      exact List.map_congr_left fun c _ => blankOut_blankOut c
    rw [blanked, masked, masked, hbody]
  | _ => rfl

/-- A piece is cut off alike if the text after it is masked. -/
theorem Cuts.append_maskChars (h : Cuts cs piece rest) :
    Cuts (piece.text ++ maskChars rest) piece (maskChars rest) := by
  rcases eq_or_ne rest [] with rfl | hr
  · rw [maskChars_nil, h.append_eq]
    exact h
  · exact h.append_right hr (head?_maskChars rest)

theorem Cuts.maskChars (h : Cuts cs piece rest) :
    Cuts (maskChars cs) piece.blanked (maskChars rest) := by
  rw [h.maskChars_eq]
  cases piece with
  | block body =>
    -- The quotes and comments are gone, so this is a new scan of the body and not the old one.
    have hcut := Cuts.block (blockBody?_map_blankOut body (Source.maskChars rest))
    simpa [Piece.masked, Piece.blanked] using hcut
  | _ => exact h.append_maskChars

/-- A masked text is cut at the same places as the text itself. -/
theorem pieces_maskChars (cs : List Char) :
    pieces (maskChars cs) = (pieces cs).map Piece.blanked := by
  induction cs using cuts_induction with
  | nil => rw [maskChars_nil, pieces_nil, List.map_nil]
  | cut cs piece rest hcut ih =>
    rw [hcut.maskChars.pieces_eq, ih, hcut.pieces_eq, List.map_cons]

/-- Masking a masked text changes nothing. -/
theorem mask_idempotent (text : String) : mask (mask text) = mask text := by
  have hchars : maskChars (maskChars text.toList) = maskChars text.toList := by
    have hmasked : Piece.masked ∘ Piece.blanked = Piece.masked := funext Piece.masked_blanked
    rw [maskChars, pieces_maskChars, List.flatMap_map]
    exact congrArg (List.flatMap · _) hmasked
  unfold mask
  rw [String.toList_ofList, hchars]

end Again

section Places

theorem blockBody?_of_pieces (h : pieces cs = .block body :: qs) :
    ∃ rest, cs = '\x7b' :: (body ++ '\x7d' :: rest) ∧ Items body ['\x7d'] := by
  obtain ⟨rest, hcut, -⟩ := cuts_of_pieces h
  cases hcut with
  | block hb =>
    obtain ⟨happ, hi⟩ := blockBody?_eq_some_iff.mp hb
    exact ⟨rest, by rw [happ], items_congr hi []⟩

/-- The brace blocks that masking gets to are those among the pieces. -/
theorem blockAt_iff : BlockAt cs first last ↔
    ∃ ps body qs, pieces cs = ps ++ .block body :: qs ∧
      first = (ps.flatMap Piece.text).length ∧ last = first + body.length + 2 := by
  constructor
  · rintro ⟨⟨ps, qs, hp, htake⟩, hopen, hclosed⟩
    obtain ⟨body, rest, hbody, hi, hlast⟩ := (blockBetween_iff hopen).mp hclosed
    have hlt : first < cs.length := (List.getElem?_eq_some_iff.mp hopen).1
    have hdrop : cs.drop first = '\x7b' :: (body ++ '\x7d' :: rest) := by
      rw [drop_of_getElem? hopen, hbody]
    have hafter : qs.flatMap Piece.text = cs.drop first := by
      have hall := pieces_text cs
      rw [hp, List.flatMap_append, htake] at hall
      exact List.append_cancel_left (hall.trans (List.take_append_drop first cs).symm)
    have hblock := blockBody?_eq_some_iff.mpr ⟨rfl, items_congr hi rest⟩
    have hqs := pieces_of_append hp
    rw [hafter, hdrop, pieces_block hblock] at hqs
    have hfirst : (cs.take first).length = first := List.length_take_of_le (Nat.le_of_lt hlt)
    exact ⟨ps, body, pieces rest, by rw [hp, hqs], by rw [htake, hfirst], hlast⟩
  · rintro ⟨ps, body, qs, hp, rfl, rfl⟩
    have hcs : cs = ps.flatMap Piece.text ++ (Piece.block body :: qs).flatMap Piece.text := by
      rw [← List.flatMap_append, ← hp, pieces_text]
    obtain ⟨rest, hrest, hi⟩ := blockBody?_of_pieces (pieces_of_append hp)
    rw [hrest] at hcs
    have hopen : cs[(ps.flatMap Piece.text).length]? = some '\x7b' := by
      rw [hcs, List.getElem?_append_right (Nat.le_refl _), Nat.sub_self]
      rfl
    have hdrop : cs.drop ((ps.flatMap Piece.text).length + 1) = body ++ '\x7d' :: rest := by
      rw [hcs, List.drop_append, List.drop_eq_nil_of_le (Nat.le_succ _), Nat.add_sub_cancel_left]
      rfl
    refine ⟨⟨ps, _, hp, ?_⟩, hopen, (blockBetween_iff hopen).mpr ⟨body, rest, hdrop, hi, rfl⟩⟩
    rw [hcs, List.take_left]

theorem exists_masks_of_getElem? (h : cs[i]? = some c) :
    ∃ m, (maskChars cs)[i]? = some m ∧ Masks c m := by
  obtain ⟨hi, rfl⟩ := List.getElem?_eq_some_iff.mp h
  have hm := masks_maskChars cs
  have hi' : i < (maskChars cs).length := hm.length_eq ▸ hi
  exact ⟨(maskChars cs)[i], List.getElem?_eq_getElem hi', hm.get hi hi'⟩

theorem maskChars_getElem?_eq_none (h : cs[i]? = none) : (maskChars cs)[i]? = none := by
  have hlen := (masks_maskChars cs).length_eq
  rw [List.getElem?_eq_none_iff] at h ⊢
  omega

/-- Line breaks stay where they are, and no other ones come up. -/
theorem maskChars_break_iff (hc : c ∈ ['\n', '\r']) :
    (maskChars cs)[i]? = some c ↔ cs[i]? = some c := by
  cases h : cs[i]? with
  | none => rw [maskChars_getElem?_eq_none h]
  | some d =>
    obtain ⟨m, hm, hmasks⟩ := exists_masks_of_getElem? h
    obtain ⟨hreturn, hfeed, -⟩ := eq_of_masks_break hmasks
    rw [hm, Option.some_inj, Option.some_inj]
    rcases List.mem_pair.mp hc with rfl | rfl
    · exact hfeed
    · exact hreturn

/-- Where masking changes a character, it puts a space between the braces of a block. -/
theorem exists_blockAt_of_ne (h : (maskChars cs)[i]? ≠ cs[i]?) :
    (maskChars cs)[i]? = some ' ' ∧
      ∃ first last, BlockAt cs first last ∧ first < i ∧ i + 1 < last := by
  cases hc : cs[i]? with
  | none => exact absurd (maskChars_getElem?_eq_none hc) (hc ▸ h)
  | some c =>
    obtain ⟨m, hm, -⟩ := exists_masks_of_getElem? hc
    rw [hc, hm, ne_eq, Option.some_inj] at h
    have hi : i < cs.length := (List.getElem?_eq_some_iff.mp hc).1
    have htext : (pieces cs).flatMap Piece.text = cs.take i ++ c :: cs.drop (i + 1) := by
      rw [pieces_text, ← drop_of_getElem? hc, List.take_append_drop]
    have hmasked : (pieces cs).flatMap Piece.masked =
        (maskChars cs).take i ++ m :: (maskChars cs).drop (i + 1) := by
      rw [← drop_of_getElem? hm, List.take_append_drop]
      rfl
    have hsize : (cs.take i).length = ((maskChars cs).take i).length := by
      rw [List.length_take, List.length_take, (masks_maskChars cs).length_eq]
    obtain ⟨earlier, us, vs, later, hp, rfl, htake, -⟩ :=
      exists_block_of_ne htext hmasked hsize h
    have hplace := congrArg List.length htake
    rw [List.length_take_of_le (Nat.le_of_lt hi), List.length_append, List.length_cons] at hplace
    have hblock : BlockAt cs _ _ := blockAt_iff.mpr ⟨earlier, _, later, hp, rfl, rfl⟩
    refine ⟨by rw [hm, blankOut_of_ne h], _, _, hblock, by omega, ?_⟩
    rw [List.length_append, List.length_cons]
    omega

/-- A block is blank in the masked text, so it is read as one token. -/
theorem exists_blanks_of_blockAt (h : BlockAt cs first last) :
    ∃ blanks, (maskChars cs).extract first last = '\x7b' :: (blanks ++ ['\x7d']) ∧
      (∀ c ∈ blanks, c ∈ [' ', '\r', '\n']) ∧
      lexeme? ((maskChars cs).drop first) =
        some (⟨some .braceBlock, (maskChars cs).extract first last⟩, (maskChars cs).drop last) := by
  obtain ⟨ps, body, qs, hp, hfirst, hlast⟩ := blockAt_iff.mp h
  rw [← length_masked] at hfirst
  have hms : maskChars cs = ps.flatMap Piece.masked ++
      (('\x7b' :: (body.map blankOut ++ ['\x7d'])) ++ qs.flatMap Piece.masked) := by
    rw [maskChars, hp, List.flatMap_append, List.flatMap_cons]
    rfl
  have hdrop : (maskChars cs).drop first =
      ('\x7b' :: (body.map blankOut ++ ['\x7d'])) ++ qs.flatMap Piece.masked := by
    rw [hms, hfirst, List.drop_left]
  have hsize : last - first = ('\x7b' :: (body.map blankOut ++ ['\x7d'])).length := by
    simp only [List.length_cons, List.length_append, List.length_map, List.length_nil]
    omega
  have hextract : (maskChars cs).extract first last = '\x7b' :: (body.map blankOut ++ ['\x7d']) := by
    rw [List.extract_eq_take_drop, hdrop, hsize, List.take_left]
  have hafter : (maskChars cs).drop last = qs.flatMap Piece.masked := by
    have hle : last = first + (last - first) := by omega
    rw [hle, ← List.drop_drop, hdrop, hsize, List.drop_left]
  refine ⟨body.map blankOut, hextract, fun c hc => ?_, ?_⟩
  · obtain ⟨d, -, rfl⟩ := List.mem_map.mp hc
    exact blankOut_mem d
  · have hflat := flatRest?_map_blankOut body (qs.flatMap Piece.masked)
    have hlexeme : lexeme? ('\x7b' :: (body.map blankOut ++ '\x7d' :: qs.flatMap Piece.masked)) =
        some (⟨some .braceBlock, '\x7b' :: (body.map blankOut ++ ['\x7d'])⟩,
          qs.flatMap Piece.masked) := by
      rw [lexeme?]
      change ((flatRest? '\x7b' '\x7d' _).map _).map _ = _
      rw [hflat]
      rfl
    rw [hextract, hafter, hdrop]
    simpa using hlexeme

/-- Masking keeps every place: the length and the line breaks are those of the text, a character
changes only between the braces of a block that masking gets to, where it becomes a space, and every
such block is blank afterwards and one token. -/
theorem mask_keeps_places (text : String) :
    let cs := text.toList
    let ms := (mask text).toList
    ms.length = cs.length ∧ (∀ i : Nat, ∀ c ∈ ['\n', '\r'], ms[i]? = some c ↔ cs[i]? = some c) ∧
      (∀ i : Nat, ms[i]? ≠ cs[i]? → ms[i]? = some ' ' ∧
        ∃ first last, BlockAt cs first last ∧ first < i ∧ i + 1 < last) ∧
      ∀ first last, BlockAt cs first last →
        ∃ blanks, ms.extract first last = '\x7b' :: (blanks ++ ['\x7d']) ∧
          (∀ c ∈ blanks, c ∈ [' ', '\r', '\n']) ∧
          lexeme? (ms.drop first) =
            some (⟨some .braceBlock, ms.extract first last⟩, ms.drop last) := by
  intro cs ms
  have hms : ms = maskChars cs := String.toList_ofList
  rw [hms]
  refine ⟨(masks_maskChars cs).length_eq.symm, ?_, ?_, ?_⟩
  · exact fun i c hc => maskChars_break_iff hc
  · exact fun i hi => exists_blockAt_of_ne hi
  · exact fun first last hb => exists_blanks_of_blockAt hb

/-- A block with a quoted brace in it, after a quoted block that is none. -/
theorem mask_keeps_places_quoted :
    let text := "a : '\x7b\x7d' \x7bf(\"\x7d\");\n\x7d b ;"
    let ms := (mask text).toList
    (BlockAt text.toList 9 19 ∧ ms[10]? ≠ text.toList[10]? ∧ ms[17]? = some '\n') ∧
      ms[10]? = some ' ' ∧
      lexeme? (ms.drop 9) = some (⟨some .braceBlock, ms.extract 9 19⟩, ms.drop 19) := by
  intro text ms
  have hblock : BlockAt text.toList 9 19 := by
    refine blockAt_iff.mpr
      ⟨(pieces text.toList).take 6, "f(\"\x7d\");\n".toList, (pieces text.toList).drop 7, ?_⟩
    decide +kernel
  have hne : ms[10]? ≠ text.toList[10]? := by decide +kernel
  have hfeed : text.toList[17]? = some '\n' := by decide
  obtain ⟨-, hbreak, hspace, hblank⟩ := mask_keeps_places text
  obtain ⟨blanks, -, -, hlexeme⟩ := hblank 9 19 hblock
  exact ⟨⟨hblock, hne, (hbreak 17 '\n' (by decide)).mpr hfeed⟩, (hspace 10 hne).1, hlexeme⟩

end Places
end GrammarDoc.Source
