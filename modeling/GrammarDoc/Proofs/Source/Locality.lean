import GrammarDoc.Proofs.Source.Acceptance
import GrammarDoc.Proofs.Source.Passing

namespace GrammarDoc.Source

variable {cs ms ns xs rest pre : List Char} {c : Char} {p : List Char × List Char}
variable {piece : Piece} {ps qs : List Piece} {depth : Nat}

section Regions

theorem head?_append_congr (h : ms.head? = ns.head?) : (xs ++ ms).head? = (xs ++ ns).head? := by
  rw [List.head?_append, List.head?_append, h]

/-- A comment ends where it did if the text after it starts as it did. -/
theorem comment?_append_right (h : comment? cs = some p) (hm : ms.head? = p.2.head?) :
    comment? (p.1 ++ ms) = some (p.1, ms) := by
  unfold comment? at h
  split at h
  next line =>
    cases h
    have hl := lineRest_append_right hm
    simp only [List.cons_append, comment?, hl]
  next block =>
    cases h
    cases hb : throughCommentEnd? block with
    | none =>
      rw [hb] at hm
      cases List.head?_eq_none_iff.mp hm
      simp [comment?, hb]
    | some q =>
      have ht : throughCommentEnd? (q.1 ++ ms) = some (q.1, ms) :=
        throughCommentEnd?_append_right hb
      simp [comment?, ht]
  next => cases h

theorem comment?_cons_eq_none (h : comment? (c :: rest) = none) (hm : ms.head? = rest.head?) :
    comment? (c :: ms) = none := by
  unfold comment? at h ⊢
  split
  next line hline =>
    cases hline
    obtain ⟨line', rfl⟩ := List.head?_eq_some_iff.mp hm.symm
    cases h
  next block hblock =>
    cases hblock
    obtain ⟨block', rfl⟩ := List.head?_eq_some_iff.mp hm.symm
    cases h
  next => rfl

theorem not_escape (hn : ∀ d ds, c = '\\' → rest = d :: ds → False)
    (hm : ms.head? = rest.head?) : ∀ d ds, c = '\\' → ms = d :: ds → False := by
  intro d ds hc hd
  rw [hd] at hm
  obtain ⟨ds', hrest⟩ := List.head?_eq_some_iff.mp hm.symm
  exact hn d ds' hc hrest

/-- A literal ends where it did if the text after it starts as it did. -/
theorem quotedRest_append_right (quote : Char) (cs : List Char)
    (hm : ms.head? = (quotedRest quote cs).2.head?) :
    quotedRest quote ((quotedRest quote cs).1 ++ ms) = ((quotedRest quote cs).1, ms) := by
  fun_induction quotedRest quote cs with
  | case1 =>
    cases List.head?_eq_none_iff.mp hm
    rfl
  | case2 c rest q ih => rw [List.cons_append, List.cons_append, quotedRest, ih hm]
  | case3 rest hn =>
    rw [List.cons_append, List.nil_append, quotedRest, if_pos rfl]
    exact not_escape hn hm
  | case4 rest hn hq =>
    obtain ⟨ds, rfl⟩ := List.head?_eq_some_iff.mp hm
    rw [List.nil_append, quotedRest, if_neg hq, if_pos rfl]
    exact fun _ _ hc => absurd hc (by decide)
  | case5 c rest hn hq hl q ih =>
    have hrest : (q.1 ++ ms).head? = rest.head? := by
      rw [head?_append_congr hm, quotedRest_append]
    rw [List.cons_append, quotedRest, if_neg hq, if_neg hl, ih hm]
    exact not_escape hn hrest

/-- A bracket block ends where it did if the text after it starts as it did. -/
theorem bracketRest_append_right (cs : List Char) (hm : ms.head? = (bracketRest cs).2.head?) :
    bracketRest ((bracketRest cs).1 ++ ms) = ((bracketRest cs).1, ms) := by
  fun_induction bracketRest cs with
  | case1 =>
    cases List.head?_eq_none_iff.mp hm
    rfl
  | case2 c rest q ih => rw [List.cons_append, List.cons_append, bracketRest, ih hm]
  | case3 rest hn =>
    rw [List.cons_append, List.nil_append, bracketRest, if_pos rfl]
    exact not_escape hn hm
  | case4 c rest hn hc q ih =>
    have hrest : (q.1 ++ ms).head? = rest.head? := by
      rw [head?_append_congr hm, bracketRest_append]
    rw [List.cons_append, bracketRest, if_neg hc, ih hm]
    exact not_escape hn hrest

theorem blockBody?_of_comment (h : comment? cs = some p) :
    blockBody? depth cs = (blockBody? depth p.2).map fun q => (p.1 ++ q.1, q.2) := by
  rw [blockBody?]
  split
  next hc =>
    cases hc.symm.trans h
    rfl
  next hn => cases hn.symm.trans h

theorem blockBody?_of_char (h : comment? (c :: rest) = none) :
    blockBody? depth (c :: rest) =
      if c = '"' ∨ c = '\'' then
        (blockBody? depth (quotedRest c rest).2).map fun p =>
          (c :: (quotedRest c rest).1 ++ p.1, p.2)
      else if c = '\x7b' then
        (blockBody? (depth + 1) rest).map fun p => (c :: p.1, p.2)
      else if c = '\x7d' then
        match depth with
        | 0 => some ([], rest)
        | depth + 1 => (blockBody? depth rest).map fun p => (c :: p.1, p.2)
      else
        (blockBody? depth rest).map fun p => (c :: p.1, p.2) := by
  rw [blockBody?]
  split
  next hc => cases hc.symm.trans h
  next => rfl

/-- A block ends where it did whatever comes after it. -/
theorem blockBody?_append_right (h : blockBody? depth cs = some p) :
    blockBody? depth (p.1 ++ '\x7d' :: ms) = some (p.1, ms) := by
  have hhead : ∀ {q : List Char × List Char} {d : Nat} {rest : List Char},
      blockBody? d rest = some q → (q.1 ++ '\x7d' :: ms).head? = rest.head? := by
    intro q d rest hq
    rw [← blockBody?_append hq]
    exact head?_append_congr rfl
  fun_induction blockBody? depth cs generalizing p with
  | case1 depth cs text rest hc _ ih =>
    obtain ⟨q, hq, rfl⟩ := Option.map_eq_some_iff.mp h
    have hcomment := comment?_append_right hc (hhead hq)
    rw [List.append_assoc, blockBody?_of_comment hcomment, ih hq]
    rfl
  | case2 => cases h
  | case3 depth c rest hc hquote _ ih =>
    obtain ⟨q, hq, rfl⟩ := Option.map_eq_some_iff.mp h
    have hquoted := quotedRest_append_right c rest (hhead hq)
    have hrest : ((quotedRest c rest).1 ++ (q.1 ++ '\x7d' :: ms)).head? = rest.head? := by
      rw [head?_append_congr (hhead hq), quotedRest_append]
    rw [List.cons_append, List.cons_append, List.append_assoc,
      blockBody?_of_char (comment?_cons_eq_none hc hrest), if_pos hquote, hquoted, ih hq]
    rfl
  | case4 depth rest hc hquote ih =>
    obtain ⟨q, hq, rfl⟩ := Option.map_eq_some_iff.mp h
    rw [List.cons_append, blockBody?_of_char (comment?_cons_eq_none hc (hhead hq)),
      if_neg hquote, if_pos rfl, ih hq]
    rfl
  | case5 rest hc hquote hopen =>
    cases h
    rw [List.nil_append, blockBody?_of_char (comment?_eq_none (by decide)), if_neg hquote,
      if_neg hopen, if_pos rfl]
  | case6 rest depth hc hquote hopen ih =>
    obtain ⟨q, hq, rfl⟩ := Option.map_eq_some_iff.mp h
    rw [List.cons_append, blockBody?_of_char (comment?_cons_eq_none hc (hhead hq)),
      if_neg hquote, if_neg hopen, if_pos rfl]
    simp only [ih hq, Option.map_some]
  | case7 depth c rest hc hquote hopen hclose ih =>
    obtain ⟨q, hq, rfl⟩ := Option.map_eq_some_iff.mp h
    rw [List.cons_append, blockBody?_of_char (comment?_cons_eq_none hc (hhead hq)),
      if_neg hquote, if_neg hopen, if_neg hclose, ih hq]
    rfl

end Regions

section Pieces

/-- A piece that does not end the text is cut off alike if the text after it starts as it did. -/
theorem Cuts.append_right (h : Cuts cs piece rest) (hr : rest ≠ []) (hm : ms.head? = rest.head?) :
    Cuts (piece.text ++ ms) piece ms := by
  cases h with
  | comment hc =>
    have hcut := Cuts.comment (comment?_append_right hc hm)
    exact hcut
  | @literal rest =>
    have hcut : Cuts ('\'' :: ((quotedRest '\'' rest).1 ++ ms)) _ _ := .literal
    rw [quotedRest_append_right '\'' rest hm] at hcut
    exact hcut
  | @bracket rest =>
    have hcut : Cuts ('[' :: ((bracketRest rest).1 ++ ms)) _ _ := .bracket
    rw [bracketRest_append_right rest hm] at hcut
    exact hcut
  | @block rest body after hb =>
    have hcut : Cuts ('\x7b' :: (body ++ '\x7d' :: ms)) (.block body) ms :=
      .block (blockBody?_append_right hb)
    simpa [Piece.text] using hcut
  | unclosed => exact absurd rfl hr
  | char hc hn => exact .char (comment?_cons_eq_none hc hm) hn

/-- The pieces before a place depend on the text from there on only by its first character. -/
theorem pieces_append_congr (h : pieces (pre ++ ns) = ps ++ qs)
    (hp : ps.flatMap Piece.text = pre) (hn : ns ≠ []) (hm : ms.head? = ns.head?) :
    pieces (pre ++ ms) = ps ++ pieces ms := by
  induction ps generalizing pre with
  | nil =>
    subst hp
    rfl
  | cons piece ps ih =>
    rw [List.flatMap_cons] at hp
    subst hp
    rw [List.append_assoc] at h ⊢
    obtain ⟨rest, hcut, hrest⟩ := cuts_of_pieces h
    obtain rfl := List.append_cancel_left hcut.append_eq
    have hcut' := hcut.append_right (by simp [hn]) (head?_append_congr hm)
    rw [hcut'.pieces_eq, ih hrest rfl, List.cons_append]

/-- Masking gets to the end of some text at the end of a piece, so it stands outside of comments,
literals and blocks there. -/
def Reaches (cs pre : List Char) : Prop :=
  ∃ ps qs, pieces cs = ps ++ qs ∧ ps.flatMap Piece.text = pre

theorem maskChars_block {body body' post : List Char}
    (hreach : Reaches (pre ++ '\x7b' :: (body ++ '\x7d' :: post)) pre)
    (hbody : blockBody? 0 (body ++ '\x7d' :: post) = some (body, post))
    (hbody' : blockBody? 0 (body' ++ '\x7d' :: post) = some (body', post))
    (hblank : body.map blankOut = body'.map blankOut) :
    maskChars (pre ++ '\x7b' :: (body ++ '\x7d' :: post)) =
      maskChars (pre ++ '\x7b' :: (body' ++ '\x7d' :: post)) := by
  obtain ⟨ps, qs, hp, htext⟩ := hreach
  have hpieces : ∀ b, blockBody? 0 (b ++ '\x7d' :: post) = some (b, post) →
      pieces (pre ++ '\x7b' :: (b ++ '\x7d' :: post)) = ps ++ .block b :: pieces post := by
    intro b hb
    have hscan := pieces_append_congr hp htext (List.cons_ne_nil _ _)
      (rfl : ('\x7b' :: (b ++ '\x7d' :: post)).head? = some '\x7b')
    rw [hscan, pieces_block hb]
  rw [maskChars, maskChars, hpieces body hbody, hpieces body' hbody', List.flatMap_append,
    List.flatMap_append, List.flatMap_cons, List.flatMap_cons, Piece.masked, Piece.masked, hblank]

theorem blankOut_eq {d : Char} (hlf : c = '\n' ↔ d = '\n') (hcr : c = '\r' ↔ d = '\r') :
    blankOut c = blankOut d := by
  unfold blankOut
  by_cases hc : c = '\n' ∨ c = '\r'
  · have hd : d = c := by
      rcases hc with hc | hc
      · rw [hc, hlf.mp hc]
      · rw [hc, hcr.mp hc]
    rw [hd]
  · have hd : ¬(d = '\n' ∨ d = '\r') := by rwa [← hlf, ← hcr]
    rw [if_neg hc, if_neg hd]

/-- Bodies with the same length and the same line breaks are blanked out to the same text. -/
theorem map_blankOut_eq {body body' : List Char} (hlen : body.length = body'.length)
    (hlf : ∀ i : Nat, body[i]? = some '\n' ↔ body'[i]? = some '\n')
    (hcr : ∀ i : Nat, body[i]? = some '\r' ↔ body'[i]? = some '\r') :
    body.map blankOut = body'.map blankOut := by
  refine List.ext_getElem (by simpa using hlen) fun i hi hi' => ?_
  rw [List.length_map] at hi hi'
  have hlf := hlf i
  have hcr := hcr i
  rw [List.getElem?_eq_getElem hi, List.getElem?_eq_getElem hi', Option.some_inj,
    Option.some_inj] at hlf hcr
  rw [List.getElem_map, List.getElem_map]
  exact blankOut_eq hlf hcr

end Pieces
end GrammarDoc.Source

namespace GrammarDoc

open Source

theorem parseGrammar_congr {text text' : String} (hl : text.length = text'.length)
    (hm : maskChars text.toList = maskChars text'.toList) :
    parseGrammar text = parseGrammar text' := by
  have hparse : parse text = parse text' := by
    rw [parse, parse, derive, derive, hm]
  rw [parseGrammar, parseGrammar, hparse, hl]

/-- What stands in a brace block does not matter: two texts that differ only in the body of one
block, with the same length and the same line breaks, are masked alike and give the same tree, the
same rules or the same error, and the same records. -/
theorem block_content_ignored {pre post body body' : String} (hlen : body.length = body'.length)
    (hlf : ∀ i : Nat, body.toList[i]? = some '\n' ↔ body'.toList[i]? = some '\n')
    (hcr : ∀ i : Nat, body.toList[i]? = some '\r' ↔ body'.toList[i]? = some '\r')
    (hreach : Reaches (pre ++ "\x7b" ++ body ++ "\x7d" ++ post).toList pre.toList)
    (hbody : blockBody? 0 (body ++ "\x7d" ++ post).toList = some (body.toList, post.toList))
    (hbody' : blockBody? 0 (body' ++ "\x7d" ++ post).toList = some (body'.toList, post.toList)) :
    let text := pre ++ "\x7b" ++ body ++ "\x7d" ++ post
    let text' := pre ++ "\x7b" ++ body' ++ "\x7d" ++ post
    mask text = mask text' ∧ parseGrammar text = parseGrammar text' ∧
      parseRules text = parseRules text' := by
  intro text text'
  have hlist : ∀ b : String, (pre ++ "\x7b" ++ b ++ "\x7d" ++ post).toList =
      pre.toList ++ '\x7b' :: (b.toList ++ '\x7d' :: post.toList) := by
    intro b
    simp
  have hafter : ∀ b : String, (b ++ "\x7d" ++ post).toList = b.toList ++ '\x7d' :: post.toList := by
    intro b
    simp
  rw [hlist] at hreach
  rw [hafter] at hbody hbody'
  have hblank := map_blankOut_eq hlen hlf hcr
  have hmask : maskChars text.toList = maskChars text'.toList := by
    rw [hlist, hlist]
    exact maskChars_block hreach hbody hbody' hblank
  have hl : text.length = text'.length := by
    simp only [text, text', String.length_append, hlen]
  have hgrammar := parseGrammar_congr hl hmask
  refine ⟨?_, hgrammar, ?_⟩
  · rw [mask, mask, hmask]
  · rw [parseRules, parseRules, hgrammar]

theorem block_content_ignored_nested :
    let pre := "grammar G;\na : '\x7b' \x7bx\x7d "
    let body := "f('\x7d');\n"
    let body' := "\x7b\x7b\"\x7b\"\x7d\x7d\n"
    let post := " ;"
    let text := pre ++ "\x7b" ++ body ++ "\x7d" ++ post
    let text' := pre ++ "\x7b" ++ body' ++ "\x7d" ++ post
    (body.length = body'.length ∧ body ≠ body' ∧ Reaches text.toList pre.toList) ∧
      mask text = mask text' ∧ parseGrammar text = parseGrammar text' ∧
      parseRules text = parseRules text' := by
  intro pre body body' post text text'
  have hsame : ∀ c : Char, (∀ i < 8, body.toList[i]? = some c ↔ body'.toList[i]? = some c) →
      ∀ i : Nat, body.toList[i]? = some c ↔ body'.toList[i]? = some c := by
    intro c hc i
    rcases Nat.lt_or_ge i 8 with hi | hi
    · exact hc i hi
    · have hb : body.toList[i]? = none := List.getElem?_eq_none (Nat.le_trans (by decide) hi)
      have hb' : body'.toList[i]? = none := List.getElem?_eq_none (Nat.le_trans (by decide) hi)
      rw [hb, hb']
  have hreach : Reaches text.toList pre.toList := by
    refine ⟨(pieces text.toList).take 19, _, (List.take_append_drop 19 _).symm, ?_⟩
    decide +kernel
  have hbody : blockBody? 0 (body ++ "\x7d" ++ post).toList = some (body.toList, post.toList) := by
    decide +kernel
  have hbody' : blockBody? 0 (body' ++ "\x7d" ++ post).toList =
      some (body'.toList, post.toList) := by
    decide +kernel
  have hlen : body.length = body'.length := by decide
  exact ⟨⟨hlen, by decide, hreach⟩, block_content_ignored hlen (hsame _ (by decide))
    (hsame _ (by decide)) hreach hbody hbody'⟩

end GrammarDoc
