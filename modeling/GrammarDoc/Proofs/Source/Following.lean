import GrammarDoc.Proofs.Source.Locality
import GrammarDoc.Proofs.Source.Synchrony

namespace GrammarDoc.Source

variable {cs ms rest after stretch : List Char} {c : Char} {lexeme : Lexeme}
variable {p : List Char × List Char} {piece : Piece}

/-- What comes next may still belong to white space and to a line comment. -/
def Lexeme.isOpen (lexeme : Lexeme) : Bool :=
  lexeme.kind? = none ∧ lexeme.region? ≠ some .blockComment

/-- A text may stand after a lexeme in place of another one: it starts alike, or with something that
separates tokens if the lexeme has an end of its own. -/
def Lexeme.Precedes (lexeme : Lexeme) (after ms : List Char) : Prop :=
  ms.head? = after.head? ∨
    lexeme.isOpen = false ∧ ∀ d, ms.head? = some d → isSpace d ∨ d = '/'

section Lexer

theorem literalRest?_append_right (h : literalRest? cs = some p) :
    literalRest? (p.1 ++ ms) = some (p.1, ms) := by
  obtain ⟨body, hb, hp, -⟩ := literalBody_of_literalRest? h
  have happ : body ++ ['\''] ++ ms = body ++ '\'' :: ms := by simp
  rw [hp, happ, literalRest?_of_literalBody hb]

/-- A bracket block that the lexer accepts ends where it did whatever comes after it. -/
theorem bracketBlockRest?_append_right (h : bracketBlockRest? cs = some p) :
    bracketBlockRest? (p.1 ++ ms) = some (p.1, ms) ∧ bracketRest (p.1 ++ ms) = (p.1, ms) := by
  fun_induction bracketBlockRest? cs generalizing p with
  | case1 => cases h
  | case2 => cases h
  | case3 c rest hc ih =>
    obtain ⟨q, hq, rfl⟩ := Option.map_eq_some_iff.mp h
    obtain ⟨hlexer, hmasker⟩ := ih hq
    simp only [List.cons_append, bracketBlockRest?, bracketRest, if_neg hc, hlexer, hmasker,
      Option.map_some, and_self]
  | case4 rest =>
    cases h
    exact ⟨rfl, rfl⟩
  | case5 => cases h
  | case6 c rest hn hc hb ih =>
    obtain ⟨q, hq, rfl⟩ := Option.map_eq_some_iff.mp h
    obtain ⟨hlexer, hmasker⟩ := ih hq
    have hescape : ∀ d ds, c = '\\' → q.1 ++ ms = d :: ds → False :=
      fun _ _ he => absurd he hb
    rw [List.cons_append, bracketBlockRest?, bracketRest, if_neg hc, if_neg hc, if_neg hb, hlexer,
      hmasker]
    · exact ⟨rfl, rfl⟩
    · exact hescape
    · exact hescape

theorem flatRest?_append_right {opening closing : Char}
    (h : flatRest? opening closing cs = some p) :
    flatRest? opening closing (p.1 ++ ms) = some (p.1, ms) := by
  induction cs generalizing p with
  | nil => cases h
  | cons c rest ih =>
    rw [flatRest?] at h
    split at h
    next hc =>
      cases h
      exact if_pos hc
    next hc =>
      split at h
      · cases h
      next ho =>
        obtain ⟨q, hq, rfl⟩ := Option.map_eq_some_iff.mp h
        rw [List.cons_append, flatRest?, if_neg hc, if_neg ho, ih hq]
        rfl

/-- A run of characters of one class ends at what starts as what was after it, and at what separates
tokens. -/
theorem takeWhile_of_precedes {q : Char → Bool} (hq : ∀ d, isSpace d ∨ d = '/' → q d = false)
    (hp : lexeme.Precedes (cs.dropWhile q) ms) :
    (cs.takeWhile q ++ ms).takeWhile q = cs.takeWhile q ∧
      (cs.takeWhile q ++ ms).dropWhile q = ms := by
  refine takeWhile_of_stops (fun d hd => List.mem_takeWhile_imp hd) fun d hd => ?_
  rcases hp with hm | ⟨-, hs⟩
  · have hstop := List.head?_dropWhile_not q cs
    rw [hm] at hd
    rw [hd] at hstop
    simpa using hstop
  · exact hq d (hs d hd)

theorem isNameChar_of_separates {d : Char} (h : isSpace d ∨ d = '/') : isNameChar d = false := by
  rcases h with h | rfl
  · by_contra hn
    rw [isSpace_eq_false_of_isNameChar (by simpa using hn)] at h
    cases h
  · decide

theorem isAsciiDigit_of_separates {d : Char} (h : isSpace d ∨ d = '/') : Text.isAsciiDigit d = false := by
  have hn := isNameChar_of_separates h
  simp only [isNameChar, Bool.or_eq_false_iff] at hn
  exact hn.1.2

theorem longMark?_of_separates {d : Char} (h : isSpace d ∨ d = '/') : longMark? c d = none := by
  unfold longMark?
  split <;> first | rfl | simp [isSpace] at h

theorem commentExtent?_append_right {e : Extent} (h : commentExtent? rest = some e)
    (hp : Lexeme.Precedes ⟨e.kind?, '/' :: e.tail⟩ e.after ms) :
    commentExtent? (e.tail ++ ms) = some ⟨e.kind?, e.tail, ms⟩ := by
  unfold commentExtent? at h
  split at h
  next line =>
    cases h
    rcases hp with hm | ⟨ho, -⟩
    · have hl := lineRest_append_right hm
      simp only [List.cons_append, commentExtent?, hl]
    · cases ho
  next block =>
    obtain ⟨q, hq, rfl⟩ := Option.map_eq_some_iff.mp h
    have ht : throughCommentEnd? (q.1 ++ ms) = some (q.1, ms) := throughCommentEnd?_append_right hq
    simp [commentExtent?, ht]
  next => cases h

theorem atNameExtent?_append_right {e : Extent} (h : atNameExtent? rest = some e)
    (hp : Lexeme.Precedes ⟨e.kind?, '@' :: e.tail⟩ e.after ms) :
    atNameExtent? (e.tail ++ ms) = some ⟨e.kind?, e.tail, ms⟩ := by
  unfold atNameExtent? at h
  split at h
  · cases h
  next d ds =>
    split at h
    next hd =>
      cases h
      obtain ⟨htake, hdrop⟩ := takeWhile_of_precedes (fun _ => isNameChar_of_separates) hp
      rw [List.cons_append, atNameExtent?, if_pos hd, htake, hdrop]
    next => cases h

theorem markExtent?_append_right {e : Extent} (h : markExtent? c rest = some e)
    (hp : Lexeme.Precedes ⟨e.kind?, c :: e.tail⟩ e.after ms) :
    markExtent? c (e.tail ++ ms) = some ⟨e.kind?, e.tail, ms⟩ := by
  have hsingle : ∀ k, mark? c = some k → (∀ d, ms.head? = some d → longMark? c d = none) →
      markExtent? c ms = some ⟨some k, [], ms⟩ := by
    intro k hk hl
    cases ms with
    | nil => simp [markExtent?, hk]
    | cons d ds => simp [markExtent?, hk, hl d rfl]
  unfold markExtent? at h
  split at h
  · obtain ⟨k, hk, rfl⟩ := Option.map_eq_some_iff.mp h
    refine hsingle k hk fun d hd => ?_
    rcases hp with hm | ⟨-, hs⟩
    · cases hm.symm.trans hd
    · exact longMark?_of_separates (hs d hd)
  next d ds =>
    split at h
    next k hk =>
      cases h
      simp [markExtent?, hk]
    next hn =>
      obtain ⟨k, hk, rfl⟩ := Option.map_eq_some_iff.mp h
      refine hsingle k hk fun d' hd => ?_
      rcases hp with hm | ⟨-, hs⟩
      · cases hm.symm.trans hd
        exact hn
      · exact longMark?_of_separates (hs d' hd)

theorem runExtent_append_right {kind? : Option TokenKind} {q : Char → Bool}
    (hq : ∀ d, isSpace d ∨ d = '/' → q d = false) (hp : lexeme.Precedes (rest.dropWhile q) ms) :
    runExtent kind? q (rest.takeWhile q ++ ms) = ⟨kind?, rest.takeWhile q, ms⟩ := by
  obtain ⟨htake, hdrop⟩ := takeWhile_of_precedes hq hp
  rw [runExtent, htake, hdrop]

theorem isSpace_append_right (hp : Lexeme.Precedes ⟨none, c :: rest.takeWhile isSpace⟩
      (rest.dropWhile isSpace) ms) (hc : isSpace c) :
    runExtent none isSpace (rest.takeWhile isSpace ++ ms) =
      ⟨none, rest.takeWhile isSpace, ms⟩ := by
  have hm : ms.head? = (rest.dropWhile isSpace).head? := by
    refine hp.resolve_right fun ⟨ho, _⟩ => ?_
    have hr : commentRegion? (c :: rest.takeWhile isSpace) = none :=
      commentRegion?_eq_none (not_mark (by decide) hc)
    simp [Lexeme.isOpen, Lexeme.region?, hr] at ho
  have ht : ∀ d ∈ rest.takeWhile isSpace, isSpace d := fun _ => List.mem_takeWhile_imp
  have hs : ∀ d, ms.head? = some d → isSpace d = false := by
    intro d hd
    have hstop := List.head?_dropWhile_not isSpace rest
    rw [← hm, hd] at hstop
    simpa using hstop
  obtain ⟨htake, hdrop⟩ := takeWhile_of_stops ht hs
  rw [runExtent, htake, hdrop]

/-- How far a lexeme goes depends on what comes next only as `Precedes` says, and a word by whether
it opens a block. -/
theorem extent?_append_right {e : Extent} (h : extent? c rest = some e)
    (hp : Lexeme.Precedes ⟨e.kind?, c :: e.tail⟩ e.after ms)
    (hk : wordKind (String.ofList (c :: e.tail)) ms =
      wordKind (String.ofList (c :: e.tail)) e.after) :
    extent? c (e.tail ++ ms) = some ⟨e.kind?, e.tail, ms⟩ := by
  unfold extent? at h ⊢
  split at h
  next hc =>
    cases h
    rw [if_pos hc]
    exact congrArg some (isSpace_append_right hp hc)
  next hspace =>
  split at h
  next hc =>
    cases h
    obtain ⟨htake, hdrop⟩ := takeWhile_of_precedes (fun _ => isNameChar_of_separates) hp
    rw [if_neg hspace, if_pos hc]
    simp only [wordExtent] at hk ⊢
    rw [htake, hdrop, hk]
  next hsmall =>
  split at h
  next hc =>
    cases h
    rw [if_neg hspace, if_neg hsmall, if_pos hc]
    exact congrArg some (runExtent_append_right (fun _ => isNameChar_of_separates) hp)
  next hcapital =>
  split at h
  next hc =>
    cases h
    rw [if_neg hspace, if_neg hsmall, if_neg hcapital, if_pos hc]
    exact congrArg some (runExtent_append_right (fun _ => isAsciiDigit_of_separates) hp)
  next hdigit =>
  rw [if_neg hspace, if_neg hsmall, if_neg hcapital, if_neg hdigit]
  split at h
  · exact commentExtent?_append_right h hp
  · obtain ⟨q, hq, rfl⟩ := Option.map_eq_some_iff.mp h
    have hr : literalRest? (q.1 ++ ms) = some (q.1, ms) := literalRest?_append_right hq
    simp [closedExtent, hr]
  · obtain ⟨q, hq, rfl⟩ := Option.map_eq_some_iff.mp h
    have hr : bracketBlockRest? (q.1 ++ ms) = some (q.1, ms) :=
      (bracketBlockRest?_append_right hq).1
    simp [closedExtent, hr]
  · obtain ⟨q, hq, rfl⟩ := Option.map_eq_some_iff.mp h
    have hr : flatRest? '\x7b' '\x7d' (q.1 ++ ms) = some (q.1, ms) := flatRest?_append_right hq
    simp [closedExtent, hr]
  · obtain ⟨q, hq, rfl⟩ := Option.map_eq_some_iff.mp h
    have hr : flatRest? '<' '>' (q.1 ++ ms) = some (q.1, ms) := flatRest?_append_right hq
    simp [closedExtent, hr]
  · exact atNameExtent?_append_right h hp
  · exact markExtent?_append_right h hp

/-- A lexeme is read again if it precedes what comes next. -/
theorem lexeme?_append_right (h : lexeme? cs = some (lexeme, after))
    (hp : lexeme.Precedes after ms)
    (hk : wordKind (String.ofList lexeme.text) ms = wordKind (String.ofList lexeme.text) after) :
    lexeme? (lexeme.text ++ ms) = some (lexeme, ms) := by
  cases cs with
  | nil => cases h
  | cons c rest =>
    obtain ⟨e, he, rfl, rfl⟩ := exists_extent h
    rw [List.cons_append, lexeme?, extent?_append_right he hp hk]
    rfl

end Lexer

section Masker

/-- A piece of a masked text that has an end of its own is cut off whatever comes next. -/
theorem cuts_of_closed (hcut : Cuts cs piece rest) (hpiece : piece.isClosed)
    (h : lexeme? (maskChars cs) = some (lexeme, after)) (hr : piece.region? = lexeme.region?)
    (ho : lexeme.isOpen = false) (hn : ∀ c, piece ≠ .char c) (ms : List Char) :
    Cuts (piece.text ++ ms) piece ms := by
  cases hcut with
  | @comment _ p hc =>
    unfold comment? at hc
    split at hc
    next line =>
      cases hc
      obtain ⟨kind?, text⟩ := lexeme
      cases kind? with
      | none =>
        have hregion : (Lexeme.mk none text).region? = some .lineComment := hr.symm
        simp [Lexeme.isOpen, hregion] at ho
      | some k =>
        have hregion : k.region? = some .lineComment := hr.symm
        exact absurd rfl (commentRegion?_ne hregion ['/', '/'])
    next block =>
      cases hc
      cases hb : throughCommentEnd? block with
      | none =>
        have hms : maskChars ('/' :: '*' :: block) = '/' :: '*' :: block := by
          rw [maskChars, pieces_comment rfl]
          simp [hb, pieces_nil, Piece.masked, Piece.text]
        rw [hms] at h
        obtain ⟨e, he, -, -⟩ := exists_extent h
        change commentExtent? ('*' :: block) = some e at he
        simp [commentExtent?, hb] at he
      | some q =>
        have ht : throughCommentEnd? (q.1 ++ ms) = some (q.1, ms) :=
          throughCommentEnd?_append_right hb
        have hcomment : comment? ('/' :: '*' :: (q.1 ++ ms)) = some ('/' :: '*' :: q.1, ms) := by
          simp [comment?, ht]
        have hcut := Cuts.comment hcomment
        exact hcut
    next => cases hc
  | @literal rest =>
    obtain ⟨rfl, -⟩ := lexeme?_maskChars_quoted h
    obtain ⟨body, hb, ht⟩ := literal_of_lexeme? h
    have hquoted : (quotedRest '\'' rest).1 = body ++ ['\''] := (List.cons.inj ht).2
    have hcut : Cuts ('\'' :: (body ++ '\'' :: ms)) _ _ := .literal
    rw [quotedRest_of_literalBody hb] at hcut
    simpa [Piece.text, hquoted] using hcut
  | @bracket rest =>
    rw [maskChars, pieces_bracket] at h
    obtain ⟨e, he, rfl, rfl⟩ := exists_extent h
    obtain ⟨q, hq, rfl⟩ := Option.map_eq_some_iff.mp he
    cases bracketBlockRest?_of_bracketRest (head?_maskChars _) hq
    have hcut : Cuts ('[' :: ((bracketRest rest).1 ++ ms)) _ _ := .bracket
    rw [(bracketBlockRest?_append_right hq).2] at hcut
    exact hcut
  | @block rest body after hb =>
    have hcut : Cuts ('\x7b' :: (body ++ '\x7d' :: ms)) (.block body) ms :=
      .block (blockBody?_append_right hb)
    simpa [Piece.text] using hcut
  | unclosed => cases hpiece
  | char => exact absurd rfl (hn _)

/-- A lexeme of a masked text covers a stretch of the text, which is masked to the lexeme whatever
comes next if the lexeme has an end of its own. -/
structure Covers (cs : List Char) (lexeme : Lexeme) (stretch rest : List Char) : Prop where
  text : cs = stretch ++ rest
  length : stretch.length = lexeme.text.length
  spelled : stretch = lexeme.text ∨ ∃ c ∈ stretch, c ∈ ['/', '\'', '[', '\x7b'] ∧ c ∈ lexeme.text
  plain : '<' ∉ rest
  closed : Closed rest
  masked : ∀ ms, ms.head? = rest.head? ∨ lexeme.isOpen = false →
    maskChars (stretch ++ ms) = lexeme.text ++ maskChars ms

theorem exists_covers (hangle : '<' ∉ cs) (hclosed : Closed cs)
    (h : lexeme? (maskChars cs) = some (lexeme, after)) :
    ∃ stretch rest, Covers cs lexeme stretch rest ∧ maskChars rest = after := by
  have hplain : ∀ {stretch rest}, cs = stretch ++ rest → '<' ∉ rest := by
    rintro stretch rest rfl hm
    exact hangle (List.mem_append_right _ hm)
  have huntouched : Plain lexeme.text →
      ∃ stretch rest, Covers cs lexeme stretch rest ∧ maskChars rest = after := by
    intro ht
    obtain ⟨rest, hp, ha⟩ := pieces_plain (lexeme?_append h) ht
    have htext : cs = lexeme.text ++ rest := by
      rw [text_of_pieces hp, List.flatMap_map]
      exact congrArg (· ++ rest) (List.flatMap_singleton' _)
    exact ⟨lexeme.text, rest, ⟨htext, rfl, .inl rfl, hplain htext, hclosed.of_append hp,
      fun ms _ => untouched_of_forall ht ms⟩, ha⟩
  cases meets_of_lexeme? h with
  | @piece piece rest hp ht hr ha =>
    have hcut : Cuts cs piece rest := .of_pieces hp
    have htext : cs = piece.text ++ rest := hcut.append_eq.symm
    by_cases hn : ∃ c, piece = .char c
    · obtain ⟨c, rfl⟩ := hn
      refine huntouched ?_
      cases hcut with
      | char hc hm =>
        rw [← ht]
        refine plain_cons ?_ plain_nil
        rintro (_ | ⟨_, hmark⟩)
        · -- A slash alone is no lexeme.
          rw [maskChars, hp] at h
          obtain ⟨e, he, rfl, -⟩ := exists_extent h
          change commentExtent? (maskChars rest) = some e at he
          unfold commentExtent? at he
          have hnil : e.tail = [] := (List.cons.inj ht).2.symm
          split at he
          · cases he
            cases hnil
          · obtain ⟨q, -, rfl⟩ := Option.map_eq_some_iff.mp he
            cases hnil
          · cases he
        · exact hm hmark
    have hmasked : ∀ {ms}, Cuts (piece.text ++ ms) piece ms →
        maskChars (piece.text ++ ms) = lexeme.text ++ maskChars ms := by
      intro ms hcut
      rw [maskChars, hcut.pieces_eq, List.flatMap_cons, ht]
      rfl
    have hrest : Closed rest := hclosed.of_append (hp.trans List.singleton_append.symm)
    refine ⟨piece.text, rest, ⟨htext, ?_, ?_, hplain htext, hrest, ?_⟩, ha⟩
    · rw [← ht, (masks_piece piece).length_eq]
    · rw [← ht]
      cases piece with
      | block body => exact .inr ⟨'\x7b', List.mem_cons_self, by simp, List.mem_cons_self⟩
      | _ => exact .inl rfl
    · rintro ms (hm | ho)
      · by_cases hr : rest = []
        · subst hr
          cases List.head?_eq_none_iff.mp hm
          exact hmasked (htext ▸ hcut)
        · exact hmasked (hcut.append_right hr hm)
      · have hpiece := hclosed piece (hp ▸ List.mem_cons_self)
        exact hmasked (cuts_of_closed hcut hpiece h hr ho (fun c hc => hn ⟨c, hc⟩) ms)
  | plain ht => exact huntouched ht
  | angle hk =>
    have hh := head?_of_angleBlock h hk
    rw [head?_maskChars] at hh
    exact absurd (List.mem_of_head? hh) hangle
  | unclosed hp => cases hclosed (.unclosed cs) (hp ▸ List.mem_singleton_self _)

end Masker

end GrammarDoc.Source
