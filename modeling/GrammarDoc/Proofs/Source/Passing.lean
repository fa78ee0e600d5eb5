import GrammarDoc.Proofs.Source.Regions

namespace GrammarDoc.Source

variable {cs ms rest text after : List Char} {c : Char}

/-- What the masker and the lexer both pass as one stretch of text. -/
inductive Region where
  | lineComment
  | blockComment
  | literal
  | bracketBlock
  | braceBlock
deriving Repr, DecidableEq

/-- The first two characters tell what kind of comment a text is. -/
def commentRegion? : List Char → Option Region
  | '/' :: '/' :: _ => some .lineComment
  | '/' :: '*' :: _ => some .blockComment
  | _ => none

def TokenKind.region? : TokenKind → Option Region
  | .literal => some .literal
  | .bracketBlock => some .bracketBlock
  | .braceBlock => some .braceBlock
  | _ => none

def Lexeme.region? (lexeme : Lexeme) : Option Region :=
  match lexeme.kind? with
  | none => commentRegion? lexeme.text
  | some kind => kind.region?

def Piece.region? : Piece → Option Region
  | .comment text => commentRegion? text
  | .literal _ => some .literal
  | .bracket _ => some .bracketBlock
  | .block _ => some .braceBlock
  | .char _ => none
  | .unclosed _ => none

theorem commentRegion?_eq_none (hc : c ∉ ['/', '\'', '[', '\x7b']) :
    commentRegion? (c :: text) = none := by
  unfold commentRegion?
  split <;> simp_all

theorem region?_of_mem_wordKinds {k : TokenKind} (h : k ∈ wordKinds) : k.region? = none := by
  revert k
  decide

theorem region?_of_mem_markKinds {k : TokenKind} (h : k ∈ markKinds) : k.region? = none := by
  revert k
  decide

/-- Some first pieces of a text have a given text when masked, and what is after them has another
one. -/
def Passes (cs text after : List Char) : Prop :=
  ∃ ps rest, pieces cs = ps ++ pieces rest ∧ ps.flatMap Piece.masked = text ∧
    maskChars rest = after

theorem text_of_pieces {ps : List Piece} (h : pieces cs = ps ++ pieces rest) :
    cs = ps.flatMap Piece.text ++ rest := by
  rw [← pieces_text cs, h, List.flatMap_append, pieces_text]

theorem Cuts.append_eq {piece : Piece} (h : Cuts cs piece rest) : piece.text ++ rest = cs := by
  have htext := text_of_pieces (h.pieces_eq.trans List.singleton_append.symm)
  simpa using htext.symm

theorem Cuts.of_pieces {piece : Piece} (h : pieces cs = piece :: pieces rest) :
    Cuts cs piece rest := by
  obtain ⟨rest', hcut, -⟩ := cuts_of_pieces h
  have htext : piece.text ++ rest = cs := by
    simpa using (text_of_pieces (h.trans List.singleton_append.symm)).symm
  obtain rfl := List.append_cancel_left (hcut.append_eq.trans htext.symm)
  exact hcut

/-- A text without a mark that opens a comment, a literal or a block. -/
def Plain (text : List Char) : Prop :=
  ∀ c ∈ text, c ∉ ['/', '\'', '[', '\x7b']

theorem plain_cons (hc : c ∉ ['/', '\'', '[', '\x7b']) (h : Plain text) : Plain (c :: text) := by
  intro d hd
  rcases List.mem_cons.mp hd with rfl | hd
  · exact hc
  · exact h d hd

theorem plain_nil : Plain [] := by
  intro c hc
  cases hc

theorem pieces_plain (h : text ++ after = maskChars cs) (ht : Plain text) :
    ∃ rest, pieces cs = text.map Piece.char ++ pieces rest ∧ maskChars rest = after := by
  induction text generalizing cs with
  | nil => exact ⟨cs, rfl, h.symm⟩
  | cons d text ih =>
    have hd := ht d List.mem_cons_self
    obtain ⟨rest, rfl⟩ := exists_cons_of_maskChars h.symm
    rw [maskChars_cons hd] at h
    obtain ⟨rest', hp, ha⟩ := ih (List.cons.inj h).2 fun c hc => ht c (List.mem_cons_of_mem _ hc)
    simp only [List.mem_cons, List.not_mem_nil, or_false, not_or] at hd
    have hc : pieces (d :: rest) = .char d :: pieces rest :=
      pieces_char (comment?_eq_none hd.1) (by simp [hd])
    exact ⟨rest', by rw [hc, hp, List.map_cons, List.cons_append], ha⟩

theorem passes_plain (h : text ++ after = maskChars cs) (ht : Plain text) :
    Passes cs text after := by
  obtain ⟨rest, hp, ha⟩ := pieces_plain h ht
  refine ⟨_, rest, hp, ?_, ha⟩
  rw [List.flatMap_map]
  exact List.flatMap_singleton' text

/-- No mark that opens a piece belongs to a class of characters that none of them belongs to. -/
theorem not_mark {q : Char → Bool} (hq : ['/', '\'', '[', '\x7b'].all fun d => !q d) (hc : q c) :
    c ∉ ['/', '\'', '[', '\x7b'] := by
  intro hm
  have hn := List.all_eq_true.mp hq c hm
  rw [hc] at hn
  cases hn

theorem plain_takeWhile {q : Char → Bool} (hq : ['/', '\'', '[', '\x7b'].all fun d => !q d)
    (cs : List Char) : Plain (cs.takeWhile q) :=
  fun _ hd => not_mark hq (List.mem_takeWhile_imp hd)

theorem plain_atName {e : Extent} (h : atNameExtent? ms = some e) : Plain e.tail := by
  unfold atNameExtent? at h
  split at h
  · cases h
  next d ds =>
    split at h
    next hd =>
      cases h
      have hq : ['/', '\'', '[', '\x7b'].all fun d => !(isSmall d || isCapital d || d == '_') := by
        decide
      exact plain_cons (not_mark hq hd) (plain_takeWhile (by decide) ds)
    next => cases h

theorem plain_longMark {d : Char} {k : TokenKind} (h : longMark? c d = some k) :
    Plain [c, d] := by
  unfold longMark? at h
  split at h
  case h_5 => cases h
  all_goals exact plain_cons (by decide) (plain_cons (by decide) plain_nil)

theorem plain_mark {e : Extent} (h : markExtent? c ms = some e)
    (hm : c ∉ ['\'', '[', '\x7b']) : Plain (c :: e.tail) := by
  have hmark : ∀ k, mark? c = some k → Plain [c] := by
    intro k hk
    refine plain_cons ?_ plain_nil
    rintro (_ | ⟨_, hc⟩)
    · cases hk
    · exact hm hc
  unfold markExtent? at h
  split at h
  · obtain ⟨k, hk, rfl⟩ := Option.map_eq_some_iff.mp h
    exact hmark k hk
  next d ds =>
    split at h
    next k hk =>
      cases h
      exact plain_longMark hk
    next =>
      obtain ⟨k, hk, rfl⟩ := Option.map_eq_some_iff.mp h
      exact hmark k hk

/-- Outside literals and blocks a lexeme holds no mark, unless it is element options. -/
theorem plain_of_extends {e : Extent} (hc : comment? (c :: cs) = none)
    (hm : c ∉ ['\'', '[', '\x7b']) (h : Extends c (maskChars cs) e) :
    e.kind? = some .angleBlock ∨
      (Plain (c :: e.tail) ∧ Lexeme.region? ⟨e.kind?, c :: e.tail⟩ = none) := by
  cases h with
  | space hs =>
    have hp := not_mark (by decide) hs
    exact .inr ⟨plain_cons hp (plain_takeWhile (by decide) _), commentRegion?_eq_none hp⟩
  | word hs =>
    exact .inr ⟨plain_cons (not_mark (by decide) hs) (plain_takeWhile (by decide) _),
      region?_of_mem_wordKinds (wordKind_mem _ _)⟩
  | tokenName hs =>
    exact .inr ⟨plain_cons (not_mark (by decide) hs) (plain_takeWhile (by decide) _), rfl⟩
  | integer hs =>
    exact .inr ⟨plain_cons (not_mark (by decide) hs) (plain_takeWhile (by decide) _), rfl⟩
  | comment he =>
    unfold commentExtent? at he
    split at he
    next hd =>
      obtain ⟨rest, rfl⟩ := exists_cons_of_maskChars hd
      cases hc
    next hd =>
      obtain ⟨rest, rfl⟩ := exists_cons_of_maskChars hd
      cases hc
    next => cases he
  | literal => exact absurd hm (by decide)
  | bracketBlock => exact absurd hm (by decide)
  | braceBlock => exact absurd hm (by decide)
  | angleBlock => exact .inl rfl
  | atName he =>
    refine .inr ⟨plain_cons (by decide) (plain_atName he), ?_⟩
    rw [atNameExtent?_kind he]
    rfl
  | mark he =>
    obtain ⟨k, hk, he'⟩ := markExtent?_mem he
    exact .inr ⟨plain_mark he hm, he' ▸ region?_of_mem_markKinds hk⟩

theorem exists_extent {lexeme : Lexeme} (h : lexeme? (c :: rest) = some (lexeme, after)) :
    ∃ e, extent? c rest = some e ∧ lexeme = ⟨e.kind?, c :: e.tail⟩ ∧ after = e.after := by
  obtain ⟨e, he, hp⟩ := Option.map_eq_some_iff.mp h
  cases hp
  exact ⟨e, he, rfl, rfl⟩

theorem lexeme?_maskChars_quoted {lexeme : Lexeme}
    (h : lexeme? (maskChars ('\'' :: rest)) = some (lexeme, after)) :
    lexeme = ⟨some .literal, '\'' :: (quotedRest '\'' rest).1⟩ ∧
      after = maskChars (quotedRest '\'' rest).2 := by
  rw [maskChars, pieces_literal] at h
  obtain ⟨e, he, rfl, rfl⟩ := exists_extent h
  obtain ⟨q, hq, rfl⟩ := Option.map_eq_some_iff.mp he
  cases literalRest?_of_quotedRest (head?_maskChars _) hq
  exact ⟨rfl, rfl⟩

/-- How the first lexeme of a masked text lies on the pieces of the text: it is the first piece, or
it goes over single characters. Nothing is said about element options, nor if the whole text is a
block that is never closed. -/
inductive Meets (cs : List Char) (lexeme : Lexeme) (after : List Char) : Prop
  | piece {piece : Piece} {rest : List Char} : pieces cs = piece :: pieces rest →
      piece.masked = lexeme.text → piece.region? = lexeme.region? → maskChars rest = after →
      Meets cs lexeme after
  | plain : Plain lexeme.text → lexeme.region? = none → Meets cs lexeme after
  | angle : lexeme.kind? = some .angleBlock → Meets cs lexeme after
  | unclosed : pieces cs = [.unclosed cs] → Meets cs lexeme after

theorem meets_of_lexeme? {lexeme : Lexeme} (h : lexeme? (maskChars cs) = some (lexeme, after)) :
    Meets cs lexeme after := by
  have hn : cs ≠ [] := by
    rintro rfl
    rw [maskChars_nil] at h
    cases h
  obtain ⟨piece, rest, hcut, hp⟩ := exists_cut hn
  have hms : maskChars cs = piece.masked ++ maskChars rest := by
    simp [maskChars, hp]
  have hhead := head?_maskChars rest
  cases hcut with
  | @comment _ p hc =>
    obtain ⟨tail, ht⟩ : ∃ tail, p.1 ++ maskChars p.2 = '/' :: tail := by
      unfold comment? at hc
      split at hc <;> cases hc <;> exact ⟨_, rfl⟩
    have hslash : maskChars cs = '/' :: tail := hms.trans ht
    rw [hslash] at h
    obtain ⟨e, he, rfl, rfl⟩ := exists_extent h
    obtain ⟨htext, hafter⟩ := commentExtent?_of_comment? hc hhead ht he
    have hregion : Lexeme.region? ⟨e.kind?, '/' :: e.tail⟩ = commentRegion? p.1 := by
      rw [commentExtent?_kind he, htext]
      rfl
    exact .piece hp htext.symm hregion.symm hafter.symm
  | literal =>
    obtain ⟨rfl, rfl⟩ := lexeme?_maskChars_quoted h
    exact .piece hp rfl rfl rfl
  | bracket =>
    rw [hms] at h
    obtain ⟨e, he, rfl, rfl⟩ := exists_extent h
    obtain ⟨q, hq, rfl⟩ := Option.map_eq_some_iff.mp he
    cases bracketBlockRest?_of_bracketRest hhead hq
    exact .piece hp rfl rfl rfl
  | @block _ body =>
    rw [hms] at h
    obtain ⟨e, he, rfl, rfl⟩ := exists_extent h
    obtain ⟨q, hq, rfl⟩ := Option.map_eq_some_iff.mp he
    have happ : body.map blankOut ++ ['\x7d'] ++ maskChars rest =
        body.map blankOut ++ '\x7d' :: maskChars rest := by simp
    change flatRest? _ _ (body.map blankOut ++ ['\x7d'] ++ maskChars rest) = some q at hq
    rw [happ, flatRest?_map_blankOut] at hq
    cases hq
    exact .piece hp rfl rfl rfl
  | unclosed =>
    rw [pieces_nil] at hp
    exact .unclosed hp
  | char hc hm =>
    rw [hms] at h
    obtain ⟨e, he, rfl, rfl⟩ := exists_extent h
    rcases plain_of_extends hc hm (extends_of_extent? he) with hangle | ⟨hplain, hregion⟩
    · exact .angle hangle
    · exact .plain hplain hregion

/-- From the start of a piece on, the lexer ends a lexeme at the end of a piece, unless it is
element options or the rest of the text is not masked. -/
theorem passes_of_lexeme? {lexeme : Lexeme} (h : lexeme? (maskChars cs) = some (lexeme, after)) :
    maskChars cs = cs ∨ lexeme.kind? = some .angleBlock ∨ Passes cs lexeme.text after := by
  cases meets_of_lexeme? h with
  | piece hp ht _ ha => exact .inr (.inr ⟨[_], _, hp, by simpa using ht, ha⟩)
  | plain ht => exact .inr (.inr (passes_plain (lexeme?_append h) ht))
  | angle hk => exact .inr (.inl hk)
  | unclosed hp =>
    left
    rw [maskChars, hp]
    exact List.append_nil cs

end GrammarDoc.Source
