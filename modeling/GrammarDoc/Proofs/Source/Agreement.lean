import GrammarDoc.Proofs.Source.Passing
import GrammarDoc.Proofs.Source.Verbatim

namespace GrammarDoc.Source

open Text (Position Span)

variable {cs rest after : List Char} {ps : List Piece} {place : Position}

/-- A piece of a text ends at a place. -/
def CutAt (cs : List Char) (place : Position) : Prop :=
  ∃ ps qs, pieces cs = ps ++ qs ∧ place = Position.start.after (ps.flatMap Piece.text)

/-- Element options after which the masker goes on as if they were not there: they hold no mark that
opens a comment, a literal or a block, or else a piece ends with them. -/
def Settles (cs text : List Char) (last : Position) : Prop :=
  (∀ c ∈ text, c ∉ ['/', '\'', '[', '\x7b']) ∨ CutAt cs last

theorem pieces_of_append {ps qs : List Piece} (h : pieces cs = ps ++ qs) :
    pieces (qs.flatMap Piece.text) = qs := by
  induction ps generalizing cs with
  | nil =>
    cases h
    rw [pieces_text]
  | cons p ps ih =>
    obtain ⟨rest, -, hrest⟩ := cuts_of_pieces h
    exact ih hrest

theorem after_masked (place : Position) (ps : List Piece) :
    place.after (ps.flatMap Piece.masked) = place.after (ps.flatMap Piece.text) :=
  after_masks place (masks_pieces ps)

/-- If a piece ends where a lexeme does, the text after the lexeme is masked on its own. -/
theorem after_eq_of_length {lexeme : Lexeme} {qs us : List Piece}
    (hp : pieces cs = ps ++ pieces rest) (h : lexeme? (maskChars rest) = some (lexeme, after))
    (hcut : pieces cs = qs ++ us) (hlen : (ps.flatMap Piece.text).length + lexeme.text.length =
      (qs.flatMap Piece.text).length) : after = us.flatMap Piece.masked := by
  have hmasked : (ps.flatMap Piece.masked ++ lexeme.text).length =
      (qs.flatMap Piece.masked).length := by
    rw [List.length_append, length_masked, length_masked, hlen]
  have hms : (ps.flatMap Piece.masked ++ lexeme.text) ++ after =
      qs.flatMap Piece.masked ++ us.flatMap Piece.masked := by
    rw [List.append_assoc, lexeme?_append h, maskChars, ← List.flatMap_append, ← hp, hcut,
      List.flatMap_append]
  exact (List.append_inj hms hmasked).2

theorem after_eq_of_cut {lexeme : Lexeme} {qs us : List Piece} (hp : pieces cs = ps ++ pieces rest)
    (h : lexeme? (maskChars rest) = some (lexeme, after)) (hcut : pieces cs = qs ++ us)
    (hend : Position.start.after (ps.flatMap Piece.text ++ lexeme.text) =
      Position.start.after (qs.flatMap Piece.text)) : after = us.flatMap Piece.masked := by
  have happ := lexeme?_append h
  have hm := masks_maskChars rest
  rw [← happ] at hm
  obtain ⟨stretch, later, rfl, hs, -⟩ := exists_append_of_forall₂ hm
  have hcs : (ps.flatMap Piece.text ++ stretch) ++ later =
      qs.flatMap Piece.text ++ us.flatMap Piece.text := by
    rw [List.append_assoc, ← text_of_pieces hp, ← List.flatMap_append, ← hcut, pieces_text]
  have hplace : Position.start.after (ps.flatMap Piece.text ++ stretch) =
      Position.start.after (qs.flatMap Piece.text) := by
    rw [← hend, Position.after_append, Position.after_append, after_masks _ hs]
  have heq := Position.eq_of_after_eq hcs hplace
  refine after_eq_of_length hp h hcut ?_
  rw [← heq, List.length_append, hs.length_eq]

/-- A lexeme that starts with a piece ends with one if element options settle, or else the rest of
the text is not masked. -/
theorem exists_cut_after {lexeme : Lexeme} (hp : pieces cs = ps ++ pieces rest)
    (hplace : place = Position.start.after (ps.flatMap Piece.text))
    (h : lexeme? (maskChars rest) = some (lexeme, after))
    (ha : lexeme.kind? = some .angleBlock → Settles cs lexeme.text (place.after lexeme.text)) :
    (∃ before, cs = before ++ after ∧ place.after lexeme.text = Position.start.after before) ∨
      ∃ qs later, pieces cs = qs ++ pieces later ∧
        place.after lexeme.text = Position.start.after (qs.flatMap Piece.text) ∧
        after = maskChars later := by
  have hpasses : Passes rest lexeme.text after → ∃ qs later, pieces cs = qs ++ pieces later ∧
      place.after lexeme.text = Position.start.after (qs.flatMap Piece.text) ∧
      after = maskChars later := by
    rintro ⟨qs, later, hq, htext, rfl⟩
    refine ⟨ps ++ qs, later, by rw [hp, hq, List.append_assoc], ?_, rfl⟩
    rw [← htext, after_masked, hplace, List.flatMap_append, Position.after_append]
  rcases passes_of_lexeme? h with hfree | hangle | hpass
  · left
    rw [hfree] at h
    refine ⟨ps.flatMap Piece.text ++ lexeme.text, ?_, ?_⟩
    · rw [List.append_assoc, lexeme?_append h, ← text_of_pieces hp]
    · rw [hplace, Position.after_append]
  · right
    rcases ha hangle with hplain | ⟨qs, us, hcut, hend⟩
    · exact hpasses (passes_plain (lexeme?_append h) hplain)
    · refine ⟨qs, us.flatMap Piece.text, by rw [pieces_of_append hcut, hcut], hend, ?_⟩
      rw [maskChars, pieces_of_append hcut]
      refine after_eq_of_cut hp h hcut ?_
      rw [← hend, hplace, Position.after_append]
  · exact .inr (hpasses hpass)

theorem verbatim_of_unmasked {before : List Char} {t : Token} (hcs : cs = before ++ rest)
    (hplace : place = Position.start.after before) (h : t ∈ (readFrom place rest).tokens) :
    Verbatim cs t := by
  obtain ⟨earlier, later, rfl, -, hspan⟩ := exists_lexeme_of_mem_tokens h
  refine ⟨before ++ earlier, later, by rw [hcs, List.append_assoc], ?_⟩
  simp only [hspan, hplace, Span.following, Position.after_append, List.append_assoc]

theorem verbatim_of_literal {t : Token} (hp : pieces cs = ps ++ pieces rest)
    (hplace : t.span.first = Position.start.after (ps.flatMap Piece.text))
    (h : lexeme? (maskChars rest) = some (⟨some .literal, t.text.toList⟩, after))
    (hspan : t.span.last = t.span.first.after t.text.toList) : Verbatim cs t := by
  obtain ⟨body, -, htext⟩ := literal_of_lexeme? h
  have happ := lexeme?_append h
  rw [htext] at happ
  obtain ⟨rest, rfl⟩ := exists_cons_of_maskChars happ.symm
  obtain ⟨hlex, -⟩ := lexeme?_maskChars_quoted h
  have ht : t.text.toList = '\'' :: (quotedRest '\'' rest).1 := (Lexeme.mk.inj hlex).2
  refine ⟨ps.flatMap Piece.text, (quotedRest '\'' rest).2, ?_, ?_⟩
  · rw [ht, List.cons_append, quotedRest_append, ← text_of_pieces hp]
  · rw [Span.following, Position.after_append, ← hplace, ← hspan]

/-- From the start of a piece on every literal is verbatim if all element options settle. -/
theorem verbatim_of_settles {ms : List Char} (hp : pieces cs = ps ++ pieces rest)
    (hplace : place = Position.start.after (ps.flatMap Piece.text)) (hms : ms = maskChars rest)
    (ha : ∀ t ∈ (readFrom place ms).tokens, t.kind = .angleBlock →
      Settles cs t.text.toList t.span.last) :
    ∀ t ∈ (readFrom place ms).tokens, t.kind = .literal → Verbatim cs t := by
  -- Along the reading, the pieces that were passed and the text after them make up the whole text.
  fun_induction readFrom place ms generalizing ps rest with
  | case1 => simp
  | case2 => simp
  | case3 =>
    rename_i place c cs' lexeme after hl _ next later hk ih
    have hangle : lexeme.kind? = some .angleBlock → Settles cs lexeme.text next := by
      rw [hk]
      intro hn
      cases hn
    intro t ht
    rcases exists_cut_after hp hplace (hms ▸ hl) hangle with
      ⟨before, hcs, hb⟩ | ⟨qs, us, hq, hb, hu⟩
    · exact fun _ => verbatim_of_unmasked hcs hb ht
    · exact ih hq hb hu ha t ht
  | case4 =>
    rename_i place c cs' lexeme after hl _ next later kind hk ih
    have hangle : lexeme.kind? = some .angleBlock → Settles cs lexeme.text next := by
      intro hs
      have hset := ha _ List.mem_cons_self (Option.some.inj (hk.symm.trans hs))
      rwa [String.toList_ofList] at hset
    intro t ht hlit
    rcases List.mem_cons.mp ht with rfl | ht
    · obtain ⟨_, text⟩ := lexeme
      cases hk
      cases hlit
      rw [hms] at hl
      rw [← String.toList_ofList (l := text)] at hl
      refine verbatim_of_literal hp hplace hl ?_
      simp [next]
    · rcases exists_cut_after hp hplace (hms ▸ hl) hangle with
        ⟨before, hcs, hb⟩ | ⟨qs, us, hq, hb, hu⟩
      · exact verbatim_of_unmasked hcs hb ht
      · exact ih hq hb hu (fun u hm => ha u (List.mem_cons_of_mem _ hm)) t ht hlit

/-- Where all element options settle, the masker and the lexer agree on every literal. -/
theorem verbatim_literals (ha : ∀ t ∈ (readTokens (maskChars cs)).tokens, t.kind = .angleBlock →
      Settles cs t.text.toList t.span.last) :
    ∀ t ∈ (readTokens (maskChars cs)).tokens, t.kind = .literal → Verbatim cs t :=
  verbatim_of_settles (List.nil_append _).symm rfl rfl ha

end GrammarDoc.Source
