import GrammarDoc.Proofs.Source.Lexemes

namespace GrammarDoc.Source

open Text (Position)

/-- What the parser and extraction know of a token. -/
abbrev Word := TokenKind × String

def Token.word (t : Token) : Word :=
  (t.kind, t.text)

/-- The words of a header that declares a grammar. -/
def headerWords : List Word :=
  [(.grammar, "grammar"), (.tokenName, "G"), (.semicolon, ";")]

/-- A text spells some words up to a given rest. -/
inductive Spells : List Char → List Word → List Char → Prop
  | done {cs : List Char} : Spells cs [] cs
  | blank {cs text after rest : List Char} {ws : List Word} :
      lexeme? cs = some (⟨none, text⟩, after) → Spells after ws rest → Spells cs ws rest
  | word {cs text after rest : List Char} {ws : List Word} {k : TokenKind} :
      lexeme? cs = some (⟨some k, text⟩, after) → Spells after ws rest →
      Spells cs ((k, String.ofList text) :: ws) rest

variable {cs text after rest tail : List Char} {ws vs : List Word} {c : Char}

theorem spells_append (h : Spells cs ws after) (h' : Spells after vs rest) :
    Spells cs (ws ++ vs) rest := by
  induction h with
  | done => exact h'
  | blank hl _ ih => exact .blank hl (ih h')
  | word hl _ ih => exact .word hl (ih h')

theorem readFrom_of_lexeme? {lexeme : Lexeme} (place : Position)
    (h : lexeme? cs = some (lexeme, after)) :
    readFrom place cs = match lexeme.kind? with
      | none => readFrom (place.after lexeme.text) after
      | some kind =>
        ⟨⟨kind, String.ofList lexeme.text, ⟨place, place.after lexeme.text⟩⟩ ::
          (readFrom (place.after lexeme.text) after).tokens,
          (readFrom (place.after lexeme.text) after).stop?⟩ := by
  cases cs with
  | nil => cases h
  | cons c cs =>
    rw [readFrom]
    split
    next hn => cases hn.symm.trans h
    next l a hs =>
      cases hs.symm.trans h
      rfl

/-- A text that spells some words to its end is read as tokens with these words. -/
theorem readFrom_of_spells (h : Spells cs ws []) (place : Position) :
    (readFrom place cs).stop? = none ∧ (readFrom place cs).tokens.map Token.word = ws := by
  generalize hr : ([] : List Char) = rest at h
  induction h generalizing place with
  | done =>
    subst hr
    rw [readFrom]
    exact ⟨rfl, rfl⟩
  | blank hl _ ih =>
    rw [readFrom_of_lexeme? place hl]
    exact ih _ hr
  | word hl _ ih =>
    rw [readFrom_of_lexeme? place hl]
    obtain ⟨hs, hw⟩ := ih (place.after _) hr
    exact ⟨hs, congrArg _ hw⟩

theorem takeWhile_of_stops {p : Char → Bool} (ht : ∀ d ∈ tail, p d)
    (hr : ∀ d, rest.head? = some d → p d = false) :
    (tail ++ rest).takeWhile p = tail ∧ (tail ++ rest).dropWhile p = rest := by
  rw [List.takeWhile_append_of_pos ht, List.dropWhile_append_of_pos ht]
  cases rest with
  | nil => simp
  | cons d ds =>
    have hd := hr d rfl
    simp [hd]

theorem isSmall_eq_false_of_isCapital (hc : isCapital c) : isSmall c = false := by
  simp only [isSmall, isCapital, Bool.and_eq_true, decide_eq_true_eq, Bool.and_eq_false_iff,
    decide_eq_false_iff_not, Char.le_def] at hc ⊢
  left
  intro h
  exact absurd (UInt32.le_trans h hc.2) (by decide)

theorem lexeme?_literal {body : List Char} (h : LiteralBody body) :
    lexeme? ('\'' :: (body ++ '\'' :: rest)) =
      some (⟨some .literal, '\'' :: (body ++ ['\''])⟩, rest) := by
  have he : extent? '\'' (body ++ '\'' :: rest) =
      (literalRest? (body ++ '\'' :: rest)).map (closedExtent .literal) := rfl
  rw [lexeme?, he, literalRest?_of_literalBody h]
  rfl

theorem lexeme?_word (h : IsName isSmall text)
    (hr : ∀ d, rest.head? = some d → isNameChar d = false) :
    lexeme? (text ++ rest) =
      some (⟨some (wordKind (String.ofList text) rest), text⟩, rest) := by
  obtain ⟨c, tail, rfl, hc, ht⟩ := h
  obtain ⟨htake, hdrop⟩ := takeWhile_of_stops ht hr
  have he : extent? c (tail ++ rest) = some (wordExtent c (tail ++ rest)) := by
    simp [extent?, isSpace_eq_false_of_isNameChar (isNameChar_of_isSmall hc), hc]
  rw [List.cons_append, lexeme?, he, wordExtent, htake, hdrop]
  rfl

theorem lexeme?_tokenName (h : IsName isCapital text)
    (hr : ∀ d, rest.head? = some d → isNameChar d = false) :
    lexeme? (text ++ rest) = some (⟨some .tokenName, text⟩, rest) := by
  obtain ⟨c, tail, rfl, hc, ht⟩ := h
  obtain ⟨htake, hdrop⟩ := takeWhile_of_stops ht hr
  have he : extent? c (tail ++ rest) =
      some (runExtent (some .tokenName) isNameChar (tail ++ rest)) := by
    simp [extent?, isSpace_eq_false_of_isNameChar (isNameChar_of_isCapital hc),
      isSmall_eq_false_of_isCapital hc, hc]
  rw [List.cons_append, lexeme?, he, runExtent, htake, hdrop]
  rfl

/-- A space passes over no more than itself if no other one follows. -/
theorem lexeme?_space (hc : isSpace c) (hr : ∀ d, rest.head? = some d → isSpace d = false) :
    lexeme? (c :: rest) = some (⟨none, [c]⟩, rest) := by
  have he : extent? c rest = some (runExtent none isSpace rest) := by
    simp [extent?, hc]
  rw [lexeme?, he]
  cases rest with
  | nil => rfl
  | cons d ds => simp [runExtent, hr d rfl]

theorem lexeme?_mark {k : TokenKind} (he : extent? c rest = markExtent? c rest)
    (hk : mark? c = some k) (hl : ∀ d, rest.head? = some d → longMark? c d = none) :
    lexeme? (c :: rest) = some (⟨some k, [c]⟩, rest) := by
  rw [lexeme?, he]
  cases rest with
  | nil => simp [markExtent?, hk]
  | cons d ds => simp [markExtent?, hk, hl d rfl]

/-- A word is a name if it is no keyword and opens no block. -/
theorem wordKind_eq_ruleName_iff {word : String} :
    wordKind word rest = .ruleName ↔ keywords.lookup word = none ∧
      ((rest.dropWhile Text.isBlank).head? = some '\x7b' → blockOpeners.lookup word = none) := by
  have hk : ∀ k, keywords.lookup word = some k → k ≠ .ruleName := by
    rintro k h rfl
    exact absurd (mem_of_lookup h) (by decide)
  have ho : ∀ k, blockOpeners.lookup word = some k → k ≠ .ruleName := by
    rintro k h rfl
    exact absurd (mem_of_lookup h) (by decide)
  unfold wordKind
  cases hw : keywords.lookup word with
  | none =>
    split
    next hb =>
      cases hl : blockOpeners.lookup word with
      | none => simp
      | some k => simp [hb, ho k hl]
    next hb => simp [hb]
  | some k =>
    split
    next =>
      cases hl : blockOpeners.lookup word with
      | none => simp [hk k hw]
      | some k' => simp [ho k' hl]
    next => simp [hk k hw]

end GrammarDoc.Source
