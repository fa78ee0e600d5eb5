import Mathlib.Data.List.TakeWhile
import GrammarDoc.Proofs.Text.Positions
import GrammarDoc.Source.Lexer

namespace GrammarDoc.Source

open Text (Position)

variable {cs text after rest : List Char}

theorem isNameChar_of_isSmall {c : Char} (h : isSmall c) : isNameChar c := by
  simp [isNameChar, h]

theorem isNameChar_of_isCapital {c : Char} (h : isCapital c) : isNameChar c := by
  simp [isNameChar, h]

theorem isSpace_eq_false_of_isNameChar {c : Char} (hc : isNameChar c) : isSpace c = false := by
  by_contra h
  simp only [isSpace, Bool.or_eq_true, beq_iff_eq, Bool.not_eq_false, or_assoc] at h
  rcases h with rfl | rfl | rfl | rfl | rfl <;> revert hc <;> decide

theorem isBlank_of_isSpace {c : Char} (h : isSpace c) : Text.isBlank c := by
  simp only [isSpace, Bool.or_eq_true, beq_iff_eq, or_assoc] at h
  rcases h with rfl | rfl | rfl | rfl | rfl <;> rfl

theorem isBlank_of_isNameChar {c : Char} (h : isNameChar c) : Text.isBlank c = false := by
  simp only [isNameChar, isSmall, isCapital, Text.isAsciiDigit, Bool.or_eq_true, Bool.and_eq_true,
    decide_eq_true_eq, beq_iff_eq, Char.le_def, UInt32.le_iff_toNat_le] at h
  have hn : 0x30 ≤ c.toNat ∧ c.toNat ≤ 0x7A := by
    rcases h with ((⟨h₁, h₂⟩ | ⟨h₁, h₂⟩) | ⟨h₁, h₂⟩) | rfl
    · exact ⟨Nat.le_trans (by decide) h₁, h₂⟩
    · exact ⟨Nat.le_trans (by decide) h₁, Nat.le_trans h₂ (by decide)⟩
    · exact ⟨h₁, Nat.le_trans h₂ (by decide)⟩
    · decide
  simp only [Text.isBlank, Bool.or_eq_false_iff, Bool.and_eq_false_iff, decide_eq_false_iff_not,
    beq_eq_false_iff_ne]
  omega

/-- What may stand between the quotes of a literal. -/
inductive LiteralBody : List Char → Prop
  | nil : LiteralBody []
  | escape {c : Char} {cs : List Char} :
      c ≠ '\n' → LiteralBody cs → LiteralBody ('\\' :: c :: cs)
  | plain {c : Char} {cs : List Char} :
      c ≠ '\'' → c ≠ '\\' → c ≠ '\r' → c ≠ '\n' → LiteralBody cs → LiteralBody (c :: cs)

theorem literalRest?_of_literalBody {body : List Char} (h : LiteralBody body) :
    literalRest? (body ++ '\'' :: rest) = some (body ++ ['\''], rest) := by
  induction h with
  | nil =>
    unfold literalRest?
    simp
  | escape hc _ ih => simp [literalRest?, hc, ih]
  | @plain c cs hq hb hr hn _ ih =>
    rw [List.cons_append, literalRest?]
    · simp [hq, hb, hr, hn, ih]
    · intro d ds hc
      exact absurd hc hb

theorem literalBody_of_literalRest? {p : List Char × List Char}
    (h : literalRest? cs = some p) :
    ∃ body, LiteralBody body ∧ p.1 = body ++ ['\''] ∧ cs = body ++ '\'' :: p.2 := by
  fun_induction literalRest? cs generalizing p with
  | case1 => simp at h
  | case2 => simp at h
  | case3 c rest hc ih =>
    obtain ⟨q, hq, rfl⟩ := Option.map_eq_some_iff.mp h
    obtain ⟨body, hb, hp, rfl⟩ := ih hq
    exact ⟨'\\' :: c :: body, .escape hc hb, by simp [hp], by simp⟩
  | case4 rest =>
    cases h
    exact ⟨[], .nil, rfl, rfl⟩
  | case5 => simp at h
  | case6 c rest _ hq hn ih =>
    obtain ⟨q, hq', rfl⟩ := Option.map_eq_some_iff.mp h
    obtain ⟨body, hb, hp, rfl⟩ := ih hq'
    simp only [not_or] at hn
    exact ⟨c :: body, .plain hq hn.1 hn.2.1 hn.2.2 hb, by simp [hp], by simp⟩

/-- The kinds of words that start with a small letter. -/
def wordKinds : List TokenKind :=
  .ruleName :: (keywords ++ blockOpeners).map Prod.snd

theorem mem_of_lookup {words : List (String × TokenKind)} {word : String} {k : TokenKind}
    (h : words.lookup word = some k) : k ∈ words.map Prod.snd := by
  obtain ⟨before, _, rfl, -⟩ := List.lookup_eq_some_iff.mp h
  simp

theorem wordKind_mem (word : String) (rest : List Char) : wordKind word rest ∈ wordKinds := by
  unfold wordKind
  have hk : (keywords.lookup word).getD .ruleName ∈ wordKinds := by
    cases h : keywords.lookup word with
    | none => simp [wordKinds]
    | some k =>
      have := mem_of_lookup h
      simp only [wordKinds, List.map_append, List.mem_cons, List.mem_append]
      exact .inr (.inl this)
  split
  · cases h : blockOpeners.lookup word with
    | none => exact hk
    | some k =>
      have := mem_of_lookup h
      simp only [wordKinds, List.map_append, List.mem_cons, List.mem_append]
      exact .inr (.inr this)
  · exact hk

/-- The kinds of marks. -/
def markKinds : List TokenKind :=
  [.question, .star, .plus, .assign, .plusAssign, .dot, .range, .semicolon, .colon, .doubleColon,
    .comma, .bar, .hash, .tilde, .arrow, .openParen, .closeParen]

theorem mark?_mem {c : Char} {k : TokenKind} (h : mark? c = some k) : k ∈ markKinds := by
  unfold mark? at h
  split at h <;> cases h <;> decide

theorem longMark?_mem {c d : Char} {k : TokenKind} (h : longMark? c d = some k) :
    k ∈ markKinds := by
  unfold longMark? at h
  split at h <;> cases h <;> decide

theorem markExtent?_mem {c : Char} {e : Extent} (h : markExtent? c rest = some e) :
    ∃ k ∈ markKinds, e.kind? = some k := by
  unfold markExtent? at h
  split at h
  · obtain ⟨k, hk, rfl⟩ := Option.map_eq_some_iff.mp h
    exact ⟨k, mark?_mem hk, rfl⟩
  · split at h
    next k hk =>
      cases h
      exact ⟨k, longMark?_mem hk, rfl⟩
    next =>
      obtain ⟨k, hk, rfl⟩ := Option.map_eq_some_iff.mp h
      exact ⟨k, mark?_mem hk, rfl⟩

/-- How far a lexeme goes, one case for each class of first characters. -/
inductive Extends : Char → List Char → Extent → Prop
  | space {c : Char} {rest : List Char} : isSpace c → Extends c rest (runExtent none isSpace rest)
  | word {c : Char} {rest : List Char} : isSmall c → Extends c rest (wordExtent c rest)
  | tokenName {c : Char} {rest : List Char} :
      isCapital c → Extends c rest (runExtent (some .tokenName) isNameChar rest)
  | integer {c : Char} {rest : List Char} :
      Text.isAsciiDigit c → Extends c rest (runExtent (some .integer) Text.isAsciiDigit rest)
  | comment {rest : List Char} {e : Extent} : commentExtent? rest = some e → Extends '/' rest e
  | literal {rest : List Char} {p : List Char × List Char} :
      literalRest? rest = some p → Extends '\'' rest (closedExtent .literal p)
  | bracketBlock {rest : List Char} {p : List Char × List Char} :
      bracketBlockRest? rest = some p → Extends '[' rest (closedExtent .bracketBlock p)
  | braceBlock {rest : List Char} {p : List Char × List Char} :
      flatRest? '\x7b' '\x7d' rest = some p →
      Extends '\x7b' rest (closedExtent .braceBlock p)
  | angleBlock {rest : List Char} {p : List Char × List Char} :
      flatRest? '<' '>' rest = some p → Extends '<' rest (closedExtent .angleBlock p)
  | atName {rest : List Char} {e : Extent} : atNameExtent? rest = some e → Extends '@' rest e
  | mark {c : Char} {rest : List Char} {e : Extent} : markExtent? c rest = some e → Extends c rest e

theorem extends_of_extent? {c : Char} {e : Extent} (h : extent? c rest = some e) :
    Extends c rest e := by
  unfold extent? at h
  split at h
  next hc =>
    cases h
    exact .space hc
  split at h
  next hc =>
    cases h
    exact .word hc
  split at h
  next hc =>
    cases h
    exact .tokenName hc
  split at h
  next hc =>
    cases h
    exact .integer hc
  split at h
  · exact .comment h
  · obtain ⟨p, hp, rfl⟩ := Option.map_eq_some_iff.mp h
    exact .literal hp
  · obtain ⟨p, hp, rfl⟩ := Option.map_eq_some_iff.mp h
    exact .bracketBlock hp
  · obtain ⟨p, hp, rfl⟩ := Option.map_eq_some_iff.mp h
    exact .braceBlock hp
  · obtain ⟨p, hp, rfl⟩ := Option.map_eq_some_iff.mp h
    exact .angleBlock hp
  · exact .atName h
  · exact .mark h

theorem extends_of_lexeme? {lexeme : Lexeme} (h : lexeme? cs = some (lexeme, after)) :
    ∃ c rest e, cs = c :: rest ∧ Extends c rest e ∧ lexeme = ⟨e.kind?, c :: e.tail⟩ ∧
      after = e.after := by
  cases cs with
  | nil => cases h
  | cons c rest =>
    obtain ⟨e, he, hp⟩ := Option.map_eq_some_iff.mp h
    cases hp
    exact ⟨c, rest, e, rfl, extends_of_extent? he, rfl, rfl⟩

theorem commentExtent?_kind {e : Extent} (h : commentExtent? rest = some e) : e.kind? = none := by
  unfold commentExtent? at h
  split at h
  · cases h
    rfl
  · obtain ⟨p, -, rfl⟩ := Option.map_eq_some_iff.mp h
    rfl
  · cases h

theorem atNameExtent?_kind {e : Extent} (h : atNameExtent? rest = some e) :
    e.kind? = some .atName := by
  unfold atNameExtent? at h
  split at h
  · cases h
  · split at h
    · cases h
      rfl
    · cases h

theorem wordExtent_kind {c : Char} {k : TokenKind} (h : some k = (wordExtent c rest).kind?) :
    k = wordKind (String.ofList (c :: (wordExtent c rest).tail)) (wordExtent c rest).after ∧
      k ∈ wordKinds := by
  cases h
  exact ⟨rfl, wordKind_mem _ _⟩

theorem mark_kind {c : Char} {e : Extent} {k : TokenKind} (h : markExtent? c rest = some e)
    (hk : some k = e.kind?) : k ∈ markKinds := by
  obtain ⟨k', hm, he⟩ := markExtent?_mem h
  cases hk.trans he
  exact hm

/-- A literal stands between apostrophes. -/
theorem literal_of_lexeme? (h : lexeme? cs = some (⟨some .literal, text⟩, after)) :
    ∃ body, LiteralBody body ∧ text = '\'' :: (body ++ ['\'']) := by
  obtain ⟨c, rest, e, rfl, he, hlex, rfl⟩ := extends_of_lexeme? h
  obtain ⟨hk, rfl⟩ := Lexeme.mk.inj hlex
  cases he with
  | literal hp =>
    obtain ⟨body, hb, ht, -⟩ := literalBody_of_literalRest? hp
    exact ⟨body, hb, congrArg _ ht⟩
  | word => exact absurd (wordExtent_kind hk).2 (by decide)
  | mark hm => exact absurd (mark_kind hm hk) (by decide)
  | comment hc => cases hk.trans (commentExtent?_kind hc)
  | atName ha => cases hk.trans (atNameExtent?_kind ha)
  | _ => cases hk

/-- A first character of one class with name characters after it. -/
def IsName (first : Char → Bool) (cs : List Char) : Prop :=
  ∃ c tail, cs = c :: tail ∧ first c ∧ ∀ d ∈ tail, isNameChar d

theorem isNameChar_of_isName {first : Char → Bool} (hf : ∀ c, first c → isNameChar c)
    (h : IsName first cs) : ∀ c ∈ cs, isNameChar c := by
  obtain ⟨c, tail, rfl, hc, ht⟩ := h
  intro d hd
  rcases List.mem_cons.mp hd with rfl | hd
  · exact hf d hc
  · exact ht d hd

theorem lineFeed_notMem_of_isName {first : Char → Bool} (hf : ∀ c, first c → isNameChar c)
    (h : IsName first cs) : '\n' ∉ cs := by
  intro hm
  have hc := isNameChar_of_isName hf h '\n' hm
  exact absurd hc (by decide)

theorem lineFeed_notMem_of_literalBody (h : LiteralBody cs) : '\n' ∉ cs := by
  induction h with
  | nil => exact List.not_mem_nil
  | escape hc _ ih => simp [ih, Ne.symm hc]
  | plain _ _ _ hc _ ih => simp [ih, Ne.symm hc]

theorem ruleName_of_lexeme? (h : lexeme? cs = some (⟨some .ruleName, text⟩, after)) :
    IsName isSmall text ∧ wordKind (String.ofList text) after = .ruleName := by
  obtain ⟨c, rest, e, rfl, he, hlex, rfl⟩ := extends_of_lexeme? h
  obtain ⟨hk, rfl⟩ := Lexeme.mk.inj hlex
  cases he with
  | word hc =>
    exact ⟨⟨c, _, rfl, hc, fun d hd => List.mem_takeWhile_imp hd⟩, (wordExtent_kind hk).1.symm⟩
  | mark hm => exact absurd (mark_kind hm hk) (by decide)
  | comment hc => cases hk.trans (commentExtent?_kind hc)
  | atName ha => cases hk.trans (atNameExtent?_kind ha)
  | _ => cases hk

theorem tokenName_of_lexeme? (h : lexeme? cs = some (⟨some .tokenName, text⟩, after)) :
    IsName isCapital text := by
  obtain ⟨c, rest, e, rfl, he, hlex, rfl⟩ := extends_of_lexeme? h
  obtain ⟨hk, rfl⟩ := Lexeme.mk.inj hlex
  cases he with
  | tokenName hc => exact ⟨c, _, rfl, hc, fun d hd => List.mem_takeWhile_imp hd⟩
  | word => exact absurd (wordExtent_kind hk).2 (by decide)
  | mark hm => exact absurd (mark_kind hm hk) (by decide)
  | comment hc => cases hk.trans (commentExtent?_kind hc)
  | atName ha => cases hk.trans (atNameExtent?_kind ha)
  | _ => cases hk

/-- A token stands where its text is the lexeme. -/
theorem exists_lexeme_of_mem_tokens {place : Position} {t : Token}
    (h : t ∈ (readFrom place cs).tokens) :
    ∃ before after, cs = before ++ (t.text.toList ++ after) ∧
      lexeme? (t.text.toList ++ after) = some (⟨some t.kind, t.text.toList⟩, after) ∧
      t.span = ⟨place.after before, place.after (before ++ t.text.toList)⟩ := by
  fun_induction readFrom place cs with
  | case1 => simp at h
  | case2 => simp at h
  | case3 place c rest lexeme after hl _ next later hk ih =>
    obtain ⟨before, post, hcs, hlex, hspan⟩ := ih h
    have happ := lexeme?_append hl
    refine ⟨lexeme.text ++ before, post, ?_, hlex, ?_⟩
    · rw [← happ, hcs, List.append_assoc]
    · simp only [hspan, next, List.append_assoc, Position.after_append]
  | case4 place c rest lexeme after hl _ next later kind hk ih =>
    have happ := lexeme?_append hl
    rcases List.mem_cons.mp h with rfl | h
    · refine ⟨[], after, ?_, ?_, ?_⟩
      · simpa using happ.symm
      · obtain ⟨_, text⟩ := lexeme
        cases hk
        simpa [happ] using hl
      · simp [next, Position.after]
    · obtain ⟨before, post, hcs, hlex, hspan⟩ := ih h
      refine ⟨lexeme.text ++ before, post, ?_, hlex, ?_⟩
      · rw [← happ, hcs, List.append_assoc]
      · simp only [hspan, next, List.append_assoc, Position.after_append]

theorem exists_body_of_mem_tokens {place : Position} {t : Token}
    (h : t ∈ (readFrom place cs).tokens) (hk : t.kind = .literal) :
    ∃ body, LiteralBody body ∧ t.text.toList = '\'' :: (body ++ ['\'']) := by
  obtain ⟨_, _, -, hl, -⟩ := exists_lexeme_of_mem_tokens h
  rw [hk] at hl
  exact literal_of_lexeme? hl

end GrammarDoc.Source
