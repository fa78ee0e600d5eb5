import GrammarDoc.Proofs.Rendering.Writing

namespace GrammarDoc

open Source

namespace Element

variable {e : Element} {es : List Element} {nested : Bool} {c : Char} {cs rest : List Char}

/-- What may follow a written element: no part of its last word, and no brace after blanks. -/
structure Fits (rest : List Char) : Prop where
  noName : ∀ d, rest.head? = some d → isNameChar d = false
  noEquals : rest.head? ≠ some '='
  noBrace : (rest.dropWhile Text.isBlank).head? ≠ some '\x7b'

/-- What a written element starts with. -/
def Opens (cs : List Char) : Prop :=
  ∃ c rest, cs = c :: rest ∧ Text.isBlank c = false ∧ c ≠ '\x7b'

theorem fits_mark (hb : Text.isBlank c = false) (hn : isNameChar c = false) (he : c ≠ '=')
    (hc : c ≠ '\x7b') : Fits (c :: rest) := by
  refine ⟨?_, by simpa using he, ?_⟩
  · rintro d ⟨⟩
    exact hn
  · simpa [List.dropWhile, hb] using hc

theorem fits_space (h : Opens rest) : Fits (' ' :: rest) := by
  obtain ⟨c, cs, rfl, hb, hc⟩ := h
  refine ⟨by rintro d ⟨⟩; rfl, by simp, ?_⟩
  have hs : Text.isBlank ' ' = true := rfl
  simpa [List.dropWhile, hb, hs] using hc

theorem isSpace_of_opens (h : Opens rest) : ∀ d, rest.head? = some d → isSpace d = false := by
  obtain ⟨c, cs, rfl, hb, -⟩ := h
  rintro d ⟨⟩
  by_contra hs
  rw [isBlank_of_isSpace (by simpa using hs)] at hb
  cases hb

theorem opens_name {first : Char → Bool} (hf : ∀ c, first c → isNameChar c)
    (h : IsName first cs) : Opens cs := by
  obtain ⟨c, tail, rfl, hc, -⟩ := h
  refine ⟨c, tail, rfl, isBlank_of_isNameChar (hf c hc), ?_⟩
  rintro rfl
  exact absurd (hf _ hc) (by decide)

theorem opens_append (h : Opens cs) : Opens (cs ++ rest) := by
  obtain ⟨c, tail, rfl, hc⟩ := h
  exact ⟨c, tail ++ rest, rfl, hc⟩

theorem opens_intercalate {sep : List Char} {parts : List (List Char)} (hl : parts ≠ [])
    (h : ∀ part ∈ parts, Opens part) : Opens (sep.intercalate parts) := by
  match parts with
  | [part] => simpa using h part
  | part :: q :: qs =>
    rw [List.intercalate_cons_cons, List.append_assoc]
    exact opens_append (h part List.mem_cons_self)

theorem opens_grouped (h : Opens cs) : Opens (grouped nested '(' ')' cs) := by
  cases nested with
  | true => exact ⟨'(', _, rfl, rfl, by decide⟩
  | false => exact h

theorem opens_charsOfAll {sep : List Char} (hl : 2 ≤ es.length)
    (h : ∀ e ∈ es, ∀ nested, Opens (chars nested e)) :
    Opens (sep.intercalate (charsOfAll es)) := by
  rw [charsOfAll_eq_map]
  apply opens_intercalate
  · intro hn
    simp [List.map_eq_nil_iff.mp hn] at hl
  · intro part hp
    obtain ⟨e, he, rfl⟩ := List.mem_map.mp hp
    exact h e he true

theorem opens_chars (h : e.WellFormed) : ∀ nested, Opens (chars nested e) := by
  induction h with
  | atom _ => exact fun nested => ⟨'\'', _, rfl, rfl, by decide⟩
  | ruleName hs => exact fun nested => opens_name (fun _ => isNameChar_of_isSmall) hs.1
  | tokenName hs => exact fun nested => opens_name (fun _ => isNameChar_of_isCapital) hs
  | opt _ ih => exact fun nested => opens_append (ih true)
  | plus _ ih => exact fun nested => opens_append (ih true)
  | star _ ih => exact fun nested => opens_append (ih true)
  | choice hl _ ih => exact fun nested => opens_grouped (opens_charsOfAll hl ih)
  | seq hl _ ih => exact fun nested => opens_grouped (opens_charsOfAll hl ih)

/-- Some characters spell some words, whatever may follow them. -/
def Spelled (cs : List Char) (ws : List Word) : Prop :=
  ∀ rest, Fits rest → Spells (cs ++ rest) ws rest

theorem spelled_grouped {ws : List Word} (h : Spelled cs ws) :
    Spelled (grouped nested '(' ')' cs)
      (grouped nested (.openParen, "(") (.closeParen, ")") ws) := by
  intro rest hr
  cases nested with
  | false => exact h rest hr
  | true =>
    have hc : Fits (')' :: rest) := fits_mark rfl rfl (by decide) (by decide)
    have hclose : Spells (')' :: rest) [(.closeParen, ")")] rest :=
      .word (lexeme?_mark rfl rfl fun _ _ => rfl) .done
    have hin := spells_append (h _ hc) hclose
    have hopen : lexeme? ('(' :: (cs ++ ')' :: rest)) =
        some (⟨some .openParen, ['(']⟩, cs ++ ')' :: rest) :=
      lexeme?_mark rfl rfl fun _ _ => rfl
    simpa [grouped] using Spells.word hopen hin

/-- Spelled parts with spelled marks between them are spelled. -/
theorem spelled_intercalate {sep : List Char} {mark : List Word}
    (hs : ∀ rest, Opens rest → Fits (sep ++ rest) ∧ Spells (sep ++ rest) mark rest)
    (ho : ∀ e ∈ es, Opens (chars true e)) (h : ∀ e ∈ es, Spelled (chars true e) (words true e)) :
    Spelled (sep.intercalate (charsOfAll es)) (mark.intercalate (wordsOfAll es)) := by
  induction es with
  | nil => exact fun rest _ => .done
  | cons e es ih =>
    have he := h e List.mem_cons_self
    have ih := ih (fun x hx => ho x (List.mem_cons_of_mem _ hx))
      fun x hx => h x (List.mem_cons_of_mem _ hx)
    cases es with
    | nil => simpa [charsOfAll, wordsOfAll] using he
    | cons x xs =>
      intro rest hr
      have hx : Opens (sep.intercalate (charsOfAll (x :: xs)) ++ rest) := by
        refine opens_append (opens_intercalate (by simp [charsOfAll]) ?_)
        rw [charsOfAll_eq_map]
        intro part hp
        obtain ⟨y, hy, rfl⟩ := List.mem_map.mp hp
        exact ho y (List.mem_cons_of_mem _ hy)
      obtain ⟨hfit, hmark⟩ := hs _ hx
      have hlater := spells_append hmark (ih rest hr)
      have hall := spells_append (he _ hfit) hlater
      simpa [charsOfAll, wordsOfAll] using hall

theorem spells_bar (h : Opens rest) :
    Fits ([' ', '|', ' '] ++ rest) ∧ Spells ([' ', '|', ' '] ++ rest) [(.bar, "|")] rest := by
  have hb : Opens ('|' :: ' ' :: rest) := ⟨'|', _, rfl, rfl, by decide⟩
  refine ⟨fits_space hb, ?_⟩
  refine .blank (lexeme?_space rfl (isSpace_of_opens hb)) ?_
  refine .word (lexeme?_mark rfl rfl fun _ _ => rfl) ?_
  exact .blank (lexeme?_space rfl (isSpace_of_opens h)) .done

theorem spells_gap (h : Opens rest) : Fits ([' '] ++ rest) ∧ Spells ([' '] ++ rest) [] rest :=
  ⟨fits_space h, .blank (lexeme?_space rfl (isSpace_of_opens h)) .done⟩

theorem nil_intercalate {α : Type} (xs : List (List α)) : [].intercalate xs = xs.flatten := by
  induction xs with
  | nil => rfl
  | cons x xs ih =>
    cases xs with
    | nil => simp
    | cons y ys => simpa using ih

theorem spelled_ruleName {s : String} (h : IsRuleName s) : Spelled s.toList [(.ruleName, s)] := by
  intro rest hr
  have hk : wordKind s rest = .ruleName :=
    wordKind_eq_ruleName_iff.mpr ⟨h.2, fun hb => absurd hb hr.noBrace⟩
  have hl := lexeme?_word h.1 hr.noName
  rw [String.ofList_toList, hk] at hl
  simpa using Spells.word hl .done

theorem spelled_tokenName {s : String} (h : IsTokenName s) :
    Spelled s.toList [(.tokenName, s)] := by
  intro rest hr
  simpa using Spells.word (lexeme?_tokenName h hr.noName) .done

theorem nameWord_ruleName {s : String} (h : IsRuleName s) : nameWord s = (.ruleName, s) := by
  obtain ⟨⟨c, tail, hs, hc, -⟩, -⟩ := h
  simp [nameWord, hs, hc]

theorem nameWord_tokenName {s : String} (h : IsTokenName s) : nameWord s = (.tokenName, s) := by
  obtain ⟨c, tail, hs, hc, -⟩ := h
  simp [nameWord, hs, isSmall_eq_false_of_isCapital hc]

/-- A written element is read as its words. -/
theorem spelled_chars (h : e.WellFormed) : ∀ nested, Spelled (chars nested e) (words nested e) := by
  induction h with
  | @atom s hs =>
    intro nested rest _
    have hl : Spells ('\'' :: (s.toList ++ '\'' :: rest)) (words nested (.atom s)) rest :=
      .word (lexeme?_literal hs) .done
    simpa [chars] using hl
  | ruleName hs =>
    intro nested
    rw [chars, words, nameWord_ruleName hs]
    exact spelled_ruleName hs
  | tokenName hs =>
    intro nested
    rw [chars, words, nameWord_tokenName hs]
    exact spelled_tokenName hs
  | opt _ ih =>
    intro nested rest _
    have hm : Spells ('?' :: rest) [(.question, "?")] rest :=
      .word (lexeme?_mark rfl rfl fun _ _ => rfl) .done
    have hf : Fits ('?' :: rest) := fits_mark rfl rfl (by decide) (by decide)
    simpa [chars, words] using spells_append (ih true _ hf) hm
  | plus _ ih =>
    intro nested rest hr
    have hm : Spells ('+' :: rest) [(.plus, "+")] rest := by
      refine .word (lexeme?_mark rfl rfl fun d hd => ?_) .done
      have hne : d ≠ '=' := by
        rintro rfl
        exact hr.noEquals hd
      unfold longMark?
      split <;> simp_all
    have hf : Fits ('+' :: rest) := fits_mark rfl rfl (by decide) (by decide)
    simpa [chars, words] using spells_append (ih true _ hf) hm
  | star _ ih =>
    intro nested rest _
    have hm : Spells ('*' :: rest) [(.star, "*")] rest :=
      .word (lexeme?_mark rfl rfl fun _ _ => rfl) .done
    have hf : Fits ('*' :: rest) := fits_mark rfl rfl (by decide) (by decide)
    simpa [chars, words] using spells_append (ih true _ hf) hm
  | choice _ he ih =>
    intro nested
    apply spelled_grouped
    exact spelled_intercalate (fun _ => spells_bar) (fun x hx => opens_chars (he x hx) true)
      fun x hx => ih x hx true
  | seq _ he ih =>
    intro nested
    apply spelled_grouped
    rw [← nil_intercalate]
    exact spelled_intercalate (fun _ => spells_gap) (fun x hx => opens_chars (he x hx) true)
      fun x hx => ih x hx true

theorem untouched_grouped (h : Untouched cs) : Untouched (grouped nested '(' ')' cs) := by
  cases nested with
  | false => exact h
  | true =>
    have ho : Untouched ['('] := untouched_of_forall (by simp)
    have hc : Untouched [')'] := untouched_of_forall (by simp)
    exact untouched_append ho (untouched_append h hc)

theorem untouched_charsOfAll {sep : List Char} (hs : Untouched sep)
    (h : ∀ e ∈ es, ∀ nested, Untouched (chars nested e)) :
    Untouched (sep.intercalate (charsOfAll es)) := by
  rw [charsOfAll_eq_map]
  refine untouched_intercalate hs fun part hp => ?_
  obtain ⟨e, he, rfl⟩ := List.mem_map.mp hp
  exact h e he true

/-- Braces, brackets and comment marks stand only inside the literals of a written element. -/
theorem untouched_chars (h : e.WellFormed) : ∀ nested, Untouched (chars nested e) := by
  induction h with
  | atom hs => exact fun nested => untouched_literal hs
  | ruleName hs => exact fun nested => untouched_name (fun _ => isNameChar_of_isSmall) hs.1
  | tokenName hs => exact fun nested => untouched_name (fun _ => isNameChar_of_isCapital) hs
  | opt _ ih => exact fun nested => untouched_append (ih true) (untouched_of_forall (by simp))
  | plus _ ih => exact fun nested => untouched_append (ih true) (untouched_of_forall (by simp))
  | star _ ih => exact fun nested => untouched_append (ih true) (untouched_of_forall (by simp))
  | choice _ _ ih =>
    exact fun nested =>
      untouched_grouped (untouched_charsOfAll (untouched_of_forall (by simp)) ih)
  | seq _ _ ih =>
    exact fun nested =>
      untouched_grouped (untouched_charsOfAll (untouched_of_forall (by simp)) ih)

end Element
end GrammarDoc
