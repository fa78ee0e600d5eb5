import GrammarDoc.Proofs.Extraction.Spacing
import GrammarDoc.Proofs.Source.LoneReturns

namespace GrammarDoc

open Source

variable {cs : List Char} {lexeme : Lexeme} {rules : List Rule}

theorem exists_tidy_of_mem_lexemes (h : isTidy cs) (hl : lexeme ∈ (lexemes cs).1) :
    ∃ ms after, isTidy ms ∧ lexeme? ms = some (lexeme, after) := by
  fun_induction lexemes cs with
  | case1 => cases hl
  | case2 cs lexeme' after hs _ ih =>
    rcases List.mem_cons.mp hl with rfl | hl
    · exact ⟨cs, after, h, hs⟩
    · rw [← lexeme?_append hs] at h
      exact ih (isTidy_of_append h) hl

/-- A word has the same essence without carriage returns. -/
theorem essence_dropReturns (h : isTidy cs) (hl : lexeme ∈ (lexemes cs).1) :
    lexeme.dropReturns.word?.map essenceOf = lexeme.word?.map essenceOf := by
  obtain ⟨ms, after, ht, hs⟩ := exists_tidy_of_mem_lexemes h hl
  obtain ⟨kind?, text⟩ := lexeme
  cases kind? with
  | none => rfl
  | some k =>
    by_cases hk : k ∈ [.ruleName, .tokenName, .literal]
    · rw [Lexeme.dropReturns, dropReturns_text hs ht hk]
    · have hk : ∀ text, essenceOf (k, text) = (k, "") := fun _ => by rw [essenceOf, if_neg hk]
      simp [Lexeme.word?, Lexeme.dropReturns, hk]

theorem essences_dropReturns (h : isTidy cs) :
    ((lexemes (dropReturns cs)).1.filterMap Lexeme.word?).map essenceOf =
      ((lexemes cs).1.filterMap Lexeme.word?).map essenceOf := by
  rw [lexemes_dropReturns h, List.filterMap_map, List.map_filterMap, List.map_filterMap]
  exact List.filterMap_congr fun l hl => essence_dropReturns h hl

/-- A text is read to its end exactly if it is without carriage returns. -/
theorem lexemes_dropReturns_eq_nil_iff (h : isTidy cs) :
    (lexemes (dropReturns cs)).2 = [] ↔ (lexemes cs).2 = [] := by
  have ht : isTidy (lexemes cs).2 := by
    rw [← lexemes_text cs] at h
    exact isTidy_of_append h
  rw [lexemes_dropReturns h]
  exact dropReturns_eq_nil_iff ht

variable {text text' : String}

/-- In a tidy text the kind of line breaks makes no difference to its rules. -/
theorem parseRules_ok_dropReturns_iff (h : isTidy text.toList)
    (ht : text'.toList = dropReturns text.toList) :
    (parseRules text').result = .ok rules ↔ (parseRules text).result = .ok rules := by
  have hm := isTidy_maskChars h
  have hmasked : maskChars text'.toList = dropReturns (maskChars text.toList) := by
    rw [ht, maskChars_dropReturns h]
  have hspells : ∀ {text : String}, (parseRules text).result = .ok rules →
      (lexemes (maskChars text.toList)).2 = [] := by
    intro text hr
    obtain ⟨tree, htree, -⟩ := parseRules_ok_iff.mp hr
    exact (spells_iff_lexemes.mp (spells_of_parseGrammar htree)).1
  have hend : (lexemes (maskChars text'.toList)).2 = [] ↔
      (lexemes (maskChars text.toList)).2 = [] := by
    rw [hmasked]
    exact lexemes_dropReturns_eq_nil_iff hm
  have hessence := essences_dropReturns hm
  rw [← hmasked] at hessence
  constructor
  · intro hr
    have hn := hspells hr
    exact parseRules_of_spells hr (spells_iff_lexemes.mpr ⟨hn, rfl⟩)
      (spells_iff_lexemes.mpr ⟨hend.mp hn, rfl⟩) hessence.symm
  · intro hr
    have hn := hspells hr
    exact parseRules_of_spells hr (spells_iff_lexemes.mpr ⟨hn, rfl⟩)
      (spells_iff_lexemes.mpr ⟨hend.mpr hn, rfl⟩) hessence

/-- Texts that spell the same words have the same rules. -/
theorem parseRules_ok_congr (h : ∀ ws, Spells (maskChars text'.toList) ws [] ↔
      Spells (maskChars text.toList) ws []) :
    (parseRules text').result = .ok rules ↔ (parseRules text).result = .ok rules := by
  constructor <;> intro hr <;> obtain ⟨tree, htree, -⟩ := parseRules_ok_iff.mp hr
  · have hs := spells_of_parseGrammar htree
    exact parseRules_of_spells hr hs ((h _).mp hs) rfl
  · have hs := spells_of_parseGrammar htree
    exact parseRules_of_spells hr hs ((h _).mpr hs) rfl

/-- A text in which line breaks do alike has the same rules with line feeds for all of them. -/
theorem parseRules_ok_unifyLineBreaks_iff (h : BreaksAlike text.toList) :
    (parseRules (String.ofList (Codec.unifyLineBreaks text.toList))).result = .ok rules ↔
      (parseRules text).result = .ok rules := by
  have hfed : (parseRules (String.ofList (feedReturns text.toList))).result = .ok rules ↔
      (parseRules text).result = .ok rules := by
    refine parseRules_ok_congr fun ws => ?_
    rw [String.toList_ofList, maskChars_feedReturns h.pieces]
    exact spells_feedReturns h.lexemes
  refine (parseRules_ok_dropReturns_iff ?_ ?_).trans hfed
  · rw [String.toList_ofList]
    exact isTidy_feedReturns h.escapes
  · rw [String.toList_ofList, String.toList_ofList, unifyLineBreaks_eq]

end GrammarDoc
