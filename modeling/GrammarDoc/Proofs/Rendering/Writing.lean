import GrammarDoc.Proofs.Source.Masking
import GrammarDoc.Proofs.Source.Spelling
import GrammarDoc.Rendering.Ebnf

namespace GrammarDoc

open Source

/-- A name that can stand for a rule: no keyword, and a small letter first. -/
def IsRuleName (s : String) : Prop :=
  IsName isSmall s.toList ∧ keywords.lookup s = none

def IsTokenName (s : String) : Prop :=
  IsName isCapital s.toList

namespace Element

/-- An element that can be written so that it reads the same. -/
inductive WellFormed : Element → Prop
  | atom {s : String} : LiteralBody s.toList → WellFormed (.atom s)
  | ruleName {s : String} : IsRuleName s → WellFormed (.ref s)
  | tokenName {s : String} : IsTokenName s → WellFormed (.ref s)
  | opt {e : Element} : WellFormed e → WellFormed (.opt e)
  | plus {e : Element} : WellFormed e → WellFormed (.plus e)
  | star {e : Element} : WellFormed e → WellFormed (.star e)
  | choice {es : List Element} :
      2 ≤ es.length → (∀ e ∈ es, WellFormed e) → WellFormed (.choice es)
  | seq {es : List Element} : 2 ≤ es.length → (∀ e ∈ es, WellFormed e) → WellFormed (.seq es)

/-- Something in parentheses, if it needs them. -/
def grouped {α : Type} (nested : Bool) (opening closing : α) (xs : List α) : List α :=
  if nested then opening :: (xs ++ [closing]) else xs

mutual

/-- The characters of an element in EBNF. -/
def chars (nested : Bool) : Element → List Char
  | atom body => '\'' :: (body.toList ++ ['\''])
  | ref name => name.toList
  | opt e => chars true e ++ ['?']
  | plus e => chars true e ++ ['+']
  | star e => chars true e ++ ['*']
  | choice es => grouped nested '(' ')' ([' ', '|', ' '].intercalate (charsOfAll es))
  | seq es => grouped nested '(' ')' ([' '].intercalate (charsOfAll es))
  | foreign _ => []

def charsOfAll : List Element → List (List Char)
  | [] => []
  | e :: es => chars true e :: charsOfAll es

end

/-- The kind of a name is told by its first letter. -/
def nameWord (name : String) : Word :=
  (if name.toList.head?.any isSmall then .ruleName else .tokenName, name)

mutual

/-- The words of an element in EBNF. -/
def words (nested : Bool) : Element → List Word
  | atom body => [(.literal, String.ofList ('\'' :: (body.toList ++ ['\''])))]
  | ref name => [nameWord name]
  | opt e => words true e ++ [(.question, "?")]
  | plus e => words true e ++ [(.plus, "+")]
  | star e => words true e ++ [(.star, "*")]
  | choice es =>
    grouped nested (.openParen, "(") (.closeParen, ")") ([(.bar, "|")].intercalate (wordsOfAll es))
  | seq es => grouped nested (.openParen, "(") (.closeParen, ")") (wordsOfAll es).flatten
  | foreign _ => []

def wordsOfAll : List Element → List (List Word)
  | [] => []
  | e :: es => words true e :: wordsOfAll es

end

variable {e : Element} {es : List Element} {nested : Bool}

theorem charsOfAll_eq_map (es : List Element) : charsOfAll es = es.map (chars true) := by
  induction es with
  | nil => rfl
  | cons e es ih => rw [charsOfAll, ih, List.map_cons]

theorem wordsOfAll_eq_map (es : List Element) : wordsOfAll es = es.map (words true) := by
  induction es with
  | nil => rfl
  | cons e es ih => rw [wordsOfAll, ih, List.map_cons]

theorem writeMembers_ok
    (h : ∀ e ∈ es, ∀ nested, Ebnf.write nested e = .ok (String.ofList (chars nested e))) :
    Ebnf.writeMembers es = .ok ((charsOfAll es).map String.ofList) := by
  induction es with
  | nil => rfl
  | cons e es ih =>
    rw [Ebnf.writeMembers, h e List.mem_cons_self true,
      ih fun x hx => h x (List.mem_cons_of_mem _ hx)]
    rfl

theorem parenthesized_eq (s : String) :
    Text.parenthesized nested s = String.ofList (grouped nested '(' ')' s.toList) := by
  cases nested with
  | true =>
    apply String.toList_inj.mp
    simp [Text.parenthesized, grouped]
  | false => simp [Text.parenthesized, grouped]

theorem intercalate_eq (sep : String) (parts : List (List Char)) :
    sep.intercalate (parts.map String.ofList) = String.ofList (sep.toList.intercalate parts) := by
  apply String.toList_inj.mp
  rw [String.toList_intercalate, String.toList_ofList, List.map_map]
  congr 1
  exact (List.map_congr_left fun part _ => String.toList_ofList).trans (List.map_id _)

/-- An element without foreign values can be written, and its text is as expected. -/
theorem write_ok (h : e.WellFormed) :
    ∀ nested, Ebnf.write nested e = .ok (String.ofList (chars nested e)) := by
  induction h with
  | @atom s =>
    intro nested
    have hs : "'" ++ s ++ "'" = String.ofList (chars nested (.atom s)) := by
      apply String.toList_inj.mp
      simp [chars]
    exact congrArg _ hs
  | @ruleName s => exact fun nested => congrArg _ String.ofList_toList.symm
  | @tokenName s => exact fun nested => congrArg _ String.ofList_toList.symm
  | @opt e _ ih =>
    intro nested
    have hs : String.ofList (chars true e) ++ "?" = String.ofList (chars nested (.opt e)) := by
      apply String.toList_inj.mp
      simp [chars]
    rw [Ebnf.write, ih true, ← hs]
    rfl
  | @plus e _ ih =>
    intro nested
    have hs : String.ofList (chars true e) ++ "+" = String.ofList (chars nested (.plus e)) := by
      apply String.toList_inj.mp
      simp [chars]
    rw [Ebnf.write, ih true, ← hs]
    rfl
  | @star e _ ih =>
    intro nested
    have hs : String.ofList (chars true e) ++ "*" = String.ofList (chars nested (.star e)) := by
      apply String.toList_inj.mp
      simp [chars]
    rw [Ebnf.write, ih true, ← hs]
    rfl
  | @choice es _ _ ih =>
    intro nested
    have hs : Text.parenthesized nested (" | ".intercalate ((charsOfAll es).map String.ofList)) =
        String.ofList (chars nested (.choice es)) := by
      rw [parenthesized_eq, intercalate_eq, String.toList_ofList, chars]
      rfl
    rw [Ebnf.write, writeMembers_ok ih, ← hs]
    rfl
  | @seq es _ _ ih =>
    intro nested
    have hs : Text.parenthesized nested (" ".intercalate ((charsOfAll es).map String.ofList)) =
        String.ofList (chars nested (.seq es)) := by
      rw [parenthesized_eq, intercalate_eq, String.toList_ofList, chars]
      rfl
    rw [Ebnf.write, writeMembers_ok ih, ← hs]
    rfl

end Element
end GrammarDoc
