import GrammarDoc.Extraction.Visit
import Mathlib.Computability.Language

namespace GrammarDoc

open scoped Computability
open Source (SyntaxTree Token TokenKind)

/-- What the words of a rule are made of: literals, and names of tokens and rules. -/
inductive Symbol where
  | literal (body : String)
  | name (name : String)
deriving Repr, DecidableEq

namespace Element

mutual

/-- The words that an element stands for. A foreign value stands for none. -/
def language : Element → Language Symbol
  | atom body => {[.literal body]}
  | ref name => {[.name name]}
  | opt e => 1 + language e
  | plus e => language e * (language e)∗
  | star e => (language e)∗
  | choice es => languageOfAny es
  | seq es => languageOfRow es
  | foreign _ => 0

def languageOfAny : List Element → Language Symbol
  | [] => 0
  | e :: es => language e + languageOfAny es

def languageOfRow : List Element → Language Symbol
  | [] => 1
  | e :: es => language e * languageOfRow es

end

variable {e : Element} {es : List Element}

theorem languageOfAny_eq_sum (es : List Element) : languageOfAny es = (es.map language).sum := by
  induction es with
  | nil => rfl
  | cons e es ih => rw [languageOfAny, ih, List.map_cons, List.sum_cons]

theorem languageOfRow_eq_prod (es : List Element) : languageOfRow es = (es.map language).prod := by
  induction es with
  | nil => rfl
  | cons e es ih => rw [languageOfRow, ih, List.map_cons, List.prod_cons]

/-- A choice without a wrapper for a single alternative has the same words. -/
theorem language_choiceOf (h : choiceOf es = .ok e) : e.language = (es.map language).sum := by
  unfold choiceOf at h
  split at h
  · cases h
  · cases h
    simp
  · cases h
    rw [language, languageOfAny_eq_sum]

theorem language_seqOf (h : seqOf es = .ok e) : e.language = (es.map language).prod := by
  unfold seqOf at h
  split at h
  · cases h
  · cases h
    simp
  · cases h
    rw [language, languageOfRow_eq_prod]

end Element

namespace Source

/-- The words of a suffixed element, given the first mark of its suffix. -/
def repeated (mark? : Option TokenKind) (l : Language Symbol) : Language Symbol :=
  match mark? with
  | some .question => 1 + l
  | some .star => l∗
  | some .plus => l * l∗
  | _ => l

namespace SyntaxTree

/-- The first mark of a suffix. A block holds its suffix one level deeper. -/
def suffixMark? : SyntaxTree → Option TokenKind
  | node .ebnfSuffix _ (token t :: _) => some t.kind
  | node .blockSuffix _ (suffix :: _) => suffixMark? suffix
  | _ => none

/-- The symbol that a literal or a name stands for; a literal is told by its body. -/
def symbolOf (t : Token) : Symbol :=
  if t.kind = .literal then .literal (String.ofList t.text.toList.tail.dropLast) else .name t.text

mutual

/-- The words that a syntax tree stands for. Alternatives give a union, and what stands in a row is
concatenated; a token outside terminals and references contributes nothing. Negated sets and
wildcards name no symbol. -/
def language : SyntaxTree → Language Symbol
  | token _ => 1
  | node c _ children =>
    match c with
    | .ruleAltList | .altList => unionOf children
    | .element | .ebnf => repeated (children.findSome? suffixMark?) (concatenationOf children)
    | .terminal | .ruleref => namedBy children
    | .notSet | .wildcard => 0
    | _ => concatenationOf children

def unionOf : List SyntaxTree → Language Symbol
  | [] => 0
  | t :: ts => language t + unionOf ts

def concatenationOf : List SyntaxTree → Language Symbol
  | [] => 1
  | t :: ts => language t * concatenationOf ts

/-- The one word that consists of the symbol of the first token. -/
def namedBy : List SyntaxTree → Language Symbol
  | token t :: _ => {[symbolOf t]}
  | _ => 0

end

theorem unionOf_eq_sum (ts : List SyntaxTree) : unionOf ts = (ts.map language).sum := by
  induction ts with
  | nil => simp [unionOf]
  | cons t ts ih => rw [unionOf, ih, List.map_cons, List.sum_cons]

mutual

/-- The parser rules of a tree, in the order in which they are declared. -/
def parserRules : SyntaxTree → List SyntaxTree
  | token _ => []
  | node c span? children =>
    if c = .parserRuleSpec then [node c span? children] else parserRulesOfAll children

def parserRulesOfAll : List SyntaxTree → List SyntaxTree
  | [] => []
  | t :: ts => parserRules t ++ parserRulesOfAll ts

end

/-- The name of a parser rule is its first token. -/
def ruleName : SyntaxTree → String
  | node _ _ (token t :: _) => t.text
  | _ => ""

end SyntaxTree
end Source
end GrammarDoc
