import GrammarDoc.Value

namespace GrammarDoc

/-- The body of a grammar rule. `foreign` is a value that is no grammar element and stands where one
is expected; only hand-built trees hold it. -/
inductive Element where
  | atom (name : String)
  | ref (name : String)
  | opt (inner : Element)
  | plus (inner : Element)
  | star (inner : Element)
  | choice (alternatives : List Element)
  | seq (parts : List Element)
  | foreign (value : Value)
deriving Repr, Inhabited

/-- A named production. -/
structure Rule where
  left : String
  right : Element
deriving Repr, Inhabited

/-- A choice or a sequence needs at least one member. -/
inductive EmptyGroup where
  | choice
  | seq
deriving Repr, DecidableEq

def EmptyGroup.message : EmptyGroup → String
  | choice => "mk_choice requires at least one element"
  | seq => "mk_seq requires at least one element"

namespace Element

/-- A choice of several alternatives; a single one stands for itself. -/
def choiceOf : List Element → Except EmptyGroup Element
  | [] => .error .choice
  | [e] => .ok e
  | es => .ok (choice es)

/-- A sequence of several parts; a single one stands for itself. -/
def seqOf : List Element → Except EmptyGroup Element
  | [] => .error .seq
  | [e] => .ok e
  | es => .ok (seq es)

mutual

/-- Structural equality of elements that are parts of other ones. -/
def samePart : Element → Element → Bool
  | atom a, atom b => a == b
  | ref a, ref b => a == b
  | opt a, opt b => samePart a b
  | plus a, plus b => samePart a b
  | star a, star b => samePart a b
  | choice as, choice bs => sameParts as bs
  | seq as, seq bs => sameParts as bs
  | foreign a, foreign b => a.samePart b
  | _, _ => false

def sameParts : List Element → List Element → Bool
  | [], [] => true
  | a :: as, b :: bs => samePart a b && sameParts as bs
  | _, _ => false

end

/-- Structural equality. -/
def same : Element → Element → Bool
  | foreign a, foreign b => a.same b
  | a, b => samePart a b

end Element
end GrammarDoc
