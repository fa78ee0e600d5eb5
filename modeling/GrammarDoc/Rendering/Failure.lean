import GrammarDoc.Value

namespace GrammarDoc

/-- A rendering fails at the first value that is no grammar element. -/
structure NotAnElement where
  value : Value
deriving Repr, Inhabited

/-- What is said of such a value: that it is no element, or that it cannot even be written. -/
inductive Complaint where
  | notAnElement (text : String)
  | unwritable
deriving Repr, DecidableEq

def Complaint.message : Complaint → String
  | notAnElement text => "not a grammar element: " ++ text
  | unwritable => Value.tooManyDigits ""

/-- The value has to be written before anything can be said of it. -/
def NotAnElement.complaint (e : NotAnElement) : Complaint :=
  if e.value.isWritable then .notAnElement e.value.inspect else .unwritable

def NotAnElement.message (e : NotAnElement) : String :=
  e.complaint.message

end GrammarDoc
