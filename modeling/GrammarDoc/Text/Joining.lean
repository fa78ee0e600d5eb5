namespace GrammarDoc.Text

/-- A text in parentheses, if it needs them. -/
def parenthesized (needed : Bool) (s : String) : String :=
  if needed then "(" ++ s ++ ")" else s

end GrammarDoc.Text
