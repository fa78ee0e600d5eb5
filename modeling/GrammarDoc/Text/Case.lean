namespace GrammarDoc.Text

/-- Lower-casing as far as it can produce an ASCII letter: the capital ASCII letters, and the kelvin
sign, whose lower-case form is `k`. Every other character is left alone. -/
def lowerChar (c : Char) : Char :=
  if c = '\u212A' then 'k' else c.toLower

/-- Upper-casing as far as it can produce ASCII letters alone: the small ASCII letters, the dotless
i, the long and sharp s, and the Latin ligatures, which open up into their letters. -/
def upperChars (c : Char) : List Char :=
  match c.toNat with
  | 0xDF => ['S', 'S']
  | 0x131 => ['I']
  | 0x17F => ['S']
  | 0xFB00 => ['F', 'F']
  | 0xFB01 => ['F', 'I']
  | 0xFB02 => ['F', 'L']
  | 0xFB03 => ['F', 'F', 'I']
  | 0xFB04 => ['F', 'F', 'L']
  | 0xFB05 => ['S', 'T']
  | 0xFB06 => ['S', 'T']
  | _ => [c.toUpper]

/-- A text is compared with a word of small ASCII letters after lower-casing. -/
def lower (s : String) : String :=
  String.ofList (s.toList.map lowerChar)

/-- A text is compared with a word of capital ASCII letters after upper-casing. -/
def upper (s : String) : String :=
  String.ofList (s.toList.flatMap upperChars)

end GrammarDoc.Text
