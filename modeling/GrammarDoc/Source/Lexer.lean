import GrammarDoc.Source.Regions
import GrammarDoc.Source.Token
import GrammarDoc.Text.Blank
import GrammarDoc.Text.Digit

namespace GrammarDoc.Source

open Text (isAsciiDigit)

/-- White space between tokens; no other character may stand there. -/
def isSpace (c : Char) : Bool :=
  c == ' ' || c == '\t' || c == '\x0C' || c == '\r' || c == '\n'

def isSmall (c : Char) : Bool :=
  'a' ≤ c && c ≤ 'z'

def isCapital (c : Char) : Bool :=
  'A' ≤ c && c ≤ 'Z'

/-- Characters that may follow the first one of a name. -/
def isNameChar (c : Char) : Bool :=
  isSmall c || isCapital c || isAsciiDigit c || c == '_'

/-- The words that are never names. -/
def keywords : List (String × TokenKind) :=
  [("grammar", .grammar), ("lexer", .lexer), ("parser", .parser), ("fragment", .fragment),
    ("mode", .mode), ("import", .imports), ("returns", .returns), ("throws", .throws),
    ("locals", .locals), ("catch", .catches), ("finally", .finallyWord)]

/-- The words that open a block when nothing but blank characters stands between them and a
brace. -/
def blockOpeners : List (String × TokenKind) :=
  [("options", .options), ("tokens", .tokens), ("channels", .channels)]

/-- The kind of a word that starts with a small letter, given the text after it. -/
def wordKind (word : String) (rest : List Char) : TokenKind :=
  let opener? := if (rest.dropWhile Text.isBlank).head? = some '\x7b' then
    blockOpeners.lookup word else none
  opener?.getD ((keywords.lookup word).getD .ruleName)

/-- The rest of a string literal after its opening apostrophe. It holds no line break, and a
backslash takes the next character with it unless that is a line feed. -/
def literalRest? : List Char → Option (List Char × List Char)
  | [] => none
  | '\\' :: c :: rest =>
    if c = '\n' then none else (literalRest? rest).map fun p => ('\\' :: c :: p.1, p.2)
  | c :: rest =>
    if c = '\'' then some ([c], rest)
    else if c = '\\' ∨ c = '\r' ∨ c = '\n' then none
    else (literalRest? rest).map fun p => (c :: p.1, p.2)

/-- The rest of a bracket block after its opening bracket. It may hold line breaks, but a backslash
takes no line feed with it. -/
def bracketBlockRest? : List Char → Option (List Char × List Char)
  | [] => none
  | '\\' :: c :: rest =>
    if c = '\n' then none else (bracketBlockRest? rest).map fun p => ('\\' :: c :: p.1, p.2)
  | c :: rest =>
    if c = ']' then some ([c], rest)
    else if c = '\\' then none
    else (bracketBlockRest? rest).map fun p => (c :: p.1, p.2)

/-- The rest of a block that does not nest, after its opening mark. -/
def flatRest? (opening closing : Char) : List Char → Option (List Char × List Char)
  | [] => none
  | c :: rest =>
    if c = closing then some ([c], rest)
    else if c = opening then none
    else (flatRest? opening closing rest).map fun p => (c :: p.1, p.2)

/-- The marks of two characters, which win over those of one. -/
def longMark? : Char → Char → Option TokenKind
  | ':', ':' => some .doubleColon
  | '.', '.' => some .range
  | '+', '=' => some .plusAssign
  | '-', '>' => some .arrow
  | _, _ => none

def mark? : Char → Option TokenKind
  | '?' => some .question
  | '*' => some .star
  | '+' => some .plus
  | '=' => some .assign
  | '.' => some .dot
  | ';' => some .semicolon
  | ':' => some .colon
  | ',' => some .comma
  | '|' => some .bar
  | '#' => some .hash
  | '~' => some .tilde
  | '(' => some .openParen
  | ')' => some .closeParen
  | _ => none

/-- A stretch of text that stands for a token, or for nothing if it has no kind. -/
structure Lexeme where
  kind? : Option TokenKind
  text : List Char
deriving Repr, DecidableEq

/-- What follows the first character of a lexeme, and the text after it. -/
structure Extent where
  kind? : Option TokenKind
  tail : List Char
  after : List Char
deriving Repr, DecidableEq

/-- A run of characters of one class. -/
def runExtent (kind? : Option TokenKind) (p : Char → Bool) (rest : List Char) : Extent :=
  ⟨kind?, rest.takeWhile p, rest.dropWhile p⟩

/-- A token that was read up to its closing mark. -/
def closedExtent (kind : TokenKind) (p : List Char × List Char) : Extent :=
  ⟨some kind, p.1, p.2⟩

/-- A comment after its first slash; a block comment has to be closed. -/
def commentExtent? : List Char → Option Extent
  | '/' :: rest => some ⟨none, '/' :: (lineRest rest).1, (lineRest rest).2⟩
  | '*' :: rest => (throughCommentEnd? rest).map fun p => ⟨none, '*' :: p.1, p.2⟩
  | _ => none

/-- A name after its at sign. -/
def atNameExtent? : List Char → Option Extent
  | [] => none
  | d :: rest =>
    if isSmall d || isCapital d || d == '_' then
      some ⟨some .atName, d :: rest.takeWhile isNameChar, rest.dropWhile isNameChar⟩
    else none

def markExtent? (c : Char) : List Char → Option Extent
  | [] => (mark? c).map fun kind => ⟨some kind, [], []⟩
  | d :: rest =>
    match longMark? c d with
    | some kind => some ⟨some kind, [d], rest⟩
    | none => (mark? c).map fun kind => ⟨some kind, [], d :: rest⟩

/-- A word that starts with a small letter: a block opener, a keyword or a name. -/
def wordExtent (c : Char) (rest : List Char) : Extent :=
  let tail := rest.takeWhile isNameChar
  let after := rest.dropWhile isNameChar
  ⟨some (wordKind (String.ofList (c :: tail)) after), tail, after⟩

/-- How far the lexeme goes that starts with a given character. -/
def extent? (c : Char) (rest : List Char) : Option Extent :=
  if isSpace c then some (runExtent none isSpace rest)
  else if isSmall c then some (wordExtent c rest)
  else if isCapital c then some (runExtent (some .tokenName) isNameChar rest)
  else if isAsciiDigit c then some (runExtent (some .integer) isAsciiDigit rest)
  else
    match c with
    | '/' => commentExtent? rest
    | '\'' => (literalRest? rest).map (closedExtent .literal)
    | '[' => (bracketBlockRest? rest).map (closedExtent .bracketBlock)
    | '\x7b' => (flatRest? '\x7b' '\x7d' rest).map (closedExtent .braceBlock)
    | '<' => (flatRest? '<' '>' rest).map (closedExtent .angleBlock)
    | '@' => atNameExtent? rest
    | _ => markExtent? c rest

/-- The lexeme at the start of the text and the text after it, if there is one. -/
def lexeme? : List Char → Option (Lexeme × List Char)
  | [] => none
  | c :: rest => (extent? c rest).map fun e => (⟨e.kind?, c :: e.tail⟩, e.after)

theorem literalRest?_append {cs : List Char} {p : List Char × List Char}
    (h : literalRest? cs = some p) : p.1 ++ p.2 = cs := by
  fun_induction literalRest? cs generalizing p with
  | case1 => simp at h
  | case2 => simp at h
  | case3 c rest _ ih =>
    obtain ⟨q, hq, rfl⟩ := Option.map_eq_some_iff.1 h
    simp [ih hq]
  | case4 => cases h; rfl
  | case5 => simp at h
  | case6 c rest _ _ _ ih =>
    obtain ⟨q, hq, rfl⟩ := Option.map_eq_some_iff.1 h
    simp [ih hq]

theorem bracketBlockRest?_append {cs : List Char} {p : List Char × List Char}
    (h : bracketBlockRest? cs = some p) : p.1 ++ p.2 = cs := by
  fun_induction bracketBlockRest? cs generalizing p with
  | case1 => simp at h
  | case2 => simp at h
  | case3 c rest _ ih =>
    obtain ⟨q, hq, rfl⟩ := Option.map_eq_some_iff.1 h
    simp [ih hq]
  | case4 => cases h; rfl
  | case5 => simp at h
  | case6 c rest _ _ _ ih =>
    obtain ⟨q, hq, rfl⟩ := Option.map_eq_some_iff.1 h
    simp [ih hq]

theorem flatRest?_append {a b : Char} {cs : List Char} {p : List Char × List Char}
    (h : flatRest? a b cs = some p) : p.1 ++ p.2 = cs := by
  induction cs generalizing p with
  | nil => simp [flatRest?] at h
  | cons c rest ih =>
    unfold flatRest? at h
    split at h
    · cases h
      rfl
    · split at h
      · simp at h
      · obtain ⟨q, hq, rfl⟩ := Option.map_eq_some_iff.1 h
        simp [ih hq]

theorem runExtent_append (kind? : Option TokenKind) (p : Char → Bool) (rest : List Char) :
    (runExtent kind? p rest).tail ++ (runExtent kind? p rest).after = rest :=
  List.takeWhile_append_dropWhile

theorem commentExtent?_append {rest : List Char} {e : Extent}
    (h : commentExtent? rest = some e) : e.tail ++ e.after = rest := by
  unfold commentExtent? at h
  split at h
  · cases h
    simp [lineRest_append]
  · obtain ⟨q, hq, rfl⟩ := Option.map_eq_some_iff.1 h
    simp [throughCommentEnd?_append hq]
  · simp at h

theorem atNameExtent?_append {rest : List Char} {e : Extent}
    (h : atNameExtent? rest = some e) : e.tail ++ e.after = rest := by
  unfold atNameExtent? at h
  split at h
  · simp at h
  · split at h
    · cases h
      simp [List.takeWhile_append_dropWhile]
    · simp at h

theorem markExtent?_append {c : Char} {rest : List Char} {e : Extent}
    (h : markExtent? c rest = some e) : e.tail ++ e.after = rest := by
  unfold markExtent? at h
  split at h
  · obtain ⟨k, _, rfl⟩ := Option.map_eq_some_iff.1 h
    rfl
  · split at h
    · cases h
      rfl
    · obtain ⟨k, _, rfl⟩ := Option.map_eq_some_iff.1 h
      rfl

theorem extent?_append {c : Char} {rest : List Char} {e : Extent}
    (h : extent? c rest = some e) : e.tail ++ e.after = rest := by
  unfold extent? at h
  split at h
  · cases h
    exact runExtent_append ..
  split at h
  · cases h
    exact List.takeWhile_append_dropWhile
  split at h
  · cases h
    exact runExtent_append ..
  split at h
  · cases h
    exact runExtent_append ..
  split at h
  · exact commentExtent?_append h
  · obtain ⟨q, hq, rfl⟩ := Option.map_eq_some_iff.1 h
    exact literalRest?_append hq
  · obtain ⟨q, hq, rfl⟩ := Option.map_eq_some_iff.1 h
    exact bracketBlockRest?_append hq
  · obtain ⟨q, hq, rfl⟩ := Option.map_eq_some_iff.1 h
    exact flatRest?_append hq
  · obtain ⟨q, hq, rfl⟩ := Option.map_eq_some_iff.1 h
    exact flatRest?_append hq
  · exact atNameExtent?_append h
  · exact markExtent?_append h

/-- Nothing is lost between a lexeme and the text after it. -/
theorem lexeme?_append {cs : List Char} {p : Lexeme × List Char} (h : lexeme? cs = some p) :
    p.1.text ++ p.2 = cs := by
  cases cs with
  | nil => simp [lexeme?] at h
  | cons c rest =>
    obtain ⟨e, he, rfl⟩ := Option.map_eq_some_iff.1 h
    simp [extent?_append he]

/-- No lexeme is empty. -/
theorem lexeme?_ne_nil {cs : List Char} {p : Lexeme × List Char} (h : lexeme? cs = some p) :
    p.1.text ≠ [] := by
  cases cs with
  | nil => simp [lexeme?] at h
  | cons c rest =>
    obtain ⟨e, _, rfl⟩ := Option.map_eq_some_iff.1 h
    simp

theorem lexeme?_shorter {cs : List Char} {p : Lexeme × List Char} (h : lexeme? cs = some p) :
    p.2.length < cs.length := by
  have hl := congrArg List.length (lexeme?_append h)
  have := List.length_pos_iff.mpr (lexeme?_ne_nil h)
  simp only [List.length_append] at hl
  omega

/-- The tokens of a text, and the place where reading stopped if no lexeme stands there. -/
structure Reading where
  tokens : List Token
  stop? : Option Text.Position
deriving Repr, DecidableEq

/-- Reads lexemes from a place on. White space and comments are passed over. -/
def readFrom (place : Text.Position) (cs : List Char) : Reading :=
  match cs with
  | [] => ⟨[], none⟩
  | c :: rest =>
    match h : lexeme? (c :: rest) with
    | none => ⟨[], some place⟩
    | some (lexeme, after) =>
      have : after.length < (c :: rest).length := lexeme?_shorter h
      let next := place.after lexeme.text
      let later := readFrom next after
      match lexeme.kind? with
      | none => later
      | some kind =>
        ⟨⟨kind, String.ofList lexeme.text, ⟨place, next⟩⟩ :: later.tokens, later.stop?⟩
termination_by cs.length
decreasing_by exact this

def readTokens (cs : List Char) : Reading :=
  readFrom .start cs

end GrammarDoc.Source
