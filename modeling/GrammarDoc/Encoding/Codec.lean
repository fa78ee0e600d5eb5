import GrammarDoc.Encoding.SingleByte
import GrammarDoc.Encoding.Utf16
import GrammarDoc.Encoding.Utf8

namespace GrammarDoc

/-- The ways to write text as bytes. The marked forms start with a byte order mark. -/
inductive Codec where
  | utf8
  | utf8Marked
  | utf16Marked
  | utf16 (order : Encoding.ByteOrder)
  | singleByte (table : Encoding.SingleByte)
deriving Repr, DecidableEq

namespace Codec

/-- The proper name of each encoding. -/
def properNames : List (String × Codec) :=
  [("utf_8", .utf8), ("utf_8_sig", .utf8Marked), ("utf_16", .utf16Marked),
    ("utf_16_le", .utf16 .little), ("utf_16_be", .utf16 .big),
    ("latin_1", .singleByte .latin1), ("ascii", .singleByte .ascii)]

/-- Other names of the encodings. -/
def otherNames : List (List String × Codec) :=
  [(["u8", "utf", "utf8", "utf8_ucs2", "utf8_ucs4", "cp65001"], .utf8),
    (["u16", "utf16"], .utf16Marked),
    (["unicodelittleunmarked", "utf_16le"], .utf16 .little),
    (["unicodebigunmarked", "utf_16be"], .utf16 .big),
    (["8859", "cp819", "csisolatin1", "ibm819", "iso8859", "iso8859_1", "iso_8859_1",
      "iso_8859_1_1987", "iso_ir_100", "l1", "latin", "latin1"], .singleByte .latin1),
    (["646", "ansi_x3.4_1968", "ansi_x3_4_1968", "ansi_x3.4_1986", "cp367", "csascii", "ibm367",
      "iso646_us", "iso_646.irv_1991", "iso_ir_6", "us", "us_ascii"], .singleByte .ascii)]

/-- The words of a name: its letters, digits and points, cut at everything else. -/
def words (cs : List Char) : List (List Char) :=
  let keeps := fun c : Char => c.isAlphanum || c == '.'
  (cs.splitBy fun c d => keeps c == keeps d).filter fun word => word.all keeps

/-- Names are compared without regard to case, and to the marks between their words. -/
def normalName (name : String) : String :=
  "_".intercalate ((words name.toList).map fun word => String.ofList (word.map Char.toLower))

/-- The encoding that is also known by a given name. -/
def ofOtherName? (name : String) : Option Codec :=
  (otherNames.find? fun p => p.1.contains name).map Prod.snd

/-- The encoding with a given name. In the other names a point may stand for an underscore. -/
def ofName? (name : String) : Option Codec :=
  let normal := normalName name
  let pointless := normal.map fun c => if c = '.' then '_' else c
  (ofOtherName? normal).or ((ofOtherName? pointless).or (properNames.lookup normal))

def markUtf8 : List UInt8 :=
  [0xEF, 0xBB, 0xBF]

def encode (codec : Codec) (cs : List Char) : Except Encoding.BadChars (List UInt8) :=
  match codec with
  | utf8 => .ok (Encoding.Utf8.encode cs)
  | utf8Marked => .ok (markUtf8 ++ Encoding.Utf8.encode cs)
  | utf16Marked => .ok (Encoding.Utf16.mark .little ++ Encoding.Utf16.encode .little cs)
  | utf16 order => .ok (Encoding.Utf16.encode order cs)
  | singleByte table => table.encodeFrom 0 cs

/-- Decodes bytes. A mark at the start is dropped by the marked forms; where they expect a byte
order and find none, it is the little one. -/
def decode (codec : Codec) (bytes : List UInt8) : Except Encoding.BadBytes (List Char) :=
  match codec with
  | utf8 => Encoding.Utf8.decode bytes
  | utf8Marked =>
    Encoding.Utf8.decode (if markUtf8.isPrefixOf bytes then bytes.drop 3 else bytes)
  | utf16Marked =>
    match Encoding.Utf16.markedOrder? bytes with
    | some (order, rest) => Encoding.Utf16.decodeFrom order 2 rest
    | none => Encoding.Utf16.decodeFrom .little 0 bytes
  | utf16 order => Encoding.Utf16.decodeFrom order 0 bytes
  | singleByte table => table.decodeFrom 0 bytes

end Codec

/-- Why bytes give no text, or a text no bytes. An error of neither the bytes nor the characters,
such as that of a missing byte order mark, has a message of its own. -/
inductive CodecError where
  | unknown (message : String)
  | badBytes (error : Encoding.BadBytes)
  | badChars (error : Encoding.BadChars)
  | noByteOrder {message : String}
  | zeroInName
deriving Repr, DecidableEq

namespace CodecError

def message : CodecError → String
  | unknown message => message
  | badBytes e => e.message
  | badChars e => e.message
  | @noByteOrder message => message
  | zeroInName => "embedded null character"

/-- Encoding a text is known to end so: the encoding is unknown, or lacks a character. -/
def ofEncoding : CodecError → Bool
  | unknown _ => true
  | badChars _ => true
  | _ => false

/-- Decoding bytes is known to end so: the encoding is unknown, or has no such bytes. -/
def ofDecoding : CodecError → Bool
  | unknown _ => true
  | badBytes _ => true
  | _ => false

end CodecError

/-- What an encoding makes of a text, of a stream of bytes, and of the bytes of a file, which need
not be taken like those of a stream. -/
structure Coding where
  encode : List Char → Except CodecError (List UInt8)
  decode : List UInt8 → Except CodecError (List Char)
  decodeFile : List UInt8 → Except CodecError (List Char)

/-- The encodings beside those that are described here, by their names. -/
abbrev Codings :=
  String → Option Coding

namespace Codec

/-- Whether a zero character stands in a name. -/
def hasZero (name : String) : Bool :=
  name.toList.contains '\x00'

/-- The characters of a file. Nothing but the start of a mark is no text, and a text of more than
one byte has to show its byte order where one is expected. -/
def decodeFile (codec : Codec) (bytes : List UInt8) : Except CodecError (List Char) := do
  if codec = .utf8Marked ∧ bytes.length < 3 ∧ bytes.isPrefixOf markUtf8 then return []
  let cs ← (codec.decode bytes).mapError .badBytes
  if codec = .utf16Marked ∧ 2 ≤ bytes.length ∧ (Encoding.Utf16.markedOrder? bytes).isNone then
    throw (@CodecError.noByteOrder "UTF-16 stream does not start with BOM")
  return cs

def coding (codec : Codec) : Coding where
  encode cs := (codec.encode cs).mapError .badChars
  decode bytes := (codec.decode bytes).mapError .badBytes
  decodeFile := codec.decodeFile

/-- The encoding with a given name. A zero character in it is told apart from an unknown name. -/
def named (others : Codings) (name : String) : Except CodecError Coding :=
  if hasZero name then .error .zeroInName
  else
    match ofName? name with
    | some codec => .ok codec.coding
    | none =>
      match others name with
      | some coding => .ok coding
      | none => .error (.unknown ("unknown encoding: " ++ name))

/-- The bytes of a text in the encoding of a given name. -/
def encodeAs (others : Codings) (name text : String) : Except CodecError (List UInt8) := do
  (← named others name).encode text.toList

/-- The text of a stream of bytes. No bytes are no text in any encoding, even an unknown one, but a
zero character in its name is an error all the same. -/
def decodeStream (others : Codings) (name : String) (bytes : List UInt8) :
    Except CodecError String := do
  if bytes.isEmpty ∧ ¬hasZero name then return ""
  let cs ← (← named others name).decode bytes
  return String.ofList cs

/-- Every kind of line break becomes a line feed. -/
def unifyLineBreaks : List Char → List Char
  | [] => []
  | '\r' :: '\n' :: cs => '\n' :: unifyLineBreaks cs
  | c :: cs => (if c = '\r' then '\n' else c) :: unifyLineBreaks cs

/-- The name under which files are read in the encoding of the system, which is UTF-8. -/
def systemName : String :=
  "locale"

/-- The text of a file in the encoding of a given name. -/
def readFile (others : Codings) (name : String) (bytes : List UInt8) :
    Except CodecError String := do
  let coding ← if name = systemName then pure utf8.coding else named others name
  let cs ← coding.decodeFile bytes
  return String.ofList (unifyLineBreaks cs)

end Codec
end GrammarDoc
