import GrammarDoc.Source.Regions

namespace GrammarDoc.Source

/-- The body of a brace block, after its opening brace and without the closing one. Comments and
literals in either kind of quotes hide the braces inside them. There is no body if the block is
never closed. -/
def blockBody? (depth : Nat) (cs : List Char) : Option (List Char × List Char) :=
  match h : comment? cs with
  | some (text, rest) =>
    have := comment?_shorter h
    (blockBody? depth rest).map fun p => (text ++ p.1, p.2)
  | none =>
    match cs with
    | [] => none
    | c :: rest =>
      if c = '"' ∨ c = '\'' then
        have := quotedRest_length_le c rest
        (blockBody? depth (quotedRest c rest).2).map fun p =>
          (c :: (quotedRest c rest).1 ++ p.1, p.2)
      else if c = '\x7b' then
        (blockBody? (depth + 1) rest).map fun p => (c :: p.1, p.2)
      else if c = '\x7d' then
        match depth with
        | 0 => some ([], rest)
        | depth + 1 => (blockBody? depth rest).map fun p => (c :: p.1, p.2)
      else
        (blockBody? depth rest).map fun p => (c :: p.1, p.2)
termination_by cs.length
decreasing_by
  · exact this
  · exact Nat.lt_succ_of_le this
  · exact Nat.lt_succ_self _
  · exact Nat.lt_succ_self _
  · exact Nat.lt_succ_self _

theorem blockBody?_append {depth : Nat} {cs : List Char} {p : List Char × List Char}
    (h : blockBody? depth cs = some p) : p.1 ++ '\x7d' :: p.2 = cs := by
  fun_induction blockBody? depth cs generalizing p with
  | case1 depth cs text rest hc _ ih =>
    obtain ⟨q, hq, rfl⟩ := Option.map_eq_some_iff.1 h
    rw [← comment?_append hc, ← ih hq, List.append_assoc]
  | case2 => simp at h
  | case3 depth c rest _ _ _ ih =>
    obtain ⟨q, hq, rfl⟩ := Option.map_eq_some_iff.1 h
    have hr := quotedRest_append c rest
    rw [← ih hq] at hr
    simpa using hr
  | case4 depth rest _ _ ih =>
    obtain ⟨q, hq, rfl⟩ := Option.map_eq_some_iff.1 h
    simp [ih hq]
  | case5 => cases h; rfl
  | case6 rest depth _ _ _ ih =>
    obtain ⟨q, hq, rfl⟩ := Option.map_eq_some_iff.1 h
    simp [ih hq]
  | case7 depth c rest _ _ _ _ ih =>
    obtain ⟨q, hq, rfl⟩ := Option.map_eq_some_iff.1 h
    simp [ih hq]

theorem blockBody?_shorter {depth : Nat} {cs : List Char} {p : List Char × List Char}
    (h : blockBody? depth cs = some p) : p.2.length < cs.length := by
  have hl := congrArg List.length (blockBody?_append h)
  simp only [List.length_append, List.length_cons] at hl
  omega

/-- A stretch of source text. A `block` holds what stands between its braces, and `unclosed` is the
text from a brace that is never closed to the end. -/
inductive Piece where
  | comment (text : List Char)
  | literal (text : List Char)
  | bracket (text : List Char)
  | block (body : List Char)
  | char (c : Char)
  | unclosed (text : List Char)
deriving Repr, DecidableEq

namespace Piece

/-- The source text of a piece. -/
def text : Piece → List Char
  | comment cs => cs
  | literal cs => cs
  | bracket cs => cs
  | block body => '\x7b' :: body ++ ['\x7d']
  | char c => [c]
  | unclosed cs => cs

end Piece

/-- Line breaks stay, and everything else becomes a space. -/
def blankOut (c : Char) : Char :=
  if c = '\n' ∨ c = '\r' then c else ' '

/-- The text of a piece with the body of a block blanked out. -/
def Piece.masked : Piece → List Char
  | .block body => '\x7b' :: body.map blankOut ++ ['\x7d']
  | piece => piece.text

/-- Cuts source text into pieces. Outside brace blocks only an apostrophe opens a literal. -/
def pieces (cs : List Char) : List Piece :=
  match h : comment? cs with
  | some (text, rest) =>
    have := comment?_shorter h
    .comment text :: pieces rest
  | none =>
    match cs with
    | [] => []
    | c :: rest =>
      if c = '\'' then
        have := quotedRest_length_le c rest
        .literal (c :: (quotedRest c rest).1) :: pieces (quotedRest c rest).2
      else if c = '[' then
        have := bracketRest_length_le rest
        .bracket (c :: (bracketRest rest).1) :: pieces (bracketRest rest).2
      else if c = '\x7b' then
        match hb : blockBody? 0 rest with
        | none => [.unclosed (c :: rest)]
        | some (body, after) =>
          have := blockBody?_shorter hb
          .block body :: pieces after
      else
        .char c :: pieces rest
termination_by cs.length
decreasing_by
  · exact this
  · exact Nat.lt_succ_of_le this
  · exact Nat.lt_succ_of_le this
  · exact Nat.lt_succ_of_lt this
  · exact Nat.lt_succ_self _

theorem pieces_text (cs : List Char) : (pieces cs).flatMap Piece.text = cs := by
  fun_induction pieces cs with
  | case1 cs text rest h _ ih => simp [Piece.text, ih, ← comment?_append h]
  | case2 => rfl
  | case3 rest _ _ ih => simp [Piece.text, ih, quotedRest_append]
  | case4 rest _ _ _ ih => simp [Piece.text, ih, bracketRest_append]
  | case5 => simp [Piece.text]
  | case6 rest body after hb _ _ _ _ ih => simp [Piece.text, ih, ← blockBody?_append hb]
  | case7 c rest _ _ _ _ ih => simp [Piece.text, ih]

/-- Source text with the bodies of its brace blocks blanked out, so that every block is flat. -/
def maskChars (cs : List Char) : List Char :=
  (pieces cs).flatMap Piece.masked

def mask (text : String) : String :=
  String.ofList (maskChars text.toList)

end GrammarDoc.Source
