namespace GrammarDoc.Source

/-- What is left of the line, without its line feed, and the text from there on. -/
def lineRest (cs : List Char) : List Char × List Char :=
  (cs.takeWhile (· ≠ '\n'), cs.dropWhile (· ≠ '\n'))

/-- Through the first end mark of a block comment, if there is one. -/
def throughCommentEnd? : List Char → Option (List Char × List Char)
  | [] => none
  | '*' :: '/' :: rest => some (['*', '/'], rest)
  | c :: rest => (throughCommentEnd? rest).map fun p => (c :: p.1, p.2)

/-- A comment at the start of the text. A block comment that is never closed takes the whole
text. -/
def comment? : List Char → Option (List Char × List Char)
  | '/' :: '/' :: rest =>
    let p := lineRest rest
    some ('/' :: '/' :: p.1, p.2)
  | '/' :: '*' :: rest =>
    let p := (throughCommentEnd? rest).getD (rest, [])
    some ('/' :: '*' :: p.1, p.2)
  | _ => none

/-- The rest of a quoted literal after its opening quote. A backslash takes the next character with
it; a literal that is not closed on its line stops before the line feed. -/
def quotedRest (quote : Char) : List Char → List Char × List Char
  | [] => ([], [])
  | '\\' :: c :: rest =>
    let p := quotedRest quote rest
    ('\\' :: c :: p.1, p.2)
  | c :: rest =>
    if c = quote then ([c], rest)
    else if c = '\n' then ([], c :: rest)
    else
      let p := quotedRest quote rest
      (c :: p.1, p.2)

/-- The rest of a bracket block after its opening bracket; one that is never closed takes the whole
text. -/
def bracketRest : List Char → List Char × List Char
  | [] => ([], [])
  | '\\' :: c :: rest =>
    let p := bracketRest rest
    ('\\' :: c :: p.1, p.2)
  | c :: rest =>
    if c = ']' then ([c], rest)
    else
      let p := bracketRest rest
      (c :: p.1, p.2)

theorem lineRest_append (cs : List Char) : (lineRest cs).1 ++ (lineRest cs).2 = cs :=
  List.takeWhile_append_dropWhile

theorem throughCommentEnd?_append {cs : List Char} {p : List Char × List Char}
    (h : throughCommentEnd? cs = some p) : p.1 ++ p.2 = cs := by
  fun_induction throughCommentEnd? cs generalizing p with
  | case1 => simp at h
  | case2 rest => cases h; rfl
  | case3 c rest _ ih =>
    obtain ⟨q, hq, rfl⟩ := Option.map_eq_some_iff.1 h
    simp [ih hq]

theorem comment?_append {cs : List Char} {p : List Char × List Char}
    (h : comment? cs = some p) : p.1 ++ p.2 = cs := by
  unfold comment? at h
  split at h
  · cases h
    simp [lineRest_append]
  · cases h
    rename_i rest
    cases hc : throughCommentEnd? rest with
    | none => simp
    | some q => simp [throughCommentEnd?_append hc]
  · simp at h

theorem comment?_shorter {cs : List Char} {p : List Char × List Char}
    (h : comment? cs = some p) : p.2.length < cs.length := by
  have ha := comment?_append h
  have hn : p.1 ≠ [] := by
    unfold comment? at h
    split at h <;> cases h <;> simp
  have hl := congrArg List.length ha
  have := List.length_pos_iff.mpr hn
  simp only [List.length_append] at hl
  omega

theorem quotedRest_append (quote : Char) (cs : List Char) :
    (quotedRest quote cs).1 ++ (quotedRest quote cs).2 = cs := by
  fun_induction quotedRest quote cs with
  | case1 => rfl
  | case2 c rest p ih => simp only [List.cons_append, p, ih]
  | case3 => rfl
  | case4 => rfl
  | case5 c rest _ _ _ p ih => simp only [List.cons_append, p, ih]

theorem bracketRest_append (cs : List Char) :
    (bracketRest cs).1 ++ (bracketRest cs).2 = cs := by
  fun_induction bracketRest cs with
  | case1 => rfl
  | case2 c rest p ih => simp only [List.cons_append, p, ih]
  | case3 => rfl
  | case4 c rest _ _ p ih => simp only [List.cons_append, p, ih]

theorem quotedRest_length_le (quote : Char) (cs : List Char) :
    (quotedRest quote cs).2.length ≤ cs.length := by
  have h := congrArg List.length (quotedRest_append quote cs)
  simp only [List.length_append] at h
  omega

theorem bracketRest_length_le (cs : List Char) : (bracketRest cs).2.length ≤ cs.length := by
  have h := congrArg List.length (bracketRest_append cs)
  simp only [List.length_append] at h
  omega

end GrammarDoc.Source
