import GrammarDoc.Proofs.Source.Locality

namespace GrammarDoc.Source

/-- What may stand in a quoted literal of a brace block: a backslash with the character after it,
and characters other than the quote, a backslash and a line feed. -/
inductive Inside (quote : Char) : List Char → Prop
  | nil : Inside quote []
  | pair {c : Char} {cs : List Char} : Inside quote cs → Inside quote ('\\' :: c :: cs)
  | plain {c : Char} {cs : List Char} :
      c ∉ [quote, '\\', '\n'] → Inside quote cs → Inside quote (c :: cs)

/-- No comment starts a text. -/
def OpensNoComment (cs : List Char) : Prop :=
  ¬['/', '/'] <+: cs ∧ ¬['/', '*'] <+: cs

mutual

/-- An item of a brace block, in front of the text after it. A literal that is not closed on its
line goes up to the line feed. -/
inductive Item : List Char → List Char → Prop
  | block {body rest : List Char} :
      Items body ('\x7d' :: rest) → Item ('\x7b' :: (body ++ ['\x7d'])) rest
  | lineComment {body rest : List Char} :
      '\n' ∉ body → Item ('/' :: '/' :: body) ('\n' :: rest)
  | blockComment {body rest : List Char} :
      ¬['*', '/'] <:+: body → Item ('/' :: '*' :: (body ++ ['*', '/'])) rest
  | literal {quote : Char} {body rest : List Char} :
      quote ∈ ['"', '\''] → Inside quote body → Item (quote :: (body ++ [quote])) rest
  | cutLiteral {quote : Char} {body rest : List Char} :
      quote ∈ ['"', '\''] → Inside quote body → Item (quote :: body) ('\n' :: rest)
  | char {c : Char} {rest : List Char} :
      c ∉ ['\x7b', '\x7d', '"', '\''] → OpensNoComment (c :: rest) → Item [c] rest

/-- Items in a row, in front of the text after them. -/
inductive Items : List Char → List Char → Prop
  | nil {rest : List Char} : Items [] rest
  | cons {xs ys rest : List Char} :
      Item xs (ys ++ rest) → Items ys rest → Items (xs ++ ys) rest

end

/-- A brace block: items between two braces. -/
def IsBlock (cs : List Char) : Prop :=
  ∃ body, cs = '\x7b' :: (body ++ ['\x7d']) ∧ Items body ['\x7d']

/-- A brace block stands between two offsets. -/
def BlockBetween (cs : List Char) (first last : Nat) : Prop :=
  last ≤ cs.length ∧ IsBlock (cs.extract first last)

/-- The offset just past the brace that closes the block opened at an offset. -/
def blockEnd? (cs : List Char) (first : Nat) : Option Nat :=
  (blockBody? 0 (cs.drop (first + 1))).map fun p => first + p.1.length + 2

variable {cs rest xs ys body : List Char} {c quote : Char} {depth first last : Nat}
variable {p : List Char × List Char}

section Regions

theorem opensNoComment_iff : OpensNoComment cs ↔ comment? cs = none := by
  unfold OpensNoComment comment?
  split
  next => simp
  next => simp
  next hline hblock =>
    refine ⟨fun _ => rfl, fun _ => ⟨?_, ?_⟩⟩
    · rintro ⟨rest, rfl⟩
      exact hline rest rfl
    · rintro ⟨rest, rfl⟩
      exact hblock rest rfl

theorem quotedRest_of_inside (h : Inside quote body) (rest : List Char) :
    quotedRest quote (body ++ rest) =
      (body ++ (quotedRest quote rest).1, (quotedRest quote rest).2) := by
  induction h with
  | nil => rfl
  | pair _ ih => rw [List.cons_append, List.cons_append, quotedRest, ih]; rfl
  | @plain c cs hc _ ih =>
    simp only [List.mem_cons, List.not_mem_nil, or_false, not_or] at hc
    obtain ⟨hquote, hescape, hfeed⟩ := hc
    rw [List.cons_append, quotedRest, if_neg hquote, if_neg hfeed, ih]
    · rfl
    · exact fun _ _ he => absurd he hescape

theorem quotedRest_quote (hq : quote ≠ '\\') (rest : List Char) :
    quotedRest quote (quote :: rest) = ([quote], rest) := by
  rw [quotedRest, if_pos rfl]
  exact fun _ _ he => absurd he hq

theorem quotedRest_feed (hq : quote ≠ '\n') (rest : List Char) :
    quotedRest quote ('\n' :: rest) = ([], '\n' :: rest) := by
  rw [quotedRest, if_neg hq.symm, if_pos rfl]
  exact fun _ _ he => absurd he (by decide)

/-- A literal with text after it is closed, or there is a line feed after it. -/
theorem exists_inside_of_quotedRest (hne : (quotedRest quote cs).2 ≠ []) :
    ∃ body, Inside quote body ∧ ((quotedRest quote cs).1 = body ++ [quote] ∨
      (quotedRest quote cs).1 = body ∧ (quotedRest quote cs).2.head? = some '\n') := by
  fun_induction quotedRest quote cs with
  | case1 => exact absurd rfl hne
  | case2 c rest p ih =>
    obtain ⟨body, hbody, hend⟩ := ih hne
    refine ⟨'\\' :: c :: body, .pair hbody, ?_⟩
    rcases hend with hend | ⟨hend, hfeed⟩
    · exact .inl (by rw [hend]; rfl)
    · exact .inr ⟨by rw [hend], hfeed⟩
  | case3 rest => exact ⟨[], .nil, .inl rfl⟩
  | case4 rest => exact ⟨[], .nil, .inr ⟨rfl, rfl⟩⟩
  | case5 c rest hn hq hl p ih =>
    obtain ⟨body, hbody, hend⟩ := ih hne
    have hescape : c ≠ '\\' := by
      rintro rfl
      cases rest with
      | nil => exact hne rfl
      | cons d ds => exact hn d ds rfl rfl
    have hc : c ∉ [quote, '\\', '\n'] := by simp [hq, hl, hescape]
    refine ⟨c :: body, .plain hc hbody, ?_⟩
    rcases hend with hend | ⟨hend, hfeed⟩
    · exact .inl (by rw [hend]; rfl)
    · exact .inr ⟨by rw [hend], hfeed⟩

theorem exists_of_throughCommentEnd? (h : throughCommentEnd? cs = some p) :
    ∃ body, ¬['*', '/'] <:+: body ∧ p.1 = body ++ ['*', '/'] := by
  fun_induction throughCommentEnd? cs generalizing p with
  | case1 => cases h
  | case2 rest =>
    cases h
    exact ⟨[], by simp, rfl⟩
  | case3 c rest hn ih =>
    obtain ⟨q, hq, rfl⟩ := Option.map_eq_some_iff.mp h
    obtain ⟨body, hbody, hend⟩ := ih hq
    refine ⟨c :: body, ?_, by rw [hend]; rfl⟩
    rw [List.infix_cons_iff, not_or]
    refine ⟨?_, hbody⟩
    rintro ⟨tail, ht⟩
    obtain ⟨rfl, rfl⟩ := List.cons.inj ht
    have happ := throughCommentEnd?_append hq
    rw [hend] at happ
    exact hn _ rfl happ.symm

/-- A comment with text after it is an item. -/
theorem item_of_comment? (h : comment? cs = some p) (hne : p.2 ≠ []) : Item p.1 p.2 := by
  unfold comment? at h
  split at h
  next line =>
    cases h
    obtain ⟨d, rest, hrest⟩ := List.exists_cons_of_ne_nil hne
    have hstop := List.head?_dropWhile_not (· ≠ '\n') line
    have hfeed : d = '\n' := by
      change line.dropWhile (· ≠ '\n') = d :: rest at hrest
      rw [hrest] at hstop
      simpa using hstop
    have hbody : '\n' ∉ (lineRest line).1 := by
      intro hm
      simpa using List.mem_takeWhile_imp hm
    change Item ('/' :: '/' :: (lineRest line).1) (lineRest line).2
    rw [hrest, hfeed]
    exact .lineComment hbody
  next block =>
    cases h
    cases hb : throughCommentEnd? block with
    | none =>
      rw [hb] at hne
      exact absurd rfl hne
    | some q =>
      obtain ⟨body, hbody, hend⟩ := exists_of_throughCommentEnd? hb
      change Item ('/' :: '*' :: q.1) q.2
      rw [hend]
      exact .blockComment hbody
  next => cases h

/-- A quoted literal with text after it is an item. -/
theorem item_of_quotedRest (hq : quote ∈ ['"', '\'']) (hne : (quotedRest quote cs).2 ≠ []) :
    Item (quote :: (quotedRest quote cs).1) (quotedRest quote cs).2 := by
  obtain ⟨body, hbody, hend | ⟨hend, hfeed⟩⟩ := exists_inside_of_quotedRest hne
  · rw [hend]
    exact .literal hq hbody
  · obtain ⟨rest, hrest⟩ := List.head?_eq_some_iff.mp hfeed
    rw [hend, hrest]
    exact .cutLiteral hq hbody

end Regions

section Closing

/-- Text up to the brace that closes the outermost of some open blocks. -/
inductive Closing : Nat → List Char → List Char → Prop
  | last {body rest : List Char} : Items body ('\x7d' :: rest) → Closing 0 body rest
  | next {depth : Nat} {inner outer rest : List Char} :
      Items inner ('\x7d' :: (outer ++ '\x7d' :: rest)) → Closing depth outer rest →
      Closing (depth + 1) (inner ++ '\x7d' :: outer) rest

theorem Closing.cons (hx : Item xs (body ++ '\x7d' :: rest)) (h : Closing depth body rest) :
    Closing depth (xs ++ body) rest := by
  cases h with
  | last hi => exact .last (.cons hx hi)
  | @next depth inner outer _ hi ho =>
    have hx' : Item xs (inner ++ '\x7d' :: (outer ++ '\x7d' :: rest)) := by simpa using hx
    have hnext := Closing.next (.cons hx' hi) ho
    simpa using hnext

/-- The items up to a brace become one item when the block around them opens. -/
theorem Closing.enclose (h : Closing (depth + 1) body rest) :
    Closing depth ('\x7b' :: body) rest := by
  cases h with
  | @next _ inner outer _ hi ho =>
    have hcons := Closing.cons (.block hi) ho
    simpa using hcons

/-- What the scan goes over is made of items, whatever the number of open blocks is. -/
theorem closing_of_blockBody? (h : blockBody? depth cs = some p) : Closing depth p.1 p.2 := by
  -- The text after an item is what the rest of the scan goes over, so it is not empty.
  have hafter : ∀ {depth : Nat} {cs : List Char} {q : List Char × List Char},
      blockBody? depth cs = some q → cs = q.1 ++ '\x7d' :: q.2 ∧ cs ≠ [] := by
    intro depth cs q hq
    have happ := (blockBody?_append hq).symm
    exact ⟨happ, by rw [happ]; simp⟩
  fun_induction blockBody? depth cs generalizing p with
  | case1 depth cs text rest hc _ ih =>
    obtain ⟨q, hq, rfl⟩ := Option.map_eq_some_iff.mp h
    obtain ⟨happ, hne⟩ := hafter hq
    have hitem : Item text rest := item_of_comment? hc hne
    rw [happ] at hitem
    exact .cons hitem (ih hq)
  | case2 => cases h
  | case3 depth c rest hc hquote _ ih =>
    obtain ⟨q, hq, rfl⟩ := Option.map_eq_some_iff.mp h
    obtain ⟨happ, hne⟩ := hafter hq
    have hitem := item_of_quotedRest (by simpa using hquote) hne
    rw [happ] at hitem
    exact .cons hitem (ih hq)
  | case4 depth rest hc hquote ih =>
    obtain ⟨q, hq, rfl⟩ := Option.map_eq_some_iff.mp h
    exact (ih hq).enclose
  | case5 rest hc hquote hopen =>
    cases h
    exact .last .nil
  | case6 rest depth hc hquote hopen ih =>
    obtain ⟨q, hq, rfl⟩ := Option.map_eq_some_iff.mp h
    exact .next .nil (ih hq)
  | case7 depth c rest hc hquote hopen hclose ih =>
    obtain ⟨q, hq, rfl⟩ := Option.map_eq_some_iff.mp h
    rw [(hafter hq).1, ← opensNoComment_iff] at hc
    rw [not_or] at hquote
    have hplain : c ∉ ['\x7b', '\x7d', '"', '\''] := by simp [hopen, hclose, hquote]
    exact .cons (.char hplain hc) (ih hq)

end Closing

section Passing

/-- The scan goes over a literal in one step. -/
theorem blockBody?_of_quoted (hq : quote ∈ ['"', '\''])
    (h : quotedRest quote cs = (body, rest)) :
    blockBody? depth (quote :: cs) =
      (blockBody? depth rest).map fun p => (quote :: body ++ p.1, p.2) := by
  have hslash : quote ≠ '/' := by
    rintro rfl
    exact absurd hq (by decide)
  have hquote : quote = '"' ∨ quote = '\'' := by simpa using hq
  rw [blockBody?_of_char (comment?_eq_none hslash), if_pos hquote, h]

theorem blockBody?_open : blockBody? depth ('\x7b' :: rest) =
    (blockBody? (depth + 1) rest).map fun p => ('\x7b' :: p.1, p.2) := by
  rw [blockBody?_of_char (comment?_eq_none (by decide)), if_neg (by decide), if_pos rfl]

theorem blockBody?_close : blockBody? (depth + 1) ('\x7d' :: rest) =
    (blockBody? depth rest).map fun p => ('\x7d' :: p.1, p.2) := by
  rw [blockBody?_of_char (comment?_eq_none (by decide)), if_neg (by decide), if_neg (by decide),
    if_pos rfl]

theorem blockBody?_last : blockBody? 0 ('\x7d' :: rest) = some ([], rest) := by
  rw [blockBody?_of_char (comment?_eq_none (by decide)), if_neg (by decide), if_neg (by decide),
    if_pos rfl]

theorem blockBody?_plain (hc : c ∉ ['\x7b', '\x7d', '"', '\''])
    (hn : OpensNoComment (c :: rest)) :
    blockBody? depth (c :: rest) = (blockBody? depth rest).map fun p => (c :: p.1, p.2) := by
  simp only [List.mem_cons, List.not_mem_nil, or_false, not_or] at hc
  obtain ⟨hopen, hclose, hdouble, hsingle⟩ := hc
  rw [blockBody?_of_char (opensNoComment_iff.mp hn), if_neg (by simp [hdouble, hsingle]),
    if_neg hopen, if_neg hclose]

mutual

/-- The scan goes over an item and comes out with as many blocks open as before. -/
theorem blockBody?_of_item {xs rest : List Char} (h : Item xs rest) (depth : Nat) :
    blockBody? depth (xs ++ rest) = (blockBody? depth rest).map fun p => (xs ++ p.1, p.2) := by
  match h with
  | @Item.block body _ hi =>
    -- One more block is open in here, so the claim is about any depth.
    have hbody := blockBody?_of_items hi (depth + 1)
    rw [List.cons_append, List.append_assoc, List.singleton_append, blockBody?_open, hbody,
      blockBody?_close]
    simp only [Option.map_map]
    congr 1
    funext p
    simp
  | .lineComment hbody =>
    exact blockBody?_of_comment (comment?_of_line hbody)
  | @Item.blockComment body rest hbody =>
    have hcomment : comment? ('/' :: '*' :: (body ++ '*' :: '/' :: rest)) =
        some ('/' :: '*' :: (body ++ ['*', '/']), rest) := comment?_of_block hbody
    have hscan : blockBody? depth _ = _ := blockBody?_of_comment hcomment
    simpa using hscan
  | @Item.literal quote body _ hq hbody =>
    have hescape : quote ≠ '\\' := by
      rintro rfl
      exact absurd hq (by decide)
    have hend : quotedRest quote ((body ++ [quote]) ++ rest) = (body ++ [quote], rest) := by
      rw [List.append_assoc, quotedRest_of_inside hbody, List.singleton_append,
        quotedRest_quote hescape]
    exact blockBody?_of_quoted hq hend
  | @Item.cutLiteral quote body rest hq hbody =>
    -- The line feed is left to the scan, which goes over it as an item of its own.
    have hfeed : quote ≠ '\n' := by
      rintro rfl
      exact absurd hq (by decide)
    have hend : quotedRest quote (body ++ '\n' :: rest) = (body, '\n' :: rest) := by
      rw [quotedRest_of_inside hbody, quotedRest_feed hfeed, List.append_nil]
    exact blockBody?_of_quoted hq hend
  | .char hc hn => exact blockBody?_plain hc hn

theorem blockBody?_of_items {xs rest : List Char} (h : Items xs rest) (depth : Nat) :
    blockBody? depth (xs ++ rest) = (blockBody? depth rest).map fun p => (xs ++ p.1, p.2) := by
  match h with
  | .nil => simp
  | @Items.cons xs ys _ hx hy =>
    have hitem := blockBody?_of_item hx depth
    have hitems := blockBody?_of_items hy depth
    rw [List.append_assoc, hitem, hitems, Option.map_map]
    congr 1
    funext p
    simp

end

end Passing

/-- The scan ends at a brace exactly if there are only items before it. -/
theorem blockBody?_eq_some_iff : blockBody? 0 cs = some (body, rest) ↔
    cs = body ++ '\x7d' :: rest ∧ Items body ('\x7d' :: rest) := by
  constructor
  · intro h
    refine ⟨(blockBody?_append h).symm, ?_⟩
    cases closing_of_blockBody? h with
    | last hi => exact hi
  · rintro ⟨rfl, hi⟩
    rw [blockBody?_of_items hi, blockBody?_last, Option.map_some, List.append_nil]

/-- Whether there are only items before a brace does not depend on the text after it. -/
theorem items_congr (h : Items body ('\x7d' :: rest)) (ys : List Char) :
    Items body ('\x7d' :: ys) := by
  have hscan := blockBody?_eq_some_iff.mpr ⟨rfl, h⟩
  exact (blockBody?_eq_some_iff.mp (blockBody?_append_right hscan)).2

theorem blockEnd?_eq_some_iff : blockEnd? cs first = some last ↔
    ∃ body rest, cs.drop (first + 1) = body ++ '\x7d' :: rest ∧ Items body ['\x7d'] ∧
      last = first + body.length + 2 := by
  unfold blockEnd?
  rw [Option.map_eq_some_iff]
  constructor
  · rintro ⟨⟨body, rest⟩, hscan, rfl⟩
    obtain ⟨happ, hi⟩ := blockBody?_eq_some_iff.mp hscan
    exact ⟨body, rest, happ, items_congr hi [], rfl⟩
  · rintro ⟨body, rest, happ, hi, rfl⟩
    exact ⟨(body, rest), blockBody?_eq_some_iff.mpr ⟨happ, items_congr hi rest⟩, rfl⟩

theorem drop_of_getElem? (h : cs[first]? = some c) : cs.drop first = c :: cs.drop (first + 1) := by
  rw [List.drop_eq_getElem?_toList_append, h]
  rfl

theorem blockBetween_iff (h : cs[first]? = some '\x7b') : BlockBetween cs first last ↔
    ∃ body rest, cs.drop (first + 1) = body ++ '\x7d' :: rest ∧ Items body ['\x7d'] ∧
      last = first + body.length + 2 := by
  have hlt : first < cs.length := (List.getElem?_eq_some_iff.mp h).1
  have hdrop := drop_of_getElem? h
  have hlength : (cs.drop (first + 1)).length = cs.length - (first + 1) := List.length_drop
  unfold BlockBetween IsBlock
  rw [List.extract_eq_take_drop, hdrop]
  constructor
  · rintro ⟨hle, body, htake, hi⟩
    have hcut := List.take_append_drop (last - first) ('\x7b' :: cs.drop (first + 1))
    rw [htake, List.cons_append, List.append_assoc, List.singleton_append] at hcut
    have hlast := congrArg List.length htake
    simp only [List.length_take, List.length_cons, List.length_append, List.length_nil] at hlast
    exact ⟨body, _, (List.cons.inj hcut).2.symm, hi, by omega⟩
  · rintro ⟨body, rest, happ, hi, rfl⟩
    rw [happ] at hlength ⊢
    simp only [List.length_append, List.length_cons] at hlength
    have hsize : first + body.length + 2 - first = ('\x7b' :: (body ++ ['\x7d'])).length := by
      simp only [List.length_cons, List.length_append, List.length_nil]
      omega
    have hcut : '\x7b' :: (body ++ '\x7d' :: rest) = '\x7b' :: (body ++ ['\x7d']) ++ rest := by simp
    refine ⟨by omega, body, ?_, hi⟩
    rw [hsize, hcut, List.take_left]

/-- The brace that closes a block is found exactly: the scan from an opening brace ends at an offset
if and only if a block stands up to there, and there is no other such offset. -/
theorem braces_match_exactly (text : String) {first : Nat}
    (h : text.toList[first]? = some '\x7b') :
    (∀ last, blockEnd? text.toList first = some last ↔ BlockBetween text.toList first last) ∧
      (blockEnd? text.toList first = none ↔ ∀ last, ¬BlockBetween text.toList first last) ∧
      ∀ last last', BlockBetween text.toList first last → BlockBetween text.toList first last' →
        last = last' := by
  have hexact : ∀ last,
      blockEnd? text.toList first = some last ↔ BlockBetween text.toList first last := by
    intro last
    rw [blockEnd?_eq_some_iff, blockBetween_iff h]
  refine ⟨hexact, ?_, ?_⟩
  · rw [Option.eq_none_iff_forall_ne_some]
    exact forall_congr' fun last => not_congr (hexact last)
  · intro last last' hblock hblock'
    have hlast := (hexact last).mpr hblock
    have hlast' := (hexact last').mpr hblock'
    exact Option.some.inj (hlast.symm.trans hlast')

/-- A block that holds other ones and hides braces in literals and comments. -/
theorem braces_match_exactly_nested :
    let text := "a \x7b\x7bf(\"\\\"\x7d\") // '\x7d\n\x7d 'it\n/* \x7d */\x7d b"
    text.toList[2]? = some '\x7b' ∧ BlockBetween text.toList 2 33 ∧
      ∀ last, BlockBetween text.toList 2 last → last = 33 := by
  intro text
  have hopen : text.toList[2]? = some '\x7b' := by decide
  have hend : blockEnd? text.toList 2 = some 33 := by decide +kernel
  obtain ⟨hexact, -, hunique⟩ := braces_match_exactly text hopen
  have hblock := (hexact 33).mp hend
  exact ⟨hopen, hblock, fun last hlast => hunique last 33 hlast hblock⟩

end GrammarDoc.Source
