import GrammarDoc.Proofs.Element.Equality
import GrammarDoc.Proofs.Extraction.Wording
import GrammarDoc.Proofs.Source.Scanning

namespace GrammarDoc

namespace Source

variable {cs after last body : List Char} {c : Char} {lexeme : Lexeme}
variable {ls : List Lexeme} {ws : List Word}

/-- A comment with its end: the end mark of a block comment, or the line feed after a line
comment. -/
inductive Comment : List Char → Prop
  | block {body : List Char} : ¬['*', '/'] <:+: body →
      Comment ('/' :: '*' :: (body ++ ['*', '/']))
  | line {body : List Char} : '\n' ∉ body → Comment ('/' :: '/' :: (body ++ ['\n']))

theorem lexeme?_slash (cs : List Char) :
    lexeme? ('/' :: cs) = (commentExtent? cs).map fun e => (⟨e.kind?, '/' :: e.tail⟩, e.after) :=
  rfl

/-- A comment leaves the words of what comes after it alone. -/
theorem spells_comment_append {filler : List Char} (hf : Comment filler)
    (h : Spells (maskChars cs) ws []) : Spells (maskChars (filler ++ cs)) ws [] := by
  cases hf with
  | @block body hb =>
    have hthrough := throughCommentEnd?_of_not_infix hb
    have hmasked : maskChars ('/' :: '*' :: (body ++ ['*', '/']) ++ cs) =
        '/' :: '*' :: (body ++ '*' :: '/' :: maskChars cs) := by
      have happ : '/' :: '*' :: (body ++ ['*', '/']) ++ cs =
          '/' :: '*' :: (body ++ '*' :: '/' :: cs) := by simp
      rw [happ, maskChars, pieces_comment (comment?_of_block hb)]
      simp [Piece.masked, Piece.text, maskChars]
    have hlexeme : lexeme? ('/' :: '*' :: (body ++ '*' :: '/' :: maskChars cs)) =
        some (⟨none, '/' :: '*' :: (body ++ ['*', '/'])⟩, maskChars cs) := by
      rw [lexeme?_slash]
      simp [commentExtent?, hthrough]
    rw [hmasked]
    exact .blank hlexeme h
  | @line body hb =>
    have hline := lineRest_of_not_mem hb
    have hmasked : maskChars ('/' :: '/' :: (body ++ ['\n']) ++ cs) =
        '/' :: '/' :: (body ++ '\n' :: maskChars cs) := by
      have happ : '/' :: '/' :: (body ++ ['\n']) ++ cs = '/' :: '/' :: (body ++ '\n' :: cs) := by
        simp
      rw [happ, maskChars, pieces_comment (comment?_of_line hb), List.flatMap_cons]
      change '/' :: '/' :: body ++ maskChars ('\n' :: cs) = _
      rw [maskChars_cons (by decide)]
      rfl
    have hlexeme : lexeme? ('/' :: '/' :: (body ++ '\n' :: maskChars cs)) =
        some (⟨none, '/' :: '/' :: body⟩, '\n' :: maskChars cs) := by
      rw [lexeme?_slash]
      simp [commentExtent?, hline]
    rw [hmasked]
    have hspace : ∀ c ∈ ['\n'], isSpace c := List.forall_mem_singleton.mpr rfl
    exact .blank hlexeme ((spells_space_append hspace).mpr h)

/-- A lexeme without an end of its own is white space or goes up to a line feed. -/
theorem white_or_line_of_isOpen (h : lexeme? cs = some (lexeme, after)) (ho : lexeme.isOpen) :
    lexeme.isWhite ∨ ∀ d, after.head? = some d → d = '\n' := by
  obtain ⟨c, rest, e, rfl, he, rfl, rfl⟩ := extends_of_lexeme? h
  simp only [Lexeme.isOpen, decide_eq_true_eq] at ho
  obtain ⟨hk, hr⟩ := ho
  cases he with
  | space hc =>
    left
    intro d hd
    rcases List.mem_cons.mp hd with rfl | hd
    · exact hc
    · exact List.mem_takeWhile_imp hd
  | comment he =>
    right
    unfold commentExtent? at he
    split at he
    · cases he
      intro d hd
      have hstop := List.head?_dropWhile_not (· ≠ '\n') ‹List Char›
      change (List.dropWhile (· ≠ '\n') _).head? = some d at hd
      rw [hd] at hstop
      simpa using hstop
    · obtain ⟨q, -, rfl⟩ := Option.map_eq_some_iff.mp he
      exact absurd rfl hr
    · cases he
  | atName ha => cases hk.symm.trans (atNameExtent?_kind ha)
  | mark hm =>
    obtain ⟨k, -, hk'⟩ := markExtent?_mem hm
    cases hk.symm.trans hk'
  | _ => cases hk

theorem Scans.exists_last (h : Scans cs ls last) (hl : ls.getLast? = some lexeme) :
    ∃ before, lexeme? before = some (lexeme, maskChars last) := by
  induction h with
  | done => cases hl
  | @step cs _ _ _ l ls _ hlex hscan ih =>
    cases ls with
    | nil =>
      cases hl
      cases hscan
      exact ⟨_, hlex⟩
    | cons m ms => exact ih (by simpa using hl)

/-- The tokens of a text, left-out ones included, with their offsets. -/
def tokensLexed (cs : List Char) : List (Stretch Lexeme) :=
  (lexed cs).filter fun s => s.part.kind?.isSome

theorem filterMap_kind?_row (offset : Nat) (ls : List Lexeme) :
    ((Stretch.row Lexeme.text offset ls).filter fun s => s.part.kind?.isSome).map
      (fun s => s.part.kind?) = (ls.filterMap Lexeme.kind?).map some := by
  induction ls generalizing offset with
  | nil => rfl
  | cons l ls ih =>
    rw [Stretch.row, List.filter_cons, List.filterMap_cons]
    cases hk : l.kind? with
    | none => simpa [hk] using ih _
    | some k => simpa [hk] using ih _

/-- A token starts where some lexemes are passed. -/
theorem exists_scans_of_tokensLexed {before after : List (Stretch Lexeme)} {s : Stretch Lexeme}
    (hangle : '<' ∉ cs) (hclosed : Closed cs) (h : tokensLexed cs = before ++ s :: after) :
    ∃ pre ls later last, cs = pre ++ last ∧ pre.length = s.first ∧ Scans cs ls last ∧
      lexemes (maskChars last) = (s.part :: later, (lexemes (maskChars cs)).2) ∧
      s.part.kind?.isSome ∧
      before.map (fun s => s.part.kind?) = (ls.filterMap Lexeme.kind?).map some := by
  obtain ⟨early, late, hrow, rfl, hlate⟩ := List.filter_eq_append_iff.mp h
  obtain ⟨white, later, rfl, hwhite, hs, -⟩ := List.filter_eq_cons_iff.mp hlate
  rw [← List.append_assoc] at hrow
  obtain ⟨ls, zs, hls, hearly, hfirst⟩ := Stretch.exists_of_row_eq_append hrow
  obtain ⟨last, hscan, hlast⟩ := exists_scans hangle hclosed hls
  obtain ⟨pre, hcs, hlen⟩ := hscan.exists_pre
  refine ⟨pre, ls, zs, last, hcs, by omega, hscan, hlast, hs, ?_⟩
  have hfilter : (early ++ white).filter (fun s => s.part.kind?.isSome) =
      early.filter fun s => s.part.kind?.isSome := by
    rw [List.filter_append, List.filter_eq_nil_iff.mpr hwhite, List.append_nil]
  rw [← hfilter, hearly]
  exact filterMap_kind?_row 0 ls

theorem exists_lexeme?_of_lexemes {later : List Lexeme} (h : (lexemes cs).1 = lexeme :: later) :
    ∃ rest, lexeme? cs = some (lexeme, rest) := by
  rw [lexemes] at h
  split at h
  next => cases h
  next _ rest hl =>
    obtain ⟨rfl, -⟩ := List.cons.inj h
    exact ⟨rest, hl⟩

theorem noOpener_of_before {before : List (Stretch Lexeme)}
    (hb : before.map (fun s => s.part.kind?) = (ls.filterMap Lexeme.kind?).map some)
    (h : ∀ t, before.getLast? = some t →
      t.part.kind? ∉ [some .options, some .tokens, some .channels]) : NoOpener ls := by
  intro kind hk
  have hlast := congrArg List.getLast? hb
  rw [List.getLast?_map, List.getLast?_map, hk] at hlast
  obtain ⟨t, ht, hkind⟩ := Option.map_eq_some_iff.mp hlast
  have hn := h t ht
  simpa [hkind] using hn

/-- What is put between tokens: white space, or a comment that comes after no word that opens a
block. -/
def Fills (filler : List Char) (ls : List Lexeme) : Prop :=
  (∀ c ∈ filler, isSpace c) ∨ Comment filler ∧ NoOpener ls

theorem Fills.separates {filler : List Char} (h : Fills filler ls) :
    ∀ d, filler.head? = some d → isSpace d ∨ d = '/' := by
  intro d hd
  rcases h with h | ⟨h, -⟩
  · exact .inl (h d (List.mem_of_head? hd))
  · cases h <;> cases hd <;> exact .inr rfl

theorem Fills.opensBlock {filler : List Char} (h : Fills filler ls) (cs : List Char) :
    opensBlock (filler ++ cs) = opensBlock cs ∨
      opensBlock (filler ++ cs) = false ∧ NoOpener ls := by
  rcases h with h | ⟨h, hn⟩
  · left
    exact opensBlock_append_blank fun c hc => isBlank_of_isSpace (h c hc)
  · right
    refine ⟨?_, hn⟩
    cases h <;> exact opensBlock_cons (by decide)

theorem Fills.spells {filler : List Char} (h : Fills filler ls)
    (hs : Spells (maskChars cs) ws []) : Spells (maskChars (filler ++ cs)) ws [] := by
  rcases h with h | ⟨h, -⟩
  · exact (spells_white_append h).mpr hs
  · exact spells_comment_append h hs

/-- Between tokens a text may be filled: it spells the same words. -/
theorem spells_of_fills {pre later : List Char} {filler : List Char} {kind : TokenKind}
    (hscan : Scans (pre ++ last) ls last) (hl : lexeme? (maskChars last) = some (lexeme, later))
    (hk : lexeme.kind? = some kind) (hf : Fills filler ls)
    (hs : Spells (maskChars last) ws []) :
    Spells (maskChars (pre ++ (filler ++ last))) (ls.filterMap Lexeme.word? ++ ws) [] := by
  refine spells_of_scans hscan (fun m hm => ?_) (hf.opensBlock last) (hf.spells hs)
  cases ho : m.isOpen with
  | true =>
    obtain ⟨before, hbefore⟩ := hscan.exists_last hm
    refine .inl ((white_or_line_of_isOpen hbefore ho).resolve_right fun hline => ?_)
    -- A line comment goes up to a line feed, which starts no token.
    cases hms : maskChars last with
    | nil =>
      rw [hms] at hl
      cases hl
    | cons d ds =>
      have hd : d = '\n' := hline d (by rw [hms]; rfl)
      rw [hms, hd] at hl
      cases (lexeme?_of_isSpace (by decide) ds).symm.trans hl
      cases hk
  | false =>
    right
    cases filler with
    | nil => exact .inl rfl
    | cons d ds => exact .inr ⟨ho, hf.separates⟩

end Source

open Source

variable {pre post filler : String} {rules : List Rule}
variable {before after : List (Stretch Lexeme)} {s : Stretch Lexeme}

theorem spells_of_parseGrammar {text : String} {tree : SyntaxTree}
    (h : (parseGrammar text).result = .ok tree) : Spells (maskChars text.toList)
      ((lexemes (maskChars text.toList)).1.filterMap Lexeme.word?) [] := by
  obtain ⟨d, hd, -⟩ := parse_eq_ok_iff.mp (parseGrammar_result_ok_iff.mp h)
  have hstop := (derivationOf_ok hd).1
  refine spells_iff_lexemes.mpr ⟨?_, rfl⟩
  by_contra hn
  rw [stop?_eq_readTo, if_neg hn] at hstop
  cases hstop

/-- White space and comments between tokens do not matter. In a text without angle brackets whose
blocks are closed they may be put where any token starts, except for a comment between a word that
opens a block and its brace. -/
theorem parseRules_ignores_spacing (hangle : '<' ∉ (pre ++ post).toList)
    (hclosed : Closed (pre ++ post).toList) (hr : (parseRules (pre ++ post)).result = .ok rules)
    (htokens : tokensLexed (pre ++ post).toList = before ++ s :: after)
    (hplace : s.first = pre.length)
    (hfiller : (∀ c ∈ filler.toList, isSpace c) ∨ Comment filler.toList ∧
      ∀ t, before.getLast? = some t →
        t.part.kind? ∉ [some .options, some .tokens, some .channels]) :
    (parseRules (pre ++ filler ++ post)).result = .ok rules := by
  obtain ⟨pre', ls, later, last, hcs, hlen, hscan, hlast, hk, hbefore⟩ :=
    exists_scans_of_tokensLexed hangle hclosed htokens
  obtain ⟨tree, htree, -⟩ := parseRules_ok_iff.mp hr
  have hspells := spells_of_parseGrammar htree
  obtain ⟨hend, -⟩ := spells_iff_lexemes.mp hspells
  have happ : pre.toList ++ post.toList = pre' ++ last := by rw [← hcs, String.toList_append]
  have hsplit : pre.toList.length = pre'.length := by
    rw [String.length_toList]
    omega
  obtain ⟨rfl, rfl⟩ := List.append_inj happ hsplit
  obtain ⟨kind, hkind⟩ := Option.isSome_iff_exists.mp hk
  have hf : Fills filler.toList ls := hfiller.imp_right fun h =>
    ⟨h.1, noOpener_of_before hbefore h.2⟩
  have hpost : Spells (maskChars post.toList) ((s.part :: later).filterMap Lexeme.word?) [] := by
    refine spells_iff_lexemes.mpr ?_
    rw [hlast]
    exact ⟨hend, rfl⟩
  obtain ⟨rest, hlexeme⟩ := exists_lexeme?_of_lexemes (congrArg Prod.fst hlast)
  rw [String.toList_append] at hscan
  -- Filled with nothing the text is as it was.
  have hempty : Fills [] ls := .inl (by simp)
  have hold := spells_of_fills hscan hlexeme hkind hempty hpost
  have hnew := spells_of_fills hscan hlexeme hkind hf hpost
  rw [List.nil_append, ← String.toList_append] at hold
  rw [← String.toList_append, ← String.toList_append, ← String.append_assoc] at hnew
  exact parseRules_of_spells hr hold hnew rfl

/-- A comment that holds a quote and marks of blocks goes between a name and an action. -/
theorem parseRules_ignores_spacing_before_action :
    let pre := "grammar G;\na : b "
    let filler := "/* ' [ \x7b ' */"
    let post := "\x7bx\x7d c ;\n"
    let rules : List Rule := [⟨"a", .seq [.ref "b", .ref "c"]⟩]
    (parseRules (pre ++ post)).result = .ok rules ∧
      (parseRules (pre ++ filler ++ post)).result = .ok rules := by
  intro pre filler post rules
  have hangle : '<' ∉ (pre ++ post).toList := by decide +kernel
  have hclosed : ∀ piece ∈ pieces (pre ++ post).toList, piece.isClosed := by decide +kernel
  have hr : (parseRules (pre ++ post)).result = .ok rules := eq_of_isRules (by decide +kernel)
  have htokens : tokensLexed (pre ++ post).toList =
      (tokensLexed (pre ++ post).toList).take 6 ++
        ⟨⟨some .braceBlock, ['\x7b', ' ', '\x7d']⟩, 17, 20⟩ ::
          (tokensLexed (pre ++ post).toList).drop 7 := by decide +kernel
  have hcomment : Comment ('/' :: '*' :: (" ' [ \x7b ' ".toList ++ ['*', '/'])) :=
    .block (by decide +kernel)
  have htext : filler.toList = '/' :: '*' :: (" ' [ \x7b ' ".toList ++ ['*', '/']) := by
    decide +kernel
  have hplace : 17 = pre.length := by decide +kernel
  have hbefore : ∀ t ∈ ((tokensLexed (pre ++ post).toList).take 6).getLast?,
      t.part.kind? ∉ [some .options, some .tokens, some .channels] := by decide +kernel
  exact ⟨hr, parseRules_ignores_spacing hangle hclosed hr htokens hplace
    (.inr ⟨htext ▸ hcomment, hbefore⟩)⟩

end GrammarDoc
