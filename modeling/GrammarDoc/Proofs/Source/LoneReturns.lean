import GrammarDoc.Proofs.Source.Endings
import GrammarDoc.Proofs.Source.LineBreaks

namespace GrammarDoc.Source

variable {cs ms rest after last : List Char} {c : Char} {p : Char → Bool} {lexeme : Lexeme}
variable {ws : List Word} {ts : List (List Char)}

/-- Puts a line feed after every carriage return that stands before none. -/
def feedReturns : List Char → List Char
  | [] => []
  | c :: cs =>
    if c = '\r' ∧ cs.head? ≠ some '\n' then '\r' :: '\n' :: feedReturns cs
    else c :: feedReturns cs

/-- Every carriage return of a text stands before a line feed, given what comes after the text. -/
def isFed (after : List Char) : List Char → Bool
  | [] => true
  | c :: cs => (c ≠ '\r' || (cs ++ after).head? = some '\n') && isFed after cs

/-- White space or a block comment. -/
def isLoose (text : List Char) : Bool :=
  text.all isSpace || ['/', '*'].isPrefixOf text

/-- In some texts one after the other only the loose ones hold carriage returns that stand before no
line feed. -/
def allFed (last : List Char) : List (List Char) → Bool
  | [] => true
  | text :: texts => (isLoose text || isFed (texts.flatten ++ last) text) && allFed last texts

/-- A text in which a line break of one kind does what the other ones do. A carriage return stands
before a line feed, or in white space or a block comment to both scanners, and after no
backslash. -/
structure BreaksAlike (cs : List Char) : Prop where
  pieces : allFed [] ((pieces cs).map Piece.text)
  lexemes : allFed (lexemes (maskChars cs)).2 ((lexemes (maskChars cs)).1.map Lexeme.text)
  escapes : ¬['\\', '\r'] <:+: cs

section Feeding

theorem feedReturns_cons_of_not (h : ¬(c = '\r' ∧ cs.head? ≠ some '\n')) :
    feedReturns (c :: cs) = c :: feedReturns cs :=
  if_neg h

theorem feedReturns_cons (hc : c ≠ '\r') : feedReturns (c :: cs) = c :: feedReturns cs :=
  feedReturns_cons_of_not fun h => hc h.1

theorem feedReturns_lone (h : cs.head? ≠ some '\n') :
    feedReturns ('\r' :: cs) = '\r' :: '\n' :: feedReturns cs :=
  if_pos ⟨rfl, h⟩

theorem feedReturns_fed (h : cs.head? = some '\n') :
    feedReturns (c :: cs) = c :: feedReturns cs :=
  feedReturns_cons_of_not fun hn => hn.2 h

theorem head?_feedReturns (cs : List Char) : (feedReturns cs).head? = cs.head? := by
  cases cs with
  | nil => rfl
  | cons c cs =>
    unfold feedReturns
    split
    next h => rw [h.1]; rfl
    next => rfl

theorem feedReturns_eq_nil_iff : feedReturns cs = [] ↔ cs = [] := by
  rw [← List.head?_eq_none_iff, head?_feedReturns, List.head?_eq_none_iff]

theorem feedReturns_append_of_isFed (h : isFed after cs) :
    feedReturns (cs ++ after) = cs ++ feedReturns after := by
  induction cs with
  | nil => rfl
  | cons c cs ih =>
    simp only [isFed, Bool.and_eq_true, Bool.or_eq_true, decide_eq_true_eq] at h
    obtain ⟨hc | hc, ht⟩ := h
    · rw [List.cons_append, feedReturns_cons hc, ih ht, List.cons_append]
    · rw [List.cons_append, feedReturns_fed hc, ih ht, List.cons_append]

theorem feedReturns_append (h : cs.getLast? ≠ some '\r') (after : List Char) :
    feedReturns (cs ++ after) = feedReturns cs ++ feedReturns after := by
  induction cs with
  | nil => rfl
  | cons c cs ih =>
    cases cs with
    | nil =>
      have hc : c ≠ '\r' := fun hc => h (congrArg some hc)
      rw [List.singleton_append, feedReturns_cons hc, feedReturns_cons hc]
      rfl
    | cons d ds =>
      have ih := ih (by simpa using h)
      by_cases hc : c = '\r' ∧ d ≠ '\n'
      · have hlone : ∀ es, (d :: es).head? ≠ some '\n' := fun _ => by simpa using hc.2
        rw [hc.1, List.cons_append, List.cons_append, feedReturns_lone (hlone _),
          feedReturns_lone (hlone _), ← List.cons_append, ih]
        rfl
      · have hcons : ∀ es, feedReturns (c :: d :: es) = c :: feedReturns (d :: es) :=
          fun _ => feedReturns_cons_of_not (by simpa using hc)
        rw [List.cons_append, List.cons_append, hcons, hcons, ← List.cons_append, ih]
        rfl

/-- Behind a run of characters to which both line breaks belong nothing else changes. -/
theorem dropWhile_feedReturns (hr : p '\r') (hl : p '\n') (cs : List Char) :
    (feedReturns cs).dropWhile p = feedReturns (cs.dropWhile p) := by
  induction cs with
  | nil => rfl
  | cons c cs ih =>
    by_cases hc : c = '\r' ∧ cs.head? ≠ some '\n'
    · rw [hc.1, feedReturns_lone hc.2, List.dropWhile_cons_of_pos hr, List.dropWhile_cons_of_pos hl,
        List.dropWhile_cons_of_pos hr, ih]
    · rw [feedReturns_cons_of_not hc]
      by_cases hp : p c
      · rw [List.dropWhile_cons_of_pos hp, List.dropWhile_cons_of_pos hp, ih]
      · rw [List.dropWhile_cons_of_neg hp, List.dropWhile_cons_of_neg hp,
          feedReturns_cons_of_not hc]

/-- Line breaks are unified by feeding the carriage returns and dropping them. -/
theorem unifyLineBreaks_eq (cs : List Char) :
    Codec.unifyLineBreaks cs = dropReturns (feedReturns cs) := by
  fun_induction Codec.unifyLineBreaks cs with
  | case1 => rfl
  | case2 cs ih =>
    rw [feedReturns_fed rfl, feedReturns_cons (by decide), ih]
    rfl
  | case3 c cs hn ih =>
    by_cases hc : c = '\r'
    · subst hc
      have hlone : cs.head? ≠ some '\n' := by
        intro hh
        obtain ⟨ds, rfl⟩ := List.head?_eq_some_iff.mp hh
        exact hn ds rfl rfl
      rw [if_pos rfl, feedReturns_lone hlone, ih]
      rfl
    · rw [if_neg hc, feedReturns_cons hc, dropReturns_cons hc, ih]

theorem isTidy_feedReturns (h : ¬['\\', '\r'] <:+: cs) : isTidy (feedReturns cs) := by
  induction cs with
  | nil => rfl
  | cons c cs ih =>
    have ih := ih fun hi => h (hi.trans (List.suffix_cons c cs).isInfix)
    by_cases hc : c = '\r'
    · subst hc
      by_cases hh : cs.head? = some '\n'
      · rw [feedReturns_fed hh]
        exact isTidy_cons_iff.mpr ⟨fun _ => (head?_feedReturns cs).trans hh, by simp, ih⟩
      · rw [feedReturns_lone hh]
        refine isTidy_cons_iff.mpr ⟨fun _ => rfl, by simp, ?_⟩
        exact isTidy_cons_iff.mpr ⟨by simp, by simp, ih⟩
    · rw [feedReturns_cons hc]
      refine isTidy_cons_iff.mpr ⟨fun hr => absurd hr hc, ?_, ih⟩
      rintro rfl hh
      rw [head?_feedReturns] at hh
      obtain ⟨ds, rfl⟩ := List.head?_eq_some_iff.mp hh
      exact h ⟨[], ds, rfl⟩

end Feeding

section Regions

/-- Both parts of a cut text with their carriage returns fed. -/
def feedBoth (q : List Char × List Char) : List Char × List Char :=
  (feedReturns q.1, feedReturns q.2)

theorem throughCommentEnd?_feedReturns (cs : List Char) :
    throughCommentEnd? (feedReturns cs) = (throughCommentEnd? cs).map feedBoth := by
  fun_induction throughCommentEnd? cs with
  | case1 => rfl
  | case2 rest =>
    rw [feedReturns_cons (by decide), feedReturns_cons (by decide), throughCommentEnd?]
    rfl
  | case3 c rest hn ih =>
    have hhead : ∀ q, throughCommentEnd? rest = some q → q.1.head? = rest.head? := by
      intro q hq
      obtain ⟨d, ds, hd⟩ := List.exists_cons_of_ne_nil (throughCommentEnd?_ne_nil hq)
      rw [← throughCommentEnd?_append hq, hd]
      rfl
    by_cases hc : c = '\r' ∧ rest.head? ≠ some '\n'
    · obtain ⟨rfl, hlone⟩ := hc
      rw [feedReturns_lone hlone, throughCommentEnd?, throughCommentEnd?, ih, Option.map_map,
        Option.map_map, Option.map_map]
      · refine Option.map_congr fun q hq => ?_
        have hq : q.1.head? ≠ some '\n' := (hhead q hq).symm ▸ hlone
        simp [feedBoth, feedReturns_lone hq]
      all_goals simp
    · have hcons : ∀ ds : List Char, ds.head? = rest.head? →
          feedReturns (c :: ds) = c :: feedReturns ds :=
        fun ds hd => feedReturns_cons_of_not (hd ▸ hc)
      rw [hcons rest rfl, throughCommentEnd?, ih, Option.map_map, Option.map_map]
      · refine Option.map_congr fun q hq => ?_
        simp [feedBoth, hcons q.1 (hhead q hq)]
      · rintro ds rfl hds
        have hh := head?_feedReturns rest
        rw [hds] at hh
        obtain ⟨es, rfl⟩ := List.head?_eq_some_iff.mp hh.symm
        exact hn es rfl rfl

theorem isFed_of_masks {xs ys ns : List Char} (hm : List.Forall₂ Masks xs ys)
    (hn : ns.head? = after.head?) (h : isFed after xs) : isFed ns ys := by
  induction hm with
  | nil => rfl
  | @cons c m xs ys hcm hms ih =>
    simp only [isFed, Bool.and_eq_true, Bool.or_eq_true, decide_eq_true_eq] at h ⊢
    obtain ⟨hreturn, -, -⟩ := eq_of_masks_break hcm
    refine ⟨?_, ih h.2⟩
    rcases h.1 with hc | hc
    · exact .inl fun he => hc (hreturn.mp he)
    · right
      cases hms with
      | nil => exact hn.trans hc
      | cons hd _ => exact congrArg some ((eq_of_masks_break hd).2.1.mpr (Option.some.inj hc))

/-- A piece in which only line breaks before line feeds occur is cut off alike. -/
theorem Cuts.feedReturns {piece : Piece} (h : Cuts cs piece rest) (hf : isFed rest piece.text) :
    Cuts (feedReturns cs) piece (feedReturns rest) := by
  have htext := h.append_eq
  have hfeed := feedReturns_append_of_isFed hf
  rw [htext] at hfeed
  rw [hfeed]
  by_cases hr : rest = []
  · subst hr
    rw [List.append_nil] at htext
    have hnil : Source.feedReturns [] = [] := rfl
    rw [hnil, List.append_nil, htext]
    exact h
  · exact h.append_right hr (head?_feedReturns rest)

theorem maskChars_blockComment (cs : List Char) : maskChars ('/' :: '*' :: cs) =
    '/' :: '*' :: ((throughCommentEnd? cs).getD (cs, [])).1 ++
      maskChars ((throughCommentEnd? cs).getD (cs, [])).2 := by
  rw [maskChars, pieces_comment rfl]
  rfl

/-- White space and block comments are masked alike with and without their carriage returns fed. -/
theorem maskChars_loose {piece : Piece} (h : Cuts cs piece rest) (hl : isLoose piece.text)
    (ih : maskChars (feedReturns rest) = feedReturns (maskChars rest)) :
    maskChars (feedReturns cs) = feedReturns (maskChars cs) := by
  have hhead : ∀ {d : Char} {ds : List Char}, isSpace d = false → d ≠ '/' →
      isLoose (d :: ds) = false := by
    intro d ds hs hd
    simp [isLoose, hs, List.isPrefixOf, Ne.symm hd]
  cases h with
  | @comment _ q hc =>
    unfold comment? at hc
    split at hc
    next line =>
      cases hc
      cases hl
    next block =>
      cases hc
      have hslash : ('/' : Char) ≠ '\r' := by decide
      have hstar : ('*' : Char) ≠ '\r' := by decide
      rw [feedReturns_cons hslash, feedReturns_cons hstar, maskChars_blockComment,
        maskChars_blockComment, throughCommentEnd?_feedReturns]
      cases hb : throughCommentEnd? block with
      | none =>
        simp [maskChars_nil, feedReturns_cons hslash, feedReturns_cons hstar]
      | some q =>
        rw [hb] at ih
        have hlast : q.1.getLast? ≠ some '\r' := by simp [getLast?_throughCommentEnd? hb]
        simp only [Option.map_some, Option.getD_some, feedBoth, List.cons_append] at ih ⊢
        rw [feedReturns_cons hslash, feedReturns_cons hstar, feedReturns_append hlast, ih]
    next => cases hc
  | literal => cases (hhead (by decide) (by decide)).symm.trans hl
  | bracket => cases (hhead (by decide) (by decide)).symm.trans hl
  | block => cases (hhead (by decide) (by decide)).symm.trans hl
  | unclosed => cases (hhead (by decide) (by decide)).symm.trans hl
  | @char c rest hc hm =>
    have hs : isSpace c := by simpa [isLoose, Piece.text] using hl
    have hmark : c ∉ ['/', '\'', '[', '\x7b'] := not_mark (by decide) hs
    by_cases hr : c = '\r' ∧ rest.head? ≠ some '\n'
    · obtain ⟨rfl, hlone⟩ := hr
      have hlone' : (maskChars rest).head? ≠ some '\n' := by rwa [head?_maskChars]
      rw [feedReturns_lone hlone, maskChars_cons hmark, maskChars_cons (by decide), ih,
        maskChars_cons hmark, feedReturns_lone hlone']
    · have hcons : ∀ ds : List Char, ds.head? = rest.head? →
          feedReturns (c :: ds) = c :: feedReturns ds :=
        fun ds hd => feedReturns_cons_of_not (hd ▸ hr)
      rw [hcons rest rfl, maskChars_cons hmark, ih, maskChars_cons hmark,
        hcons _ (head?_maskChars rest)]

/-- Feeding the carriage returns of a text feeds those of the masked text. -/
theorem maskChars_feedReturns (h : allFed [] ((pieces cs).map Piece.text)) :
    maskChars (feedReturns cs) = feedReturns (maskChars cs) := by
  induction cs using cuts_induction with
  | nil =>
    change maskChars [] = feedReturns (maskChars [])
    rw [maskChars_nil]
    rfl
  | cut cs piece rest hcut ih =>
    have hflat : ((pieces rest).map Piece.text).flatten ++ [] = rest := by
      rw [List.append_nil, ← List.flatMap_def, pieces_text]
    rw [hcut.pieces_eq, List.map_cons] at h
    simp only [allFed, hflat, Bool.and_eq_true, Bool.or_eq_true] at h
    have ih := ih h.2
    rcases h.1 with hl | hf
    · exact maskChars_loose hcut hl ih
    · have hmasked := isFed_of_masks (masks_piece piece) (head?_maskChars rest) hf
      rw [(hcut.feedReturns hf).maskChars_eq, hcut.maskChars_eq, ih,
        feedReturns_append_of_isFed hmasked]

end Regions

section Lexer

theorem literalRest?_feedReturns (h : literalRest? cs = none) :
    literalRest? (feedReturns cs) = none := by
  have hstop : ∀ ds, literalRest? ('\r' :: ds) = none ∧ literalRest? ('\n' :: ds) = none := by
    intro ds
    constructor <;> rw [literalRest?] <;> simp
  fun_induction literalRest? cs with
  | case1 => rfl
  | case2 rest =>
    rw [feedReturns_cons (by decide), feedReturns_cons (by decide), literalRest?, if_pos rfl]
  | case3 c rest hn ih =>
    have ih := ih (Option.map_eq_none_iff.mp h)
    rw [feedReturns_cons (by decide)]
    by_cases hc : c = '\r' ∧ rest.head? ≠ some '\n'
    · rw [hc.1, feedReturns_lone hc.2, literalRest?, if_neg (by decide), (hstop _).2]
      rfl
    · rw [feedReturns_cons_of_not hc, literalRest?, if_neg hn, ih]
      rfl
  | case4 => cases h
  | case5 c rest hn hq hs =>
    by_cases hr : c = '\r'
    · subst hr
      obtain ⟨ds, hds⟩ := List.head?_eq_some_iff.mp (head?_feedReturns ('\r' :: rest))
      rw [hds]
      exact (hstop ds).1
    · rw [feedReturns_cons hr, literalRest?, if_neg hq, if_pos hs]
      exact not_escape hn (head?_feedReturns rest)
  | case6 c rest hn hq hs ih =>
    have hr : c ≠ '\r' := fun hr => hs (.inr (.inl hr))
    rw [feedReturns_cons hr, literalRest?, if_neg hq, if_neg hs, ih (Option.map_eq_none_iff.mp h)]
    · rfl
    · exact not_escape hn (head?_feedReturns rest)

theorem bracketBlockRest?_feedReturns (h : bracketBlockRest? cs = none) :
    bracketBlockRest? (feedReturns cs) = none := by
  have hbreak : ∀ {c : Char} {ds : List Char}, c = '\r' ∨ c = '\n' →
      bracketBlockRest? ds = none → bracketBlockRest? (c :: ds) = none := by
    rintro c ds (rfl | rfl) hd <;> rw [bracketBlockRest?, hd] <;> simp
  fun_induction bracketBlockRest? cs with
  | case1 => rfl
  | case2 rest =>
    rw [feedReturns_cons (by decide), feedReturns_cons (by decide), bracketBlockRest?, if_pos rfl]
  | case3 c rest hn ih =>
    have ih := ih (Option.map_eq_none_iff.mp h)
    rw [feedReturns_cons (by decide)]
    by_cases hc : c = '\r' ∧ rest.head? ≠ some '\n'
    · rw [hc.1, feedReturns_lone hc.2, bracketBlockRest?, if_neg (by decide), hbreak (.inr rfl) ih]
      rfl
    · rw [feedReturns_cons_of_not hc, bracketBlockRest?, if_neg hn, ih]
      rfl
  | case4 => cases h
  | case5 rest hn hc =>
    rw [feedReturns_cons (by decide), bracketBlockRest?, if_neg hc, if_pos rfl]
    exact not_escape hn (head?_feedReturns rest)
  | case6 c rest hn hc hb ih =>
    have ih := ih (Option.map_eq_none_iff.mp h)
    by_cases hr : c = '\r' ∧ rest.head? ≠ some '\n'
    · rw [hr.1, feedReturns_lone hr.2]
      exact hbreak (.inl rfl) (hbreak (.inr rfl) ih)
    · rw [feedReturns_cons_of_not hr, bracketBlockRest?, if_neg hc, if_neg hb, ih]
      · rfl
      · exact not_escape hn (head?_feedReturns rest)

theorem flatRest?_feedReturns {opening closing : Char} (ho : opening ≠ '\r') (hl : closing ≠ '\n')
    (h : flatRest? opening closing cs = none) :
    flatRest? opening closing (feedReturns cs) = none := by
  induction cs with
  | nil => rfl
  | cons c cs ih =>
    rw [flatRest?] at h
    split at h
    next => cases h
    next hc =>
      have hstop : ∀ {d : Char} {ds : List Char}, d ≠ closing →
          flatRest? opening closing ds = none → flatRest? opening closing (d :: ds) = none := by
        intro d ds hd hn
        rw [flatRest?, if_neg hd, hn]
        split <;> rfl
      split at h
      next hopen =>
        rw [feedReturns_cons (hopen ▸ ho), flatRest?, if_neg hc, if_pos hopen]
      next =>
        have ih := ih (Option.map_eq_none_iff.mp h)
        by_cases hr : c = '\r' ∧ cs.head? ≠ some '\n'
        · rw [hr.1, feedReturns_lone hr.2]
          exact hstop (hr.1 ▸ hc) (hstop hl.symm ih)
        · rw [feedReturns_cons_of_not hr]
          exact hstop hc ih

theorem commentExtent?_feedReturns (h : commentExtent? cs = none) :
    commentExtent? (feedReturns cs) = none := by
  cases cs with
  | nil => rfl
  | cons c cs =>
    by_cases hs : c = '/'
    · subst hs
      cases h
    by_cases hb : c = '*'
    · subst hb
      have hn : throughCommentEnd? cs = none := Option.map_eq_none_iff.mp h
      rw [feedReturns_cons (by decide), commentExtent?, throughCommentEnd?_feedReturns, hn]
      rfl
    obtain ⟨ds, hds⟩ := List.head?_eq_some_iff.mp (head?_feedReturns (c :: cs))
    rw [hds]
    exact commentExtent?_eq_none hs hb

theorem atNameExtent?_eq_none (h : atNameExtent? cs = none) (hm : ms.head? = cs.head?) :
    atNameExtent? ms = none := by
  cases cs with
  | nil =>
    cases List.head?_eq_none_iff.mp hm
    rfl
  | cons c cs =>
    obtain ⟨ds, rfl⟩ := List.head?_eq_some_iff.mp hm
    rw [atNameExtent?] at h ⊢
    split at h
    next => cases h
    next hc => exact if_neg hc

theorem markExtent?_eq_none (h : markExtent? c cs = none) (hm : ms.head? = cs.head?) :
    markExtent? c ms = none := by
  cases cs with
  | nil =>
    cases List.head?_eq_none_iff.mp hm
    exact h
  | cons d cs =>
    obtain ⟨ds, rfl⟩ := List.head?_eq_some_iff.mp hm
    unfold markExtent? at h ⊢
    cases hl : longMark? c d with
    | some => simp [hl] at h
    | none => simpa [hl] using h

/-- Where no lexeme stands, none stands after the carriage returns are fed. -/
theorem lexeme?_feedReturns (h : lexeme? cs = none) : lexeme? (feedReturns cs) = none := by
  cases cs with
  | nil => rfl
  | cons c rest =>
    have hn : extent? c rest = none := Option.map_eq_none_iff.mp h
    have hhead := head?_feedReturns rest
    suffices hfed : extent? c (feedReturns rest) = none ∧ c ≠ '\r' by
      rw [feedReturns_cons hfed.2, lexeme?, hfed.1]
      rfl
    unfold extent? at hn ⊢
    split at hn
    next => cases hn
    next hspace =>
    refine ⟨?_, fun hr => hspace (hr ▸ rfl)⟩
    split at hn
    next => cases hn
    next hsmall =>
    split at hn
    next => cases hn
    next hcapital =>
    split at hn
    next => cases hn
    next hdigit =>
    rw [if_neg hspace, if_neg hsmall, if_neg hcapital, if_neg hdigit]
    split at hn
    · exact commentExtent?_feedReturns hn
    · simp [literalRest?_feedReturns (Option.map_eq_none_iff.mp hn)]
    · simp [bracketBlockRest?_feedReturns (Option.map_eq_none_iff.mp hn)]
    · simp [flatRest?_feedReturns (by decide) (by decide) (Option.map_eq_none_iff.mp hn)]
    · simp [flatRest?_feedReturns (by decide) (by decide) (Option.map_eq_none_iff.mp hn)]
    · exact atNameExtent?_eq_none hn hhead
    · exact markExtent?_eq_none hn hhead

theorem opensBlock_feedReturns (cs : List Char) : opensBlock (feedReturns cs) = opensBlock cs := by
  rw [opensBlock, opensBlock, dropWhile_feedReturns (by decide) (by decide), head?_feedReturns]

theorem spells_of_none (h : lexeme? cs = none) : Spells cs ws [] ↔ cs = [] ∧ ws = [] := by
  constructor
  · intro hs
    refine (lexeme?_of_spells hs).resolve_right ?_
    rintro ⟨_, _, _, hl, -⟩
    cases h.symm.trans hl
  · rintro ⟨rfl, rfl⟩
    exact .done

theorem spells_iff_of_lexeme? (h : lexeme? cs = some (lexeme, after)) :
    Spells cs ws [] ↔ ∃ vs, Spells after vs [] ∧ ws = lexeme.word?.toList ++ vs := by
  constructor
  · intro hs
    rcases lexeme?_of_spells hs with ⟨rfl, -⟩ | ⟨_, _, vs, hl, hv, rfl⟩
    · cases h
    · cases h.symm.trans hl
      exact ⟨vs, hv, rfl⟩
  · rintro ⟨vs, hv, rfl⟩
    exact spells_of_lexeme? h hv

/-- A lexeme in which only line breaks before line feeds occur is read alike. -/
theorem lexeme?_feedReturns_of_isFed (h : lexeme? cs = some (lexeme, after))
    (hf : isFed after lexeme.text) :
    lexeme? (feedReturns cs) = some (lexeme, feedReturns after) := by
  have hfeed := feedReturns_append_of_isFed hf
  rw [lexeme?_append h] at hfeed
  rw [hfeed]
  exact lexeme?_append_right h (.inl (head?_feedReturns after))
    (wordKind_congr (.inl (opensBlock_feedReturns after)))

theorem spells_white (hc : isSpace c)
    (ih : Spells (feedReturns (rest.dropWhile isSpace)) ws [] ↔
      Spells (rest.dropWhile isSpace) ws []) :
    Spells (feedReturns (c :: rest)) ws [] ↔ Spells (c :: rest) ws [] := by
  obtain ⟨ds, hds⟩ := List.head?_eq_some_iff.mp (head?_feedReturns (c :: rest))
  have hdrop := dropWhile_feedReturns (p := isSpace) rfl rfl (c :: rest)
  rw [hds, List.dropWhile_cons_of_pos hc, List.dropWhile_cons_of_pos hc] at hdrop
  rw [hds, spells_cons_of_isSpace hc, spells_cons_of_isSpace hc, hdrop, ih]

/-- White space and block comments are passed over with and without their carriage returns fed. -/
theorem spells_loose (h : lexeme? cs = some (lexeme, after)) (hl : isLoose lexeme.text)
    (ih : ∀ {ws}, Spells (feedReturns after) ws [] ↔ Spells after ws []) :
    Spells (feedReturns cs) ws [] ↔ Spells cs ws [] := by
  cases cs with
  | nil => cases h
  | cons c rest =>
    obtain ⟨e, he, rfl, rfl⟩ := exists_extent h
    by_cases hc : isSpace c
    · have hspace : extent? c rest = some (runExtent none isSpace rest) := by simp [extent?, hc]
      cases he.symm.trans hspace
      exact spells_white hc ih
    · simp only [isLoose, List.all_cons, hc, Bool.false_and, Bool.false_or] at hl
      obtain ⟨rfl, hstar⟩ : '/' = c ∧ ['*'].isPrefixOf e.tail := by
        simpa [List.isPrefixOf] using hl
      change commentExtent? rest = some e at he
      unfold commentExtent? at he
      split at he
      next =>
        cases he
        cases hstar
      next block =>
        obtain ⟨q, hq, rfl⟩ := Option.map_eq_some_iff.mp he
        have hfed : lexeme? (feedReturns ('/' :: '*' :: block)) =
            some (⟨none, '/' :: '*' :: feedReturns q.1⟩, feedReturns q.2) := by
          rw [feedReturns_cons (by decide), feedReturns_cons (by decide)]
          change (commentExtent? ('*' :: feedReturns block)).map _ = _
          rw [commentExtent?, throughCommentEnd?_feedReturns, hq]
          rfl
        rw [spells_iff_of_lexeme? hfed, spells_iff_of_lexeme? h]
        simp only [ih]
        rfl
      next => cases he

/-- Feeding the carriage returns of a text does not change its words. -/
theorem spells_feedReturns (h : allFed (lexemes cs).2 ((lexemes cs).1.map Lexeme.text)) :
    Spells (feedReturns cs) ws [] ↔ Spells cs ws [] := by
  fun_induction lexemes cs generalizing ws with
  | case1 cs hn =>
    rw [spells_of_none hn, spells_of_none (lexeme?_feedReturns hn), feedReturns_eq_nil_iff]
  | case2 cs lexeme after hl _ ih =>
    have hflat : ((lexemes after).1.map Lexeme.text).flatten ++ (lexemes after).2 = after := by
      rw [← List.flatMap_def, lexemes_text]
    rw [List.map_cons] at h
    simp only [allFed, hflat, Bool.and_eq_true, Bool.or_eq_true] at h
    rcases h.1 with hloose | hf
    · exact spells_loose hl hloose (ih h.2)
    · rw [spells_iff_of_lexeme? (lexeme?_feedReturns_of_isFed hl hf), spells_iff_of_lexeme? hl]
      simp only [ih h.2]

end Lexer

end GrammarDoc.Source
