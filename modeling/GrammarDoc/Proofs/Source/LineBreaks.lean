import GrammarDoc.Encoding.Codec
import GrammarDoc.Proofs.Source.Scanning

namespace GrammarDoc.Source

variable {cs rest after : List Char} {c : Char} {p : Char → Bool}

/-- Every carriage return stands before a line feed and after no backslash. -/
def isTidy : List Char → Bool
  | [] => true
  | c :: cs =>
    (c ≠ '\r' || cs.head? = some '\n') && (c ≠ '\\' || cs.head? ≠ some '\r') && isTidy cs

def dropReturns (cs : List Char) : List Char :=
  cs.filter (· ≠ '\r')

/-- Both parts of a cut text without their carriage returns. -/
def dropBoth (p : List Char × List Char) : List Char × List Char :=
  (dropReturns p.1, dropReturns p.2)

section Tidy

theorem isTidy_cons_iff : isTidy (c :: cs) ↔
    (c = '\r' → cs.head? = some '\n') ∧ (c = '\\' → cs.head? ≠ some '\r') ∧ isTidy cs := by
  simp [isTidy, and_assoc, imp_iff_not_or]

theorem isTidy_of_append (h : isTidy (rest ++ cs)) : isTidy cs := by
  induction rest with
  | nil => exact h
  | cons c rest ih => exact ih (isTidy_cons_iff.mp h).2.2

@[simp] theorem dropReturns_nil : dropReturns [] = [] :=
  rfl

theorem dropReturns_cons (hc : c ≠ '\r') : dropReturns (c :: cs) = c :: dropReturns cs :=
  List.filter_cons_of_pos (by simpa using hc)

theorem dropReturns_append (cs ds : List Char) :
    dropReturns (cs ++ ds) = dropReturns cs ++ dropReturns ds :=
  List.filter_append cs ds

theorem exists_feed_of_return (h : isTidy ('\r' :: cs)) :
    ∃ ds, cs = '\n' :: ds ∧ isTidy cs := by
  obtain ⟨hr, -, ht⟩ := isTidy_cons_iff.mp h
  obtain ⟨ds, hds⟩ := List.head?_eq_some_iff.mp (hr rfl)
  exact ⟨ds, hds, ht⟩

/-- What starts with another character than a line break starts with it in both texts. -/
theorem head?_dropReturns (h : isTidy cs) : (dropReturns cs).head? =
    cs.head?.map fun c => if c = '\r' then '\n' else c := by
  cases cs with
  | nil => rfl
  | cons c cs =>
    by_cases hc : c = '\r'
    · subst hc
      obtain ⟨ds, rfl, -⟩ := exists_feed_of_return h
      rfl
    · rw [dropReturns_cons hc]
      simp [hc]

theorem cons_of_dropReturns {d : Char} {ds : List Char} (h : isTidy cs)
    (hcs : dropReturns cs = d :: ds) (hd : d ≠ '\n') : ∃ es, cs = d :: es := by
  have hhead := head?_dropReturns h
  rw [hcs] at hhead
  obtain ⟨c, hc, he⟩ := Option.map_eq_some_iff.mp hhead.symm
  obtain ⟨es, rfl⟩ := List.head?_eq_some_iff.mp hc
  split at he
  · exact absurd he.symm hd
  · exact ⟨es, by rw [he]⟩

theorem dropReturns_eq_nil_iff (h : isTidy cs) : dropReturns cs = [] ↔ cs = [] := by
  constructor
  · intro hn
    have hhead := head?_dropReturns h
    rw [hn] at hhead
    exact List.head?_eq_none_iff.mp (Option.map_eq_none_iff.mp hhead.symm)
  · rintro rfl
    rfl

/-- A run of characters of a class that does not tell the two line breaks apart, or that no line
feed belongs to. -/
theorem span_dropReturns (hp : p '\r' ∨ p '\n' = false) (h : isTidy cs) :
    (dropReturns cs).takeWhile p = dropReturns (cs.takeWhile p) ∧
      (dropReturns cs).dropWhile p = dropReturns (cs.dropWhile p) := by
  induction cs with
  | nil => exact ⟨rfl, rfl⟩
  | cons c cs ih =>
    have ih := ih (isTidy_cons_iff.mp h).2.2
    by_cases hc : c = '\r'
    · subst hc
      cases hr : p '\r' with
      | true =>
        rw [List.takeWhile_cons_of_pos hr, List.dropWhile_cons_of_pos hr]
        exact ih
      | false =>
        obtain ⟨ds, rfl, -⟩ := exists_feed_of_return h
        have hn : ¬p '\n' := by simpa [hr] using hp
        have hr : ¬p '\r' := by simpa using hr
        rw [List.takeWhile_cons_of_neg hr, List.dropWhile_cons_of_neg hr]
        exact ⟨List.takeWhile_cons_of_neg hn, List.dropWhile_cons_of_neg hn⟩
    · rw [dropReturns_cons hc]
      by_cases hpc : p c
      · rw [List.takeWhile_cons_of_pos hpc, List.takeWhile_cons_of_pos hpc,
          List.dropWhile_cons_of_pos hpc, List.dropWhile_cons_of_pos hpc, dropReturns_cons hc, ih.1]
        exact ⟨rfl, ih.2⟩
      · rw [List.takeWhile_cons_of_neg hpc, List.takeWhile_cons_of_neg hpc,
          List.dropWhile_cons_of_neg hpc, List.dropWhile_cons_of_neg hpc, dropReturns_cons hc]
        exact ⟨rfl, rfl⟩

end Tidy

section Regions

theorem dropBoth_cons (hc : c ≠ '\r') (q : List Char × List Char) :
    dropBoth (c :: q.1, q.2) = (c :: (dropBoth q).1, (dropBoth q).2) := by
  rw [dropBoth, dropReturns_cons hc]
  rfl

theorem map_dropBoth_append (xs : List Char) (o : Option (List Char × List Char)) :
    (o.map fun q => (xs ++ q.1, q.2)).map dropBoth =
      (o.map dropBoth).map fun q => (dropReturns xs ++ q.1, q.2) := by
  cases o <;> simp [dropBoth, dropReturns_append]

theorem map_dropBoth_cons (hc : c ≠ '\r') (o : Option (List Char × List Char)) :
    (o.map fun q => (c :: q.1, q.2)).map dropBoth =
      (o.map dropBoth).map fun q => (c :: q.1, q.2) := by
  cases o <;> simp [dropBoth_cons hc]

theorem map_dropBoth_return (o : Option (List Char × List Char)) :
    (o.map fun q => ('\r' :: q.1, q.2)).map dropBoth = o.map dropBoth := by
  cases o <;> rfl

theorem lineRest_dropReturns (h : isTidy cs) :
    lineRest (dropReturns cs) = dropBoth (lineRest cs) := by
  obtain ⟨htake, hdrop⟩ := span_dropReturns (p := (· ≠ '\n')) (.inl (by decide)) h
  exact Prod.ext htake hdrop

theorem throughCommentEnd?_dropReturns (h : isTidy cs) :
    throughCommentEnd? (dropReturns cs) = (throughCommentEnd? cs).map dropBoth := by
  fun_induction throughCommentEnd? cs with
  | case1 => rfl
  | case2 rest => rfl
  | case3 c rest hn ih =>
    obtain ⟨-, -, ht⟩ := isTidy_cons_iff.mp h
    by_cases hc : c = '\r'
    · subst hc
      exact (ih ht).trans (map_dropBoth_return _).symm
    · rw [dropReturns_cons hc, throughCommentEnd?, ih ht, map_dropBoth_cons hc]
      · rintro ds rfl hds
        obtain ⟨es, rfl⟩ := cons_of_dropReturns ht hds (by decide)
        exact hn es rfl rfl

theorem comment?_eq_none_of_head {d : Char} (hs : d ≠ '/') (hb : d ≠ '*') :
    comment? (c :: d :: cs) = none := by
  unfold comment?
  split <;> simp_all

theorem comment?_dropReturns (h : isTidy cs) :
    comment? (dropReturns cs) = (comment? cs).map dropBoth := by
  cases cs with
  | nil => rfl
  | cons c cs =>
    obtain ⟨-, -, ht⟩ := isTidy_cons_iff.mp h
    by_cases hc : c = '/'
    · subst hc
      rw [dropReturns_cons (by decide)]
      cases cs with
      | nil => rfl
      | cons d ds =>
        obtain ⟨-, -, hds⟩ := isTidy_cons_iff.mp ht
        by_cases hs : d = '/'
        · subst hs
          rw [dropReturns_cons (by decide), comment?, comment?, lineRest_dropReturns hds]
          rfl
        by_cases hb : d = '*'
        · subst hb
          rw [dropReturns_cons (by decide), comment?, comment?, throughCommentEnd?_dropReturns hds]
          cases throughCommentEnd? ds <;> rfl
        rw [comment?_eq_none_of_head hs hb]
        by_cases hr : d = '\r'
        · subst hr
          obtain ⟨es, rfl, -⟩ := exists_feed_of_return ht
          rfl
        · rw [dropReturns_cons hr, comment?_eq_none_of_head hs hb]
          rfl
    · rw [comment?_eq_none hc]
      by_cases hr : c = '\r'
      · subst hr
        obtain ⟨ds, rfl, -⟩ := exists_feed_of_return h
        rfl
      · rw [dropReturns_cons hr, comment?_eq_none hc]
        rfl

/-- A backslash that takes nothing with it takes nothing with it in either text. -/
theorem not_escape_dropReturns (hn : ∀ d ds, c = '\\' → cs = d :: ds → False) :
    ∀ d ds, c = '\\' → dropReturns cs = d :: ds → False := by
  rintro d ds hc hcs
  cases cs with
  | nil => cases hcs
  | cons e es => exact hn e es hc rfl

theorem quotedRest_dropReturns {quote : Char} (hq : quote ≠ '\r') (h : isTidy cs) :
    quotedRest quote (dropReturns cs) = dropBoth (quotedRest quote cs) := by
  fun_induction quotedRest quote cs with
  | case1 => rfl
  | case2 c rest q ih =>
    obtain ⟨-, hb, ht⟩ := isTidy_cons_iff.mp h
    have hc : c ≠ '\r' := by simpa using hb rfl
    have hescape : ('\\' : Char) ≠ '\r' := by decide
    change _ = (dropReturns ('\\' :: c :: q.1), dropReturns q.2)
    rw [dropReturns_cons hescape, dropReturns_cons hescape, dropReturns_cons hc,
      dropReturns_cons hc, quotedRest, ih (isTidy_cons_iff.mp ht).2.2]
    rfl
  | case3 rest hn =>
    rw [dropReturns_cons hq, quotedRest, if_pos rfl, dropBoth, dropReturns_cons hq]
    · rfl
    · exact not_escape_dropReturns hn
  | case4 rest hn hne =>
    have hfeed : ('\n' : Char) ≠ '\r' := by decide
    rw [dropReturns_cons hfeed, quotedRest, if_neg hne, if_pos rfl, dropBoth,
      dropReturns_cons hfeed]
    · rfl
    · exact not_escape_dropReturns hn
  | case5 c rest hn hne hl q ih =>
    obtain ⟨-, -, ht⟩ := isTidy_cons_iff.mp h
    by_cases hc : c = '\r'
    · subst hc
      exact ih ht
    · rw [dropReturns_cons hc, quotedRest, if_neg hne, if_neg hl, ih ht, dropBoth_cons hc]
      exact not_escape_dropReturns hn

theorem bracketRest_dropReturns (h : isTidy cs) :
    bracketRest (dropReturns cs) = dropBoth (bracketRest cs) := by
  fun_induction bracketRest cs with
  | case1 => rfl
  | case2 c rest q ih =>
    obtain ⟨-, hb, ht⟩ := isTidy_cons_iff.mp h
    have hc : c ≠ '\r' := by simpa using hb rfl
    have hescape : ('\\' : Char) ≠ '\r' := by decide
    change _ = (dropReturns ('\\' :: c :: q.1), dropReturns q.2)
    rw [dropReturns_cons hescape, dropReturns_cons hescape, dropReturns_cons hc,
      dropReturns_cons hc, bracketRest, ih (isTidy_cons_iff.mp ht).2.2]
    rfl
  | case3 rest hn =>
    have hclosing : (']' : Char) ≠ '\r' := by decide
    rw [dropReturns_cons hclosing, bracketRest, if_pos rfl, dropBoth, dropReturns_cons hclosing]
    · rfl
    · exact not_escape_dropReturns hn
  | case4 c rest hn hne q ih =>
    obtain ⟨-, -, ht⟩ := isTidy_cons_iff.mp h
    by_cases hc : c = '\r'
    · subst hc
      exact ih ht
    · rw [dropReturns_cons hc, bracketRest, if_neg hne, ih ht, dropBoth_cons hc]
      exact not_escape_dropReturns hn

theorem blockBody?_dropReturns {depth : Nat} (h : isTidy cs) :
    blockBody? depth (dropReturns cs) = (blockBody? depth cs).map dropBoth := by
  have hcomment : ∀ {cs : List Char}, isTidy cs → comment? cs = none →
      comment? (dropReturns cs) = none := by
    intro cs h hc
    rw [comment?_dropReturns h, hc]
    rfl
  fun_induction blockBody? depth cs with
  | case1 depth cs text rest hc _ ih =>
    have hboth : comment? (dropReturns cs) = some (dropBoth (text, rest)) := by
      rw [comment?_dropReturns h, hc]
      rfl
    have ht : isTidy rest := by
      rw [← comment?_append hc] at h
      exact isTidy_of_append h
    rw [blockBody?_of_comment hboth, dropBoth, ih ht, map_dropBoth_append]
  | case2 => rw [dropReturns_nil, blockBody?]; rfl
  | case3 depth c rest hc hquote _ ih =>
    obtain ⟨-, -, ht⟩ := isTidy_cons_iff.mp h
    have hr : c ≠ '\r' := by rcases hquote with rfl | rfl <;> decide
    have hnone := hcomment h hc
    have hafter : isTidy (quotedRest c rest).2 := by
      rw [← quotedRest_append c rest] at ht
      exact isTidy_of_append ht
    rw [dropReturns_cons hr] at hnone ⊢
    rw [blockBody?_of_char hnone, if_pos hquote, quotedRest_dropReturns hr ht, dropBoth, ih hafter,
      map_dropBoth_append, dropReturns_cons hr]
  | case4 depth rest hc hquote ih =>
    obtain ⟨-, -, ht⟩ := isTidy_cons_iff.mp h
    have hnone := hcomment h hc
    rw [dropReturns_cons (by decide)] at hnone ⊢
    rw [blockBody?_of_char hnone, if_neg hquote, if_pos rfl, ih ht, map_dropBoth_cons (by decide)]
  | case5 rest hc hquote hopen =>
    have hnone := hcomment h hc
    rw [dropReturns_cons (by decide)] at hnone ⊢
    rw [blockBody?_of_char hnone, if_neg hquote, if_neg hopen, if_pos rfl]
    rfl
  | case6 rest depth hc hquote hopen ih =>
    obtain ⟨-, -, ht⟩ := isTidy_cons_iff.mp h
    have hnone := hcomment h hc
    rw [dropReturns_cons (by decide)] at hnone ⊢
    rw [blockBody?_of_char hnone, if_neg hquote, if_neg hopen, if_pos rfl,
      map_dropBoth_cons (by decide)]
    simp only [ih ht]
  | case7 depth c rest hc hquote hopen hclose ih =>
    obtain ⟨-, -, ht⟩ := isTidy_cons_iff.mp h
    by_cases hr : c = '\r'
    · subst hr
      exact (ih ht).trans (map_dropBoth_return _).symm
    · have hnone := hcomment h hc
      rw [dropReturns_cons hr] at hnone ⊢
      rw [blockBody?_of_char hnone, if_neg hquote, if_neg hopen, if_neg hclose, ih ht,
        map_dropBoth_cons hr]

theorem dropReturns_map_blankOut (cs : List Char) :
    dropReturns (cs.map blankOut) = (dropReturns cs).map blankOut := by
  induction cs with
  | nil => rfl
  | cons c cs ih =>
    by_cases hc : c = '\r'
    · subst hc
      exact ih
    · have hb : blankOut c ≠ '\r' := by
        unfold blankOut
        split
        · exact hc
        · decide
      rw [List.map_cons, dropReturns_cons hb, dropReturns_cons hc, ih, List.map_cons]

/-- Without carriage returns a piece is cut off alike, if it is none itself. -/
theorem Cuts.dropReturns {piece : Piece} (h : Cuts cs piece rest) (ht : isTidy cs)
    (hp : piece ≠ .char '\r') : ∃ piece', Cuts (dropReturns cs) piece' (dropReturns rest) ∧
      piece'.masked = Source.dropReturns piece.masked := by
  cases h with
  | @comment _ p hc =>
    have hboth : comment? (Source.dropReturns cs) = some (dropBoth p) := by
      rw [comment?_dropReturns ht, hc]
      rfl
    exact ⟨_, .comment hboth, rfl⟩
  | @literal rest =>
    have hquote : ('\'' : Char) ≠ '\r' := by decide
    have hquoted := quotedRest_dropReturns hquote (isTidy_cons_iff.mp ht).2.2
    have hcut : Cuts ('\'' :: Source.dropReturns rest) _ _ := .literal
    rw [hquoted] at hcut
    rw [dropReturns_cons hquote]
    exact ⟨_, hcut, (dropReturns_cons hquote).symm⟩
  | @bracket rest =>
    have hmark : ('[' : Char) ≠ '\r' := by decide
    have hbracket := bracketRest_dropReturns (isTidy_cons_iff.mp ht).2.2
    have hcut : Cuts ('[' :: Source.dropReturns rest) _ _ := .bracket
    rw [hbracket] at hcut
    rw [dropReturns_cons hmark]
    exact ⟨_, hcut, (dropReturns_cons hmark).symm⟩
  | @block tail body _ hb =>
    have hmark : ('\x7b' : Char) ≠ '\r' := by decide
    have hblock : blockBody? 0 (Source.dropReturns tail) = some (dropBoth (body, rest)) := by
      rw [blockBody?_dropReturns (isTidy_cons_iff.mp ht).2.2, hb]
      rfl
    rw [dropReturns_cons hmark]
    refine ⟨_, .block hblock, ?_⟩
    simp only [Piece.masked, dropReturns_append, dropReturns_cons hmark, dropReturns_map_blankOut,
      List.cons_append]
    rfl
  | @unclosed rest hb =>
    have hmark : ('\x7b' : Char) ≠ '\r' := by decide
    have hblock : blockBody? 0 (Source.dropReturns rest) = none := by
      rw [blockBody?_dropReturns (isTidy_cons_iff.mp ht).2.2, hb]
      rfl
    rw [dropReturns_cons hmark]
    exact ⟨_, .unclosed hblock, (dropReturns_cons hmark).symm⟩
  | @char c rest hc hm =>
    have hr : c ≠ '\r' := fun hr => hp (congrArg Piece.char hr)
    have hnone : comment? (Source.dropReturns (c :: rest)) = none := by
      rw [comment?_dropReturns ht, hc]
      rfl
    rw [dropReturns_cons hr] at hnone ⊢
    have hchar : Source.dropReturns [c] = [c] := dropReturns_cons hr
    exact ⟨.char c, .char hnone hm, hchar.symm⟩

/-- Masking does not depend on the kind of line breaks. -/
theorem maskChars_dropReturns (h : isTidy cs) :
    maskChars (dropReturns cs) = dropReturns (maskChars cs) := by
  induction cs using cuts_induction with
  | nil => rw [dropReturns_nil, maskChars_nil, dropReturns_nil]
  | cut cs piece rest hcut ih =>
    have htext := hcut.append_eq
    have hrest : isTidy rest := by
      rw [← htext] at h
      exact isTidy_of_append h
    rw [hcut.maskChars_eq, dropReturns_append, ← ih hrest]
    by_cases hp : piece = .char '\r'
    · subst hp
      rw [← htext]
      rfl
    · obtain ⟨piece', hcut', hm⟩ := hcut.dropReturns h hp
      rw [hcut'.maskChars_eq, hm]

end Regions

section Lexer

theorem isTidy_of_masks {ms : List Char} (hm : List.Forall₂ Masks cs ms) (h : isTidy cs) :
    isTidy ms := by
  induction hm with
  | nil => rfl
  | @cons c m cs ms hcm hms ih =>
    obtain ⟨hr, hb, ht⟩ := isTidy_cons_iff.mp h
    obtain ⟨hreturn, -, hescape⟩ := eq_of_masks_break hcm
    refine isTidy_cons_iff.mpr ⟨fun he => ?_, fun he => ?_, ih ht⟩
    · obtain ⟨ds, rfl⟩ := List.head?_eq_some_iff.mp (hr (hreturn.mp he))
      cases hms with
      | cons hd _ => exact congrArg some ((eq_of_masks_break hd).2.1.mpr rfl)
    · have hn := hb (hescape he)
      cases hms with
      | nil => simp
      | cons hd _ => simpa [(eq_of_masks_break hd).1] using hn

theorem isTidy_maskChars (h : isTidy cs) : isTidy (maskChars cs) :=
  isTidy_of_masks (masks_maskChars cs) h

theorem map_dropBoth_escape (hc : c ≠ '\r') (o : Option (List Char × List Char)) :
    (o.map fun q => ('\\' :: c :: q.1, q.2)).map dropBoth =
      (o.map dropBoth).map fun q => ('\\' :: c :: q.1, q.2) := by
  have hpair : dropReturns ['\\', c] = ['\\', c] := by
    rw [dropReturns_cons (by decide), dropReturns_cons hc]
    rfl
  have happ := map_dropBoth_append ['\\', c] o
  rw [hpair] at happ
  exact happ

theorem literalRest?_dropReturns (h : isTidy cs) :
    literalRest? (dropReturns cs) = (literalRest? cs).map dropBoth := by
  have hfeed : ∀ ds, literalRest? ('\n' :: ds) = none := by
    intro ds
    rw [literalRest?] <;> simp
  fun_induction literalRest? cs with
  | case1 => rfl
  | case2 rest =>
    rw [dropReturns_cons (by decide), dropReturns_cons (by decide), literalRest?, if_pos rfl]
    rfl
  | case3 c rest hn ih =>
    obtain ⟨-, hb, ht⟩ := isTidy_cons_iff.mp h
    have hc : c ≠ '\r' := by simpa using hb rfl
    rw [dropReturns_cons (by decide), dropReturns_cons hc, literalRest?, if_neg hn,
      ih (isTidy_cons_iff.mp ht).2.2, map_dropBoth_escape hc]
  | case4 rest hn =>
    have hquote : ('\'' : Char) ≠ '\r' := by decide
    have hshort : dropReturns ['\''] = ['\''] := rfl
    rw [dropReturns_cons hquote, literalRest?, if_pos rfl, Option.map_some, dropBoth, hshort]
    exact not_escape_dropReturns hn
  | case5 c rest hn hq hs =>
    rw [Option.map_none]
    by_cases hr : c = '\r'
    · subst hr
      obtain ⟨ds, rfl, -⟩ := exists_feed_of_return h
      exact hfeed _
    · rw [dropReturns_cons hr, literalRest?, if_neg hq, if_pos hs]
      exact not_escape_dropReturns hn
  | case6 c rest hn hq hs ih =>
    have hr : c ≠ '\r' := fun hr => hs (.inr (.inl hr))
    rw [dropReturns_cons hr, literalRest?, if_neg hq, if_neg hs, ih (isTidy_cons_iff.mp h).2.2,
      map_dropBoth_cons hr]
    exact not_escape_dropReturns hn

theorem bracketBlockRest?_dropReturns (h : isTidy cs) :
    bracketBlockRest? (dropReturns cs) = (bracketBlockRest? cs).map dropBoth := by
  fun_induction bracketBlockRest? cs with
  | case1 => rfl
  | case2 rest =>
    rw [dropReturns_cons (by decide), dropReturns_cons (by decide), bracketBlockRest?, if_pos rfl]
    rfl
  | case3 c rest hn ih =>
    obtain ⟨-, hb, ht⟩ := isTidy_cons_iff.mp h
    have hc : c ≠ '\r' := by simpa using hb rfl
    rw [dropReturns_cons (by decide), dropReturns_cons hc, bracketBlockRest?, if_neg hn,
      ih (isTidy_cons_iff.mp ht).2.2, map_dropBoth_escape hc]
  | case4 rest hn =>
    have hclosing : (']' : Char) ≠ '\r' := by decide
    have hshort : dropReturns [']'] = [']'] := rfl
    rw [dropReturns_cons hclosing, bracketBlockRest?, if_pos rfl, Option.map_some, dropBoth,
      hshort]
    exact not_escape_dropReturns hn
  | case5 rest hn hc =>
    rw [Option.map_none, dropReturns_cons (by decide), bracketBlockRest?, if_neg hc, if_pos rfl]
    exact not_escape_dropReturns hn
  | case6 c rest hn hc hb ih =>
    have ih := ih (isTidy_cons_iff.mp h).2.2
    by_cases hr : c = '\r'
    · subst hr
      exact ih.trans (map_dropBoth_return _).symm
    · rw [dropReturns_cons hr, bracketBlockRest?, if_neg hc, if_neg hb, ih, map_dropBoth_cons hr]
      exact not_escape_dropReturns hn

theorem flatRest?_dropReturns {opening closing : Char} (ho : opening ≠ '\r') (hc : closing ≠ '\r')
    (cs : List Char) :
    flatRest? opening closing (dropReturns cs) = (flatRest? opening closing cs).map dropBoth := by
  induction cs with
  | nil => rfl
  | cons c rest ih =>
    by_cases hr : c = '\r'
    · subst hr
      rw [flatRest?, if_neg hc.symm, if_neg ho.symm]
      exact ih.trans (map_dropBoth_return _).symm
    · rw [dropReturns_cons hr, flatRest?, flatRest?]
      split
      · rw [Option.map_some, dropBoth, dropReturns_cons hr]
        rfl
      · split
        · rfl
        · rw [ih, map_dropBoth_cons hr]

/-- How far a lexeme goes in the text without carriage returns. -/
def Extent.dropReturns (e : Extent) : Extent :=
  ⟨e.kind?, Source.dropReturns e.tail, Source.dropReturns e.after⟩

theorem map_closedExtent (kind : TokenKind) (o : Option (List Char × List Char)) :
    (o.map dropBoth).map (closedExtent kind) =
      (o.map (closedExtent kind)).map Extent.dropReturns := by
  cases o <;> rfl

theorem runExtent_dropReturns {kind? : Option TokenKind} (hp : p '\r' ∨ p '\n' = false)
    (h : isTidy cs) :
    runExtent kind? p (dropReturns cs) = (runExtent kind? p cs).dropReturns := by
  obtain ⟨htake, hdrop⟩ := span_dropReturns hp h
  rw [runExtent, htake, hdrop]
  rfl

/-- A class of characters without line breaks holds no carriage return to be dropped. -/
theorem dropReturns_takeWhile (hp : p '\r' = false) (cs : List Char) :
    dropReturns (cs.takeWhile p) = cs.takeWhile p := by
  refine List.filter_eq_self.mpr fun c hc => ?_
  have hpc := List.mem_takeWhile_imp hc
  simp only [decide_eq_true_eq]
  rintro rfl
  rw [hp] at hpc
  cases hpc

theorem opensBlock_dropReturns (h : isTidy cs) : opensBlock (dropReturns cs) = opensBlock cs := by
  obtain ⟨-, hdrop⟩ := span_dropReturns (p := Text.isBlank) (.inl rfl) h
  have ht : isTidy (cs.dropWhile Text.isBlank) := by
    rw [← List.takeWhile_append_dropWhile (p := Text.isBlank) (l := cs)] at h
    exact isTidy_of_append h
  rw [opensBlock, opensBlock, hdrop, head?_dropReturns ht]
  cases (cs.dropWhile Text.isBlank).head? with
  | none => rfl
  | some c =>
    by_cases hc : c = '\r'
    · subst hc
      decide
    · simp [hc]

theorem wordExtent_dropReturns (h : isTidy cs) :
    wordExtent c (dropReturns cs) = (wordExtent c cs).dropReturns := by
  obtain ⟨htake, hdrop⟩ := span_dropReturns (p := isNameChar) (.inr (by decide)) h
  have ht : isTidy (cs.dropWhile isNameChar) := by
    rw [← List.takeWhile_append_dropWhile (p := isNameChar) (l := cs)] at h
    exact isTidy_of_append h
  have hkind : wordKind (String.ofList (c :: cs.takeWhile isNameChar))
      (dropReturns (cs.dropWhile isNameChar)) = _ :=
    wordKind_congr (.inl (opensBlock_dropReturns ht))
  simp only [wordExtent, Extent.dropReturns, htake, hdrop]
  rw [dropReturns_takeWhile (by decide), hkind]

theorem commentExtent?_eq_none (hs : c ≠ '/') (hb : c ≠ '*') : commentExtent? (c :: cs) = none := by
  unfold commentExtent?
  split <;> simp_all

theorem commentExtent?_dropReturns (h : isTidy cs) :
    commentExtent? (dropReturns cs) = (commentExtent? cs).map Extent.dropReturns := by
  cases cs with
  | nil => rfl
  | cons d ds =>
    obtain ⟨-, -, ht⟩ := isTidy_cons_iff.mp h
    by_cases hs : d = '/'
    · subst hs
      rw [dropReturns_cons (by decide), commentExtent?, commentExtent?, lineRest_dropReturns ht]
      rfl
    by_cases hb : d = '*'
    · subst hb
      rw [dropReturns_cons (by decide), commentExtent?, commentExtent?,
        throughCommentEnd?_dropReturns ht]
      cases throughCommentEnd? ds <;> rfl
    rw [commentExtent?_eq_none hs hb]
    by_cases hr : d = '\r'
    · subst hr
      obtain ⟨es, rfl, -⟩ := exists_feed_of_return h
      exact commentExtent?_eq_none (by decide) (by decide)
    · rw [dropReturns_cons hr]
      exact commentExtent?_eq_none hs hb

theorem atNameExtent?_dropReturns (h : isTidy cs) :
    atNameExtent? (dropReturns cs) = (atNameExtent? cs).map Extent.dropReturns := by
  cases cs with
  | nil => rfl
  | cons d ds =>
    obtain ⟨htake, hdrop⟩ := span_dropReturns (p := isNameChar) (.inr (by decide))
      (isTidy_cons_iff.mp h).2.2
    by_cases hr : d = '\r'
    · subst hr
      obtain ⟨es, rfl, -⟩ := exists_feed_of_return h
      rfl
    · rw [dropReturns_cons hr, atNameExtent?, atNameExtent?, htake, hdrop]
      split
      · rw [Option.map_some, Extent.dropReturns, dropReturns_cons hr]
      · rfl

theorem markExtent?_dropReturns (h : isTidy cs) :
    markExtent? c (dropReturns cs) = (markExtent? c cs).map Extent.dropReturns := by
  cases cs with
  | nil =>
    rw [dropReturns_nil, markExtent?]
    cases mark? c <;> rfl
  | cons d ds =>
    by_cases hr : d = '\r'
    · subst hr
      obtain ⟨es, rfl, -⟩ := exists_feed_of_return h
      have hreturn : longMark? c '\r' = none := longMark?_of_separates (.inl (by decide))
      have hfeed : longMark? c '\n' = none := longMark?_of_separates (.inl (by decide))
      change markExtent? c ('\n' :: dropReturns es) = _
      simp only [markExtent?, hreturn, hfeed]
      cases mark? c <;> rfl
    · rw [dropReturns_cons hr, markExtent?, markExtent?]
      cases longMark? c d with
      | some k =>
        have hshort : dropReturns [d] = [d] := dropReturns_cons hr
        simp [Extent.dropReturns, hshort]
      | none => cases mark? c <;> simp [Extent.dropReturns, dropReturns_cons hr]

theorem extent?_dropReturns (h : isTidy cs) :
    extent? c (dropReturns cs) = (extent? c cs).map Extent.dropReturns := by
  unfold extent?
  split
  · exact congrArg some (runExtent_dropReturns (.inl (by decide)) h)
  split
  · exact congrArg some (wordExtent_dropReturns h)
  split
  · exact congrArg some (runExtent_dropReturns (.inr (by decide)) h)
  split
  · exact congrArg some (runExtent_dropReturns (.inr (by decide)) h)
  split
  · exact commentExtent?_dropReturns h
  · rw [literalRest?_dropReturns h, map_closedExtent]
  · rw [bracketBlockRest?_dropReturns h, map_closedExtent]
  · rw [flatRest?_dropReturns (by decide) (by decide), map_closedExtent]
  · rw [flatRest?_dropReturns (by decide) (by decide), map_closedExtent]
  · exact atNameExtent?_dropReturns h
  · exact markExtent?_dropReturns h

def Lexeme.dropReturns (lexeme : Lexeme) : Lexeme :=
  ⟨lexeme.kind?, Source.dropReturns lexeme.text⟩

/-- Lexemes do not depend on the kind of line breaks. -/
theorem lexeme?_dropReturns (h : isTidy cs) : lexeme? (dropReturns cs) =
    (lexeme? cs).map fun q => (q.1.dropReturns, dropReturns q.2) := by
  cases cs with
  | nil => rfl
  | cons c rest =>
    obtain ⟨-, -, ht⟩ := isTidy_cons_iff.mp h
    by_cases hc : c = '\r'
    · subst hc
      obtain ⟨ds, rfl, -⟩ := exists_feed_of_return h
      have hds : isTidy ds := (isTidy_cons_iff.mp ht).2.2
      obtain ⟨htake, hdrop⟩ := span_dropReturns (p := isSpace) (.inl rfl) hds
      have hfeed : dropReturns ('\r' :: '\n' :: ds) = '\n' :: dropReturns ds := rfl
      rw [hfeed, lexeme?_of_isSpace (by decide), lexeme?_of_isSpace (by decide), htake, hdrop]
      rfl
    · rw [dropReturns_cons hc, lexeme?, lexeme?, extent?_dropReturns ht, Option.map_map,
        Option.map_map]
      refine congrArg (Option.map · _) (funext fun e => ?_)
      simp [Lexeme.dropReturns, Extent.dropReturns, dropReturns_cons hc]

theorem lexemes_dropReturns (h : isTidy cs) : lexemes (dropReturns cs) =
    ((lexemes cs).1.map Lexeme.dropReturns, dropReturns (lexemes cs).2) := by
  fun_induction lexemes cs with
  | case1 cs hl =>
    have hnone := lexeme?_dropReturns h
    rw [hl] at hnone
    rw [lexemes]
    split
    next => rfl
    next hs => cases hs.symm.trans hnone
  | case2 cs lexeme after hl _ ih =>
    have hsome := lexeme?_dropReturns h
    rw [hl] at hsome
    have ht : isTidy after := by
      rw [← lexeme?_append hl] at h
      exact isTidy_of_append h
    rw [lexemes]
    split
    next hn => cases hn.symm.trans hsome
    next hs =>
      cases hs.symm.trans hsome
      rw [ih ht]
      rfl

theorem not_return_of_literalBody {body : List Char} (hb : LiteralBody body)
    (h : isTidy (body ++ rest)) : '\r' ∉ body := by
  induction hb with
  | nil => simp
  | escape _ _ ih =>
    obtain ⟨-, hreturn, ht⟩ := isTidy_cons_iff.mp h
    have hc := hreturn rfl
    have ih := ih (isTidy_cons_iff.mp ht).2.2
    simpa [ih, eq_comm] using hc
  | plain _ _ hc _ _ ih =>
    have ih := ih (isTidy_cons_iff.mp h).2.2
    simpa [ih] using hc.symm

/-- Names and literals hold no carriage returns. -/
theorem dropReturns_text {k : TokenKind} (hl : lexeme? cs = some (⟨some k, rest⟩, after))
    (h : isTidy cs) (hk : k ∈ [.ruleName, .tokenName, .literal]) : dropReturns rest = rest := by
  have hname : (∀ c ∈ rest, isNameChar c) → '\r' ∉ rest := fun hn hr => absurd (hn _ hr) (by decide)
  have hr : '\r' ∉ rest := by
    simp only [List.mem_cons, List.not_mem_nil, or_false] at hk
    rcases hk with rfl | rfl | rfl
    · have hn := (ruleName_of_lexeme? hl).1
      exact hname (isNameChar_of_isName (fun _ => isNameChar_of_isSmall) hn)
    · have hn := tokenName_of_lexeme? hl
      exact hname (isNameChar_of_isName (fun _ => isNameChar_of_isCapital) hn)
    · obtain ⟨body, hb, rfl⟩ := literal_of_lexeme? hl
      rw [← lexeme?_append hl] at h
      have ht : isTidy (body ++ ('\'' :: after)) := by
        simpa using (isTidy_cons_iff.mp h).2.2
      simpa using not_return_of_literalBody hb ht
  exact List.filter_eq_self.mpr fun c hc => by
    simpa using fun he : c = '\r' => hr (he ▸ hc)

end Lexer

end GrammarDoc.Source
