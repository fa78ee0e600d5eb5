import GrammarDoc.Proofs.Source.Blanking

namespace GrammarDoc.Source

open Text (Position Span)

/-- A token carries the characters that a text has at its span. -/
def Verbatim (cs : List Char) (t : Token) : Prop :=
  ∃ before after, cs = before ++ (t.text.toList ++ after) ∧
    t.span = Span.following before t.text.toList

/-- A block stands at a span, and masking changes what is in it. -/
def BlanksAt (cs : List Char) (span : Span) : Prop :=
  ∃ earlier body later, pieces cs = earlier ++ .block body :: later ∧ body.map blankOut ≠ body ∧
    span = Span.following (earlier.flatMap Piece.text) (Piece.block body).text

/-- Masking blanks a block inside of a token. -/
def BlanksIn (cs : List Char) (t : Token) : Prop :=
  ∃ span, BlanksAt cs span ∧ span.Within t.span

variable {cs ms xs ys us vs before stretch after : List Char} {c : Char} {t : Token}

/-- A token of a masked text stands at a stretch of the text itself. -/
theorem exists_stretch (h : t ∈ (readTokens (maskChars cs)).tokens) :
    ∃ before stretch after ms ns, cs = before ++ (stretch ++ after) ∧
      maskChars cs = ms ++ (t.text.toList ++ ns) ∧ List.Forall₂ Masks before ms ∧
      List.Forall₂ Masks stretch t.text.toList ∧ t.span = Span.following before stretch := by
  obtain ⟨ms, ns, hms, -, hspan⟩ := exists_lexeme_of_mem_tokens h
  have hm := masks_maskChars cs
  rw [hms] at hm
  obtain ⟨before, rest, rfl, hb, hr⟩ := exists_append_of_forall₂ hm
  obtain ⟨stretch, after, rfl, hs, -⟩ := exists_append_of_forall₂ hr
  refine ⟨before, stretch, after, ms, ns, rfl, hms, hb, hs, ?_⟩
  rw [hspan, after_masks _ hb, after_masks _ (List.rel_append hb hs)]
  rfl

theorem verbatim_iff_eq (hcs : cs = before ++ (stretch ++ after))
    (hspan : t.span = Span.following before stretch)
    (hl : stretch.length = t.text.toList.length) :
    Verbatim cs t ↔ stretch = t.text.toList := by
  constructor
  · rintro ⟨before', after', hcs', hspan'⟩
    have he := hcs.symm.trans hcs'
    have hfirst := congrArg Span.first (hspan.symm.trans hspan')
    cases Position.eq_of_after_eq he hfirst
    exact (List.append_inj (List.append_cancel_left he) hl).1
  · intro h
    exact ⟨before, after, h ▸ hcs, h ▸ hspan⟩

theorem eq_of_masks (h : List.Forall₂ Masks cs ms) (hs : ∀ m ∈ ms, isSpace m = false) :
    cs = ms := by
  induction h with
  | nil => rfl
  | cons hc _ ih =>
    have hm := hs _ List.mem_cons_self
    rw [ih fun d hd => hs d (List.mem_cons_of_mem _ hd)]
    rcases hc with rfl | rfl
    · rfl
    · rw [isSpace_blankOut] at hm
      cases hm

/-- A token without white space is verbatim. -/
theorem verbatim_of_no_space (h : t ∈ (readTokens (maskChars cs)).tokens)
    (hs : ∀ m ∈ t.text.toList, isSpace m = false) : Verbatim cs t := by
  obtain ⟨before, stretch, after, _, _, hcs, -, -, hm, hspan⟩ := exists_stretch h
  exact (verbatim_iff_eq hcs hspan hm.length_eq).mpr (eq_of_masks hm hs)

theorem map_blankOut_ne (h : blankOut c ≠ c) : (us ++ c :: vs).map blankOut ≠ us ++ c :: vs := by
  intro he
  rw [List.map_append, List.map_cons] at he
  have hc := (List.append_inj he (by simp)).2
  exact h (List.cons.inj hc).1

theorem not_verbatim_of_blanksIn (h : t ∈ (readTokens (maskChars cs)).tokens)
    (hb : BlanksIn cs t) : ¬Verbatim cs t := by
  obtain ⟨before, stretch, after, ms, ns, hcs, hms, hmb, hm, hspan⟩ := exists_stretch h
  obtain ⟨span, ⟨earlier, body, later, hp, hne, rfl⟩, hin⟩ := hb
  rw [verbatim_iff_eq hcs hspan hm.length_eq]
  rintro rfl
  rw [hspan] at hin
  have htext : cs = earlier.flatMap Piece.text ++
      ((Piece.block body).text ++ later.flatMap Piece.text) := by
    simpa [hp] using (pieces_text cs).symm
  have hmasked : maskChars cs = earlier.flatMap Piece.masked ++
      ((Piece.block body).masked ++ later.flatMap Piece.masked) := by
    simp [maskChars, hp]
  have he := hcs.symm.trans htext
  obtain ⟨us, hus⟩ := Position.exists_append_of_after_le he hin.1
  have he' : (earlier.flatMap Piece.text ++ (Piece.block body).text) ++
      later.flatMap Piece.text = (before ++ t.text.toList) ++ after := by
    simpa using he.symm
  obtain ⟨vs, hvs⟩ := Position.exists_append_of_after_le he' hin.2
  have hstretch : t.text.toList = us ++ ((Piece.block body).text ++ vs) := by
    simpa [hus] using hvs
  have hlen : (ms ++ us).length = (earlier.flatMap Piece.masked).length := by
    rw [length_masked, hus, List.length_append, List.length_append, hmb.length_eq]
  have heq : (ms ++ us) ++ ((Piece.block body).text ++ (vs ++ ns)) =
      earlier.flatMap Piece.masked ++
        ((Piece.block body).masked ++ later.flatMap Piece.masked) := by
    rw [← hmasked, hms, hstretch]
    simp
  have hbody := (List.append_inj (List.append_inj heq hlen).2 (masks_piece _).length_eq).1
  have hblank : body ++ ['\x7d'] = body.map blankOut ++ ['\x7d'] := (List.cons.inj hbody).2
  exact hne (List.append_cancel_right hblank).symm

theorem exists_split_of_ne (hl : xs.length = ys.length) (h : xs ≠ ys) :
    ∃ us c vs m ns, xs = us ++ c :: vs ∧ ys = us ++ m :: ns ∧ m ≠ c := by
  induction xs generalizing ys with
  | nil =>
    cases List.length_eq_zero_iff.mp hl.symm
    exact absurd rfl h
  | cons c xs ih =>
    obtain ⟨m, ys, rfl⟩ := List.exists_cons_of_length_eq_add_one hl.symm
    rcases eq_or_ne m c with rfl | hc
    · obtain ⟨us, d, vs, e, ns, rfl, rfl, hd⟩ :=
        ih (Nat.succ.inj hl) fun hx => h (congrArg _ hx)
      exact ⟨m :: us, d, vs, e, ns, rfl, rfl, hd⟩
    · exact ⟨[], c, xs, m, ys, rfl, rfl, hc⟩

/-- Text that starts with no blank starts before the blanks of a block, so the block opens in it. -/
theorem length_le_of_opens {as : List Char}
    (h : ms ++ us = as ++ '\x7b' :: xs.map blankOut)
    (hfirst : ∀ d, (us ++ blankOut c :: vs).head? = some d → isSpace d = false) :
    ms.length ≤ as.length := by
  by_contra hn
  have hs : (as ++ ['\x7b']) ++ xs.map blankOut = ms ++ us := by simp [h]
  obtain ⟨zs, -, hz⟩ := exists_append_of_length_le hs (by simp; omega)
  cases us with
  | nil => exact absurd (isSpace_blankOut c) (by simp [hfirst _ rfl])
  | cons d us =>
    have hd : d ∈ xs.map blankOut := by simp [hz]
    exact absurd (isSpace_of_mem_map hd) (by simp [hfirst d rfl])

theorem length_lt_of_closes {bs : List Char}
    (h : vs ++ ms = ys.map blankOut ++ '\x7d' :: bs)
    (hlast : ∀ d, (us ++ blankOut c :: vs).getLast? = some d → isSpace d = false) :
    ys.length < vs.length := by
  by_contra hn
  obtain ⟨zs, hz, -⟩ := exists_append_of_length_le h (by simp; omega)
  rcases List.eq_nil_or_concat' vs with rfl | ⟨vs, d, rfl⟩
  · exact absurd (isSpace_blankOut c) (by simp [hlast (blankOut c) (by simp)])
  · have hd : d ∈ ys.map blankOut := by simp [hz]
    have he : us ++ blankOut c :: (vs ++ [d]) = (us ++ blankOut c :: vs) ++ [d] := by simp
    rw [he] at hlast
    exact absurd (isSpace_of_mem_map hd) (by simp [hlast d List.getLast?_concat])

/-- A token that starts and ends with something else than white space is verbatim unless masking
blanks a block inside of it. -/
theorem blanksIn_of_not_verbatim (h : t ∈ (readTokens (maskChars cs)).tokens)
    (hfirst : ∀ d, t.text.toList.head? = some d → isSpace d = false)
    (hlast : ∀ d, t.text.toList.getLast? = some d → isSpace d = false)
    (hv : ¬Verbatim cs t) : BlanksIn cs t := by
  obtain ⟨before, stretch, after, ms, ns, hcs, hms, hmb, hm, hspan⟩ := exists_stretch h
  rw [verbatim_iff_eq hcs hspan hm.length_eq] at hv
  obtain ⟨us, c, vs, m, ws, rfl, htext, hc⟩ := exists_split_of_ne hm.length_eq hv
  have hvs := hm.length_eq
  rw [htext] at hfirst hlast hms hvs
  have hct : (pieces cs).flatMap Piece.text = (before ++ us) ++ c :: (vs ++ after) := by
    rw [pieces_text, hcs]
    simp
  have hcm : (pieces cs).flatMap Piece.masked = (ms ++ us) ++ m :: (ws ++ ns) := by
    rw [← maskChars, hms]
    simp
  have hl : (before ++ us).length = (ms ++ us).length := by
    rw [List.length_append, List.length_append, hmb.length_eq]
  obtain ⟨earlier, xs, ys, later, hp, rfl, hb, hb', ha, ha'⟩ := exists_block_of_ne hct hcm hl hc
  have hopen : before.length ≤ (earlier.flatMap Piece.text).length := by
    rw [hmb.length_eq, ← length_masked]
    exact length_le_of_opens hb' hfirst
  have hclose : ys.length < vs.length := by
    have hlt := length_lt_of_closes ha' hlast
    simp only [List.length_append, List.length_cons] at hvs
    omega
  obtain ⟨zs, hz, -⟩ := exists_append_of_length_le hb hopen
  have hys : (ys ++ ['\x7d']) ++ later.flatMap Piece.text = vs ++ after := by simp [ha]
  obtain ⟨zs', rfl, -⟩ := exists_append_of_length_le hys (by simp; omega)
  refine ⟨_, ⟨earlier, xs ++ c :: ys, later, hp, map_blankOut_ne hc, rfl⟩, ?_⟩
  rw [hspan]
  constructor
  · change Position.start.after before ≤ Position.start.after (earlier.flatMap Piece.text)
    rw [hz, Position.after_append]
    exact Position.le_after _ _
  · have hend : before ++ (us ++ c :: (ys ++ ['\x7d'] ++ zs')) =
        (earlier.flatMap Piece.text ++ (Piece.block (xs ++ c :: ys)).text) ++ zs' := by
      rw [← List.append_assoc, hb]
      simp [Piece.text]
    change _ ≤ Position.start.after (before ++ (us ++ c :: (ys ++ ['\x7d'] ++ zs')))
    rw [hend, Position.after_append _ (earlier.flatMap Piece.text ++ _)]
    exact Position.le_after _ _

/-- Masking changes no name. -/
theorem verbatim_name (h : t ∈ (readTokens (maskChars cs)).tokens)
    (hk : t.kind = .ruleName ∨ t.kind = .tokenName) : Verbatim cs t := by
  obtain ⟨_, _, -, hl, -⟩ := exists_lexeme_of_mem_tokens h
  have hn : ∀ c ∈ t.text.toList, isNameChar c := by
    rcases hk with hk | hk <;> rw [hk] at hl
    · exact isNameChar_of_isName (fun _ => isNameChar_of_isSmall) (ruleName_of_lexeme? hl).1
    · exact isNameChar_of_isName (fun _ => isNameChar_of_isCapital) (tokenName_of_lexeme? hl)
  exact verbatim_of_no_space h fun c hc => isSpace_eq_false_of_isNameChar (hn c hc)

/-- A literal is verbatim exactly if masking blanks no block inside of it. -/
theorem verbatim_literal_iff (h : t ∈ (readTokens (maskChars cs)).tokens)
    (hk : t.kind = .literal) : Verbatim cs t ↔ ¬BlanksIn cs t := by
  obtain ⟨body, -, htext⟩ := exists_body_of_mem_tokens h hk
  refine ⟨fun hv hb => not_verbatim_of_blanksIn h hb hv, fun hb => ?_⟩
  by_contra hv
  refine hb (blanksIn_of_not_verbatim h ?_ ?_ hv)
  · rw [htext]
    rintro d ⟨⟩
    rfl
  · rw [htext, ← List.cons_append, List.getLast?_concat]
    rintro d ⟨⟩
    rfl

end GrammarDoc.Source
