import GrammarDoc.Proofs.Source.Scanning

namespace GrammarDoc.Source

variable {cs after : List Char} {lexeme : Lexeme} {ls : List Lexeme} {p : List Char × List Char}

theorem getLast?_flatRest? {opening closing : Char} (h : flatRest? opening closing cs = some p) :
    p.1.getLast? = some closing := by
  induction cs generalizing p with
  | nil => cases h
  | cons c rest ih =>
    rw [flatRest?] at h
    split at h
    next hc =>
      cases h
      exact congrArg some hc
    next =>
      split at h
      · cases h
      · obtain ⟨q, hq, rfl⟩ := Option.map_eq_some_iff.mp h
        rw [List.getLast?_cons, ih hq]
        rfl

theorem getLast?_bracketBlockRest? (h : bracketBlockRest? cs = some p) :
    p.1.getLast? = some ']' := by
  fun_induction bracketBlockRest? cs generalizing p with
  | case1 => cases h
  | case2 => cases h
  | case3 c rest hc ih =>
    obtain ⟨q, hq, rfl⟩ := Option.map_eq_some_iff.mp h
    rw [List.getLast?_cons, List.getLast?_cons, ih hq]
    rfl
  | case4 rest =>
    cases h
    rfl
  | case5 => cases h
  | case6 c rest hn hc hb ih =>
    obtain ⟨q, hq, rfl⟩ := Option.map_eq_some_iff.mp h
    rw [List.getLast?_cons, ih hq]
    rfl

theorem getLast?_throughCommentEnd? (h : throughCommentEnd? cs = some p) :
    p.1.getLast? = some '/' := by
  fun_induction throughCommentEnd? cs generalizing p with
  | case1 => cases h
  | case2 rest =>
    cases h
    rfl
  | case3 c rest _ ih =>
    obtain ⟨q, hq, rfl⟩ := Option.map_eq_some_iff.mp h
    rw [List.getLast?_cons, ih hq]
    rfl

theorem getLast?_markExtent? {c : Char} {e : Extent} (h : markExtent? c cs = some e) :
    (c :: e.tail).getLast? ≠ some '\n' := by
  have hmark : ∀ k, mark? c = some k → [c].getLast? ≠ some '\n' := by
    rintro k hk ⟨⟩
    cases hk
  unfold markExtent? at h
  split at h
  · obtain ⟨k, hk, rfl⟩ := Option.map_eq_some_iff.mp h
    exact hmark k hk
  next d ds =>
    split at h
    next k hk =>
      cases h
      rintro ⟨⟩
      cases (longMark?_of_separates (.inl (by decide))).symm.trans hk
    next =>
      obtain ⟨k, hk, rfl⟩ := Option.map_eq_some_iff.mp h
      exact hmark k hk

/-- No lexeme but white space ends in a line feed. -/
theorem isWhite_of_getLast? (h : lexeme? cs = some (lexeme, after))
    (hl : lexeme.text.getLast? = some '\n') : lexeme.isWhite := by
  obtain ⟨c, rest, e, rfl, he, rfl, rfl⟩ := extends_of_lexeme? h
  have hclosed : ∀ d, e.tail.getLast? = some d → d = '\n' := by
    intro d hd
    rw [List.getLast?_cons, hd] at hl
    exact Option.some.inj hl
  have hrun : ∀ q : Char → Bool, q '\n' = false → (∀ d ∈ c :: e.tail, q d) → False := by
    intro q hq ht
    rw [ht '\n' (List.mem_of_getLast? hl)] at hq
    cases hq
  have hname : isNameChar c → (∀ d ∈ e.tail, isNameChar d) → False := fun hc ht =>
    hrun isNameChar (by decide) (by simpa using ⟨hc, ht⟩)
  cases he with
  | space hc =>
    intro d hd
    rcases List.mem_cons.mp hd with rfl | hd
    · exact hc
    · exact List.mem_takeWhile_imp hd
  | word hc => exact (hname (isNameChar_of_isSmall hc) fun _ => List.mem_takeWhile_imp).elim
  | tokenName hc => exact (hname (isNameChar_of_isCapital hc) fun _ => List.mem_takeWhile_imp).elim
  | integer hc =>
    have hd : isNameChar c := by simp [isNameChar, show Text.isAsciiDigit c = true from hc]
    refine (hname hd fun d hd => ?_).elim
    have hd : Text.isAsciiDigit d := List.mem_takeWhile_imp hd
    simp [isNameChar, hd]
  | comment he =>
    unfold commentExtent? at he
    split at he
    · cases he
      refine (hrun (· ≠ '\n') (by decide) ?_).elim
      intro d hd
      simp only [List.mem_cons] at hd
      rcases hd with rfl | rfl | hd
      · decide
      · decide
      · have ht : ∀ cs : List Char, ∀ d ∈ (lineRest cs).1, decide (d ≠ '\n') :=
          fun _ _ => List.mem_takeWhile_imp
        exact ht _ d hd
    · obtain ⟨q, hq, rfl⟩ := Option.map_eq_some_iff.mp he
      cases hclosed '/' (by rw [List.getLast?_cons, getLast?_throughCommentEnd? hq]; rfl)
    · cases he
  | literal hp =>
    obtain ⟨body, -, ht, -⟩ := literalBody_of_literalRest? hp
    cases hclosed '\'' (by simp [closedExtent, ht])
  | bracketBlock hp => cases hclosed _ (getLast?_bracketBlockRest? hp)
  | braceBlock hp => cases hclosed _ (getLast?_flatRest? hp)
  | angleBlock hp => cases hclosed _ (getLast?_flatRest? hp)
  | atName he =>
    unfold atNameExtent? at he
    split at he
    · cases he
    next d ds =>
      split at he
      next hd =>
        cases he
        refine (hrun (fun d => isNameChar d || d == '@') (by decide) ?_).elim
        simp only [List.mem_cons, forall_eq_or_imp]
        refine ⟨by decide, ?_, fun d hd => ?_⟩
        · simp only [Bool.or_eq_true] at hd
          rcases hd with (hd | hd) | hd <;> simp [isNameChar, hd]
        · have hd : isNameChar d := List.mem_takeWhile_imp hd
          simp [hd]
      next => cases he
  | mark he => exact absurd hl (getLast?_markExtent? he)

theorem getLast?_maskChars (h : cs.getLast? = some '\n') :
    (maskChars cs).getLast? = some '\n' := by
  have hmasks := List.forall₂_reverse_iff.mpr (masks_maskChars cs)
  rw [List.getLast?_eq_head?_reverse] at h ⊢
  obtain ⟨us, hus⟩ := List.head?_eq_some_iff.mp h
  generalize (maskChars cs).reverse = ms at hmasks ⊢
  rw [hus] at hmasks
  cases hmasks with
  | cons hm _ =>
    rcases hm with rfl | rfl <;> rfl

/-- The last lexeme of a text that ends in a line feed is white space. -/
theorem Scans.isWhite_last (h : Scans cs ls []) (hend : cs.getLast? = some '\n')
    (hl : ls.getLast? = some lexeme) : lexeme.isWhite := by
  generalize hlast : ([] : List Char) = last at h
  induction h with
  | done => cases hl
  | @step cs stretch rest _ l ls hcover hlexeme hscan ih =>
    cases hscan with
    | done =>
      cases hl
      subst hlast
      have htext : l.text = maskChars cs := by
        rw [← lexeme?_append hlexeme, maskChars_nil, List.append_nil]
      exact isWhite_of_getLast? hlexeme (htext ▸ getLast?_maskChars hend)
    | step hcover' hlexeme' hscan' =>
      have hrest : rest ≠ [] := by
        rintro rfl
        rw [maskChars_nil] at hlexeme'
        cases hlexeme'
      refine ih ?_ (by simpa using hl) hlast
      rwa [hcover.text, List.getLast?_append_of_ne_nil _ hrest] at hend

end GrammarDoc.Source
