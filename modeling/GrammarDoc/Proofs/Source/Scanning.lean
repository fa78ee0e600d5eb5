import GrammarDoc.Proofs.Source.Following

namespace GrammarDoc.Source

variable {cs ms rest after stretch pre post post' last : List Char} {c : Char} {lexeme : Lexeme}
variable {ls ls' : List Lexeme} {ws vs : List Word}

/-- The word of a lexeme; white space and comments have none. -/
def Lexeme.word? (lexeme : Lexeme) : Option Word :=
  lexeme.kind?.map fun kind => (kind, String.ofList lexeme.text)

section Spelling

theorem spells_of_lexeme? (h : lexeme? cs = some (lexeme, after)) (hs : Spells after ws rest) :
    Spells cs (lexeme.word?.toList ++ ws) rest := by
  obtain ⟨kind?, text⟩ := lexeme
  cases kind? with
  | none => exact .blank h hs
  | some k => exact .word h hs

/-- A text that spells some words starts with a lexeme, or it is at its end. -/
theorem lexeme?_of_spells (h : Spells cs ws []) :
    (cs = [] ∧ ws = []) ∨ ∃ lexeme after vs, lexeme? cs = some (lexeme, after) ∧
      Spells after vs [] ∧ ws = lexeme.word?.toList ++ vs := by
  cases h with
  | done => exact .inl ⟨rfl, rfl⟩
  | blank hl hs => exact .inr ⟨_, _, _, hl, hs, rfl⟩
  | word hl hs => exact .inr ⟨_, _, _, hl, hs, rfl⟩

/-- A text that is read to its end spells the words of its lexemes, and no other ones. -/
theorem spells_iff_lexemes :
    Spells cs ws [] ↔ (lexemes cs).2 = [] ∧ (lexemes cs).1.filterMap Lexeme.word? = ws := by
  fun_induction lexemes cs generalizing ws with
  | case1 cs h =>
    constructor
    · intro hs
      rcases lexeme?_of_spells hs with ⟨rfl, rfl⟩ | ⟨_, _, _, hl, -⟩
      · exact ⟨rfl, rfl⟩
      · cases h.symm.trans hl
    · rintro ⟨rfl, rfl⟩
      exact .done
  | case2 cs lexeme after h _ ih =>
    have hcons : (lexeme :: (lexemes after).1).filterMap Lexeme.word? =
        lexeme.word?.toList ++ (lexemes after).1.filterMap Lexeme.word? := by
      rw [List.filterMap_cons]
      cases lexeme.word? <;> rfl
    rw [hcons]
    constructor
    · intro hs
      rcases lexeme?_of_spells hs with ⟨rfl, -⟩ | ⟨_, _, vs, hl, hv, rfl⟩
      · cases h
      · cases h.symm.trans hl
        obtain ⟨hend, hwords⟩ := ih.mp hv
        exact ⟨hend, by rw [hwords]⟩
    · rintro ⟨hend, rfl⟩
      exact spells_of_lexeme? h (ih.mpr ⟨hend, rfl⟩)

theorem lexeme?_of_isSpace (hc : isSpace c) (cs : List Char) :
    lexeme? (c :: cs) = some (⟨none, c :: cs.takeWhile isSpace⟩, cs.dropWhile isSpace) := by
  simp [lexeme?, extent?, hc, runExtent]

theorem spells_cons_of_isSpace (hc : isSpace c) :
    Spells (c :: cs) ws [] ↔ Spells (cs.dropWhile isSpace) ws [] := by
  have hl := lexeme?_of_isSpace hc cs
  constructor
  · intro hs
    rcases lexeme?_of_spells hs with ⟨hn, -⟩ | ⟨_, _, vs, hl', hv, rfl⟩
    · cases hn
    · cases hl.symm.trans hl'
      exact hv
  · exact .blank hl

/-- White space in front of a text makes no difference to its words. -/
theorem spells_space_append (h : ∀ c ∈ ms, isSpace c) :
    Spells (ms ++ cs) ws [] ↔ Spells cs ws [] := by
  have hdrop : ∀ cs : List Char, Spells (cs.dropWhile isSpace) ws [] ↔ Spells cs ws [] := by
    intro cs
    cases cs with
    | nil => rfl
    | cons d ds =>
      cases hd : isSpace d with
      | true => rw [List.dropWhile_cons_of_pos hd, spells_cons_of_isSpace hd]
      | false => rw [List.dropWhile_cons_of_neg (by simp [hd])]
  cases ms with
  | nil => rfl
  | cons c ms =>
    rw [List.cons_append, spells_cons_of_isSpace (h c List.mem_cons_self),
      List.dropWhile_append_of_pos fun d hd => h d (List.mem_cons_of_mem _ hd), hdrop]

end Spelling

section Openers

/-- A brace stands after nothing but blank characters. -/
def opensBlock (cs : List Char) : Bool :=
  (cs.dropWhile Text.isBlank).head? = some '\x7b'

theorem opensBlock_cons_blank (hc : Text.isBlank c) : opensBlock (c :: cs) = opensBlock cs := by
  rw [opensBlock, List.dropWhile_cons_of_pos hc, opensBlock]

theorem opensBlock_cons (hc : Text.isBlank c = false) :
    opensBlock (c :: cs) = decide (c = '\x7b') := by
  rw [opensBlock, List.dropWhile_cons_of_neg (by simp [hc])]
  simp

theorem opensBlock_append_blank (h : ∀ c ∈ ms, Text.isBlank c) :
    opensBlock (ms ++ cs) = opensBlock cs := by
  rw [opensBlock, List.dropWhile_append_of_pos h, opensBlock]

/-- Beyond the first character that is not blank nothing matters. -/
theorem opensBlock_append_congr (h : ¬∀ c ∈ ms, Text.isBlank c) :
    opensBlock (ms ++ cs) = opensBlock (ms ++ rest) := by
  induction ms with
  | nil => exact absurd (fun c hc => nomatch hc) h
  | cons c ms ih =>
    rw [List.cons_append, List.cons_append]
    cases hc : Text.isBlank c with
    | true =>
      rw [opensBlock_cons_blank hc, opensBlock_cons_blank hc]
      refine ih fun hm => h fun d hd => ?_
      rcases List.mem_cons.mp hd with rfl | hd
      · exact hc
      · exact hm d hd
    | false => rw [opensBlock_cons hc, opensBlock_cons hc]

theorem opensBlock_maskChars (cs : List Char) : opensBlock (maskChars cs) = opensBlock cs := by
  induction cs with
  | nil => rw [maskChars_nil]
  | cons c cs ih =>
    cases hc : Text.isBlank c with
    | true =>
      rw [maskChars_cons (not_mark (by decide) hc), opensBlock_cons_blank hc,
        opensBlock_cons_blank hc, ih]
    | false =>
      obtain ⟨ds, hds⟩ := List.head?_eq_some_iff.mp (head?_maskChars (c :: cs))
      rw [hds, opensBlock_cons hc, opensBlock_cons hc]

theorem wordKind_congr {word : String}
    (h : opensBlock ms = opensBlock after ∨ blockOpeners.lookup word = none) :
    wordKind word ms = wordKind word after := by
  have hk : ∀ cs, wordKind word cs = (if opensBlock cs then blockOpeners.lookup word else none).getD
      ((keywords.lookup word).getD .ruleName) := by
    intro cs
    simp [wordKind, opensBlock]
  rw [hk, hk]
  rcases h with h | h
  · rw [h]
  · simp [h]

/-- A word that opens a block has the kind that says so. -/
theorem kind?_of_opener {k : TokenKind} (h : lexeme? cs = some (lexeme, after))
    (hw : blockOpeners.lookup (String.ofList lexeme.text) = some k) (ho : opensBlock after) :
    lexeme.kind? = some k := by
  cases cs with
  | nil => cases h
  | cons c rest =>
    obtain ⟨e, he, rfl, rfl⟩ := exists_extent h
    have hc : isSmall c := by
      obtain ⟨_, _, hl, -⟩ := List.lookup_eq_some_iff.mp hw
      have hm : (String.ofList (c :: e.tail), k) ∈ blockOpeners := by
        rw [hl]
        simp
      simp only [blockOpeners, List.mem_cons, Prod.mk.injEq, List.not_mem_nil, or_false] at hm
      have hhead : ∀ word : String, String.ofList (c :: e.tail) = word →
          word.toList.head? = some c := by
        rintro word rfl
        rw [String.toList_ofList]
        rfl
      rcases hm with ⟨hm, -⟩ | ⟨hm, -⟩ | ⟨hm, -⟩ <;> cases hhead _ hm <;> decide
    have hword : extent? c rest = some (wordExtent c rest) := by
      simp [extent?, isSpace_eq_false_of_isNameChar (isNameChar_of_isSmall hc), hc]
    cases he.symm.trans hword
    simp only [opensBlock, decide_eq_true_eq] at ho
    simp only [wordExtent] at hw ho ⊢
    simp only [wordKind, if_pos ho, hw, Option.getD_some]

theorem mark?_of_blank (hc : Text.isBlank c) : mark? c = none := by
  unfold mark?
  split <;> first | rfl | exact absurd hc (by decide)

theorem longMark?_of_blank {d : Char} (hc : Text.isBlank c) : longMark? c d = none := by
  unfold longMark?
  split <;> first | rfl | exact absurd hc (by decide)

/-- White space as a lexeme. -/
def Lexeme.isWhite (lexeme : Lexeme) : Prop :=
  ∀ c ∈ lexeme.text, isSpace c

/-- No lexeme but white space starts with a blank character. -/
theorem isWhite_of_blank (h : lexeme? (c :: rest) = some (lexeme, after))
    (hc : Text.isBlank c) : lexeme.isWhite := by
  obtain ⟨c', rest', e, hcs, he, rfl, rfl⟩ := extends_of_lexeme? h
  obtain ⟨rfl, rfl⟩ := List.cons.inj hcs
  have hname : isNameChar c → Lexeme.isWhite ⟨e.kind?, c :: e.tail⟩ := by
    intro hn
    rw [isBlank_of_isNameChar hn] at hc
    cases hc
  cases he with
  | space hs =>
    intro d hd
    rcases List.mem_cons.mp hd with rfl | hd
    · exact hs
    · exact List.mem_takeWhile_imp hd
  | word hs => exact hname (isNameChar_of_isSmall hs)
  | tokenName hs => exact hname (isNameChar_of_isCapital hs)
  | integer hs => exact hname (by simp [isNameChar, show Text.isAsciiDigit c = true from hs])
  | mark hm =>
    unfold markExtent? at hm
    split at hm
    · simp [mark?_of_blank hc] at hm
    · simp [mark?_of_blank hc, longMark?_of_blank hc] at hm
  | _ => exact absurd hc (by decide)

theorem kind?_of_isWhite (hl : lexeme? cs = some (lexeme, after)) (hw : lexeme.isWhite) :
    lexeme.kind? = none := by
  cases cs with
  | nil => cases hl
  | cons c rest =>
    obtain ⟨e, he, rfl, -⟩ := exists_extent hl
    have hc : isSpace c := hw c List.mem_cons_self
    have hspace : extent? c rest = some (runExtent none isSpace rest) := by
      simp [extent?, hc]
    cases he.symm.trans hspace
    rfl

theorem kind?_of_opensBlock (h : lexeme? (c :: rest) = some (lexeme, after))
    (ho : opensBlock (c :: rest)) (hc : Text.isBlank c = false) :
    lexeme.kind? = some .braceBlock := by
  rw [opensBlock_cons hc, decide_eq_true_eq] at ho
  subst ho
  obtain ⟨e, he, rfl, -⟩ := exists_extent h
  obtain ⟨p, -, rfl⟩ := Option.map_eq_some_iff.mp he
  rfl

/-- The first word of a text that opens a block is the block. -/
theorem braceBlock_of_opensBlock (h : Spells cs ws []) (ho : opensBlock cs) :
    ∃ text vs, ws = (.braceBlock, text) :: vs := by
  generalize hr : ([] : List Char) = rest at h
  induction h with
  | done =>
    subst hr
    cases ho
  | @blank cs text after _ _ hl _ ih =>
    obtain ⟨c, cs, rfl⟩ := List.exists_cons_of_ne_nil fun hn : cs = [] => by
      subst hn
      cases hl
    cases hc : Text.isBlank c with
    | false => cases kind?_of_opensBlock hl ho hc
    | true =>
      have hwhite := isWhite_of_blank hl hc
      rw [← lexeme?_append hl,
        opensBlock_append_blank fun d hd => isBlank_of_isSpace (hwhite d hd)] at ho
      exact ih ho hr
  | @word cs text after _ ws k hl _ _ =>
    obtain ⟨c, cs, rfl⟩ := List.exists_cons_of_ne_nil fun hn : cs = [] => by
      subst hn
      cases hl
    cases hc : Text.isBlank c with
    | false =>
      cases kind?_of_opensBlock hl ho hc
      exact ⟨_, _, rfl⟩
    | true => cases kind?_of_isWhite hl (isWhite_of_blank hl hc)

end Openers

section Scanning

/-- Reading the masked form of a text passes some lexemes and gets to the rest of the text. -/
inductive Scans : List Char → List Lexeme → List Char → Prop
  | done {cs : List Char} : Scans cs [] cs
  | step {cs stretch rest last : List Char} {lexeme : Lexeme} {ls : List Lexeme} :
      Covers cs lexeme stretch rest → lexeme? (maskChars cs) = some (lexeme, maskChars rest) →
      Scans rest ls last → Scans cs (lexeme :: ls) last

theorem Scans.exists_pre (h : Scans cs ls last) :
    ∃ pre, cs = pre ++ last ∧ pre.length = (ls.flatMap Lexeme.text).length := by
  induction h with
  | done => exact ⟨[], rfl, rfl⟩
  | @step _ stretch _ _ _ _ hcover _ _ ih =>
    obtain ⟨pre, rfl, hl⟩ := ih
    refine ⟨stretch ++ pre, by rw [hcover.text, List.append_assoc], ?_⟩
    rw [List.length_append, List.flatMap_cons, List.length_append, hcover.length, hl]

/-- The lexemes of a masked text are passed one after the other. -/
theorem exists_scans (hangle : '<' ∉ cs) (hclosed : Closed cs)
    (h : (lexemes (maskChars cs)).1 = ls ++ ls') :
    ∃ last, Scans cs ls last ∧ lexemes (maskChars last) = (ls', (lexemes (maskChars cs)).2) := by
  induction ls generalizing cs with
  | nil => exact ⟨cs, .done, by rw [← List.nil_append ls', ← h]⟩
  | cons lexeme ls ih =>
    rw [lexemes] at h
    split at h
    next => cases h
    next lexeme' after hl =>
      obtain ⟨rfl, hls⟩ := List.cons.inj h
      obtain ⟨stretch, rest, hcover, rfl⟩ := exists_covers hangle hclosed hl
      obtain ⟨last, hscan, hlast⟩ := ih hcover.plain hcover.closed hls
      refine ⟨last, .step hcover hl hscan, ?_⟩
      have hrest : (lexemes (maskChars cs)).2 = (lexemes (maskChars rest)).2 := by
        conv_lhs => rw [lexemes]
        split
        next hn => cases hn.symm.trans hl
        next hs =>
          cases hs.symm.trans hl
          rfl
      rw [hrest]
      exact hlast

/-- Only white space is passed over blank characters. -/
theorem Scans.kind?_of_blank (h : Scans (pre ++ last) ls last)
    (hb : ∀ c ∈ pre, Text.isBlank c) : ∀ lexeme ∈ ls, lexeme.kind? = none := by
  generalize hcs : pre ++ last = cs at h
  induction h generalizing pre with
  | done => simp
  | @step cs stretch rest last lexeme ls hcover hl hscan ih =>
    obtain ⟨pre', rfl, -⟩ := hscan.exists_pre
    have hpre : pre = stretch ++ pre' := by
      have htext := hcs.trans hcover.text
      rw [← List.append_assoc] at htext
      exact List.append_cancel_right htext
    rw [hpre] at hb
    have hrest := ih (fun c hc => hb c (List.mem_append_right _ hc)) rfl
    obtain ⟨c, ds, hds⟩ : ∃ c ds, stretch = c :: ds := by
      refine List.exists_cons_of_ne_nil fun hn => lexeme?_ne_nil hl ?_
      have hlen := hcover.length
      rw [hn] at hlen
      exact List.length_eq_zero_iff.mp hlen.symm
    have hc : Text.isBlank c := hb c (by rw [hds]; exact List.mem_cons_self)
    obtain ⟨ms, hms⟩ : ∃ ms, maskChars cs = c :: ms := by
      refine List.head?_eq_some_iff.mp ?_
      rw [head?_maskChars, hcover.text, hds]
      rfl
    rw [hms] at hl
    intro l hm
    rcases List.mem_cons.mp hm with rfl | hm
    · exact kind?_of_isWhite hl (isWhite_of_blank hl hc)
    · exact hrest l hm

theorem Covers.eq_of_isWhite (h : Covers cs lexeme stretch rest) (hw : lexeme.isWhite) :
    stretch = lexeme.text := by
  rcases h.spelled with hs | ⟨c, -, hc, hm⟩
  · exact hs
  · exact absurd hc (not_mark (by decide) (hw c hm))

/-- The last token of a row of lexemes does not open a block. -/
def NoOpener (ls : List Lexeme) : Prop :=
  ∀ kind, (ls.filterMap Lexeme.kind?).getLast? = some kind →
    kind ∉ [.options, .tokens, .channels]

theorem NoOpener.of_cons (h : NoOpener (lexeme :: ls)) : NoOpener ls := by
  intro kind hk
  refine h kind ?_
  rw [List.filterMap_cons]
  cases lexeme.kind? with
  | none => exact hk
  | some k => rw [List.getLast?_cons, hk]; rfl

theorem mem_openers {word : String} {k : TokenKind} (h : blockOpeners.lookup word = some k) :
    k ∈ [.options, .tokens, .channels] := by
  simpa [blockOpeners] using mem_of_lookup h

/-- Whether a word opens a block is not changed by a text that opens one like the former text, nor
by one that opens none if the word did not either. -/
theorem wordKind_of_scans (hl : lexeme? (maskChars cs) = some (lexeme, maskChars (pre ++ post)))
    (hscan : Scans (pre ++ post) ls post)
    (ho : opensBlock post' = opensBlock post ∨
      opensBlock post' = false ∧ NoOpener (lexeme :: ls)) :
    wordKind (String.ofList lexeme.text) (maskChars (pre ++ post')) =
      wordKind (String.ofList lexeme.text) (maskChars (pre ++ post)) := by
  apply wordKind_congr
  rw [opensBlock_maskChars, opensBlock_maskChars]
  by_cases hb : ∀ c ∈ pre, Text.isBlank c
  · rw [opensBlock_append_blank hb, opensBlock_append_blank hb]
    rcases ho with ho | ⟨ho, hn⟩
    · exact .inl ho
    · by_cases hpost : opensBlock post = false
      · exact .inl (ho.trans hpost.symm)
      · -- The word stands right before a brace, so it is the last token.
        right
        by_contra hw
        obtain ⟨k, hk⟩ := Option.ne_none_iff_exists'.mp hw
        have hopens : opensBlock (maskChars (pre ++ post)) := by
          rw [opensBlock_maskChars, opensBlock_append_blank hb]
          simpa using hpost
        have hkind := kind?_of_opener hl hk hopens
        have hnone : ls.filterMap Lexeme.kind? = [] :=
          List.filterMap_eq_nil_iff.mpr (hscan.kind?_of_blank hb)
        refine hn k ?_ (mem_openers hk)
        rw [List.filterMap_cons_some hkind, hnone]
        rfl
  · exact .inl (opensBlock_append_congr hb)

theorem Scans.pre_ne_nil (h : Scans (pre ++ last) (lexeme :: ls) last) : pre ≠ [] := by
  rintro rfl
  generalize hcs : [] ++ last = cs at h
  cases h with
  | step hcover hl hscan =>
    have hne := List.length_pos_iff.mpr (lexeme?_ne_nil hl)
    obtain ⟨pre', rfl, -⟩ := hscan.exists_pre
    have htext := congrArg List.length (hcs.trans hcover.text)
    have hlen := hcover.length
    simp only [List.nil_append, List.length_append] at htext hne
    omega

theorem Lexeme.Precedes.maskChars (h : lexeme.Precedes after ms) :
    lexeme.Precedes (maskChars after) (maskChars ms) := by
  rwa [Lexeme.Precedes, head?_maskChars, head?_maskChars]

/-- White space leaves the words of what comes after it alone. -/
theorem spells_white_append (h : ∀ c ∈ ms, isSpace c) :
    Spells (maskChars (ms ++ cs)) ws [] ↔ Spells (maskChars cs) ws [] := by
  rw [untouched_of_forall (fun c hc => not_mark (by decide) (h c hc)) cs]
  exact spells_space_append h

/-- The rest of a text is exchanged. The words before it are read as they were if the last lexeme
before it is white space or precedes the new rest, and if no word comes to open a block or ceases
to. -/
theorem spells_of_scans (h : Scans (pre ++ post) ls post)
    (hlast : ∀ lexeme, ls.getLast? = some lexeme → lexeme.isWhite ∨ lexeme.Precedes post post')
    (ho : opensBlock post' = opensBlock post ∨ opensBlock post' = false ∧ NoOpener ls)
    (hs : Spells (maskChars post') ws []) :
    Spells (maskChars (pre ++ post')) (ls.filterMap Lexeme.word? ++ ws) [] := by
  generalize hcs : pre ++ post = cs at h
  induction h generalizing pre with
  | done =>
    have hpre : pre = [] := by simpa using hcs
    rw [hpre]
    exact hs
  | @step cs stretch rest post lexeme ls hcover hl hscan ih =>
    obtain ⟨pre', rfl, -⟩ := hscan.exists_pre
    have hpre : pre = stretch ++ pre' := by
      have htext := hcs.trans hcover.text
      rw [← List.append_assoc] at htext
      exact List.append_cancel_right htext
    have hwords : (lexeme :: ls).filterMap Lexeme.word? =
        lexeme.word?.toList ++ ls.filterMap Lexeme.word? := by
      rw [List.filterMap_cons]
      cases lexeme.word? <;> rfl
    have hlast' : ∀ l, ls.getLast? = some l → l.isWhite ∨ l.Precedes post post' := by
      intro l hm
      exact hlast l (by rw [List.getLast?_cons, hm]; rfl)
    have ih := ih hlast' (ho.imp_right fun hn => ⟨hn.1, hn.2.of_cons⟩) rfl
    rw [hpre, hwords, List.append_assoc, List.append_assoc]
    by_cases hp : lexeme.Precedes (pre' ++ post) (pre' ++ post')
    · have hmasked := hcover.masked (pre' ++ post') (hp.imp_right And.left)
      have hkind := wordKind_of_scans hl hscan ho
      rw [hmasked]
      exact spells_of_lexeme? (lexeme?_append_right hl hp.maskChars hkind) ih
    · -- What comes next starts otherwise, so this is the last lexeme.
      have hnil : pre' = [] := by
        cases pre' with
        | nil => rfl
        | cons c ds => exact absurd (.inl rfl) hp
      subst hnil
      cases ls with
      | cons => exact absurd rfl hscan.pre_ne_nil
      | nil =>
        have hwhite := (hlast lexeme rfl).resolve_right hp
        rw [Lexeme.word?, kind?_of_isWhite hl hwhite, hcover.eq_of_isWhite hwhite]
        exact (spells_white_append hwhite).mpr ih

end Scanning

end GrammarDoc.Source
