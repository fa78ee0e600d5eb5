import GrammarDoc.Proofs.Source.Passing
import GrammarDoc.Proofs.Source.Stretches

namespace GrammarDoc.Source

/-- The comments, literals and blocks that are read in a text after masking. -/
def regionsRead (cs : List Char) : List (Stretch Region) :=
  (lexed cs).filterMap (Stretch.map? Lexeme.region?)

/-- The comments, literals and blocks that masking takes whole. -/
def regionsMasked (cs : List Char) : List (Stretch Region) :=
  (Stretch.row Piece.text 0 (pieces cs)).filterMap (Stretch.map? Piece.region?)

def Piece.isClosed : Piece → Bool
  | .unclosed _ => false
  | _ => true

/-- Masking finds the end of every brace block. -/
def Closed (cs : List Char) : Prop :=
  ∀ piece ∈ pieces cs, piece.isClosed

variable {cs rest after : List Char} {lexeme : Lexeme} {ps : List Piece}

theorem head?_of_angleBlock (h : lexeme? cs = some (lexeme, after))
    (hk : lexeme.kind? = some .angleBlock) : cs.head? = some '<' := by
  obtain ⟨c, rest, e, rfl, he, rfl, rfl⟩ := extends_of_lexeme? h
  cases he with
  | angleBlock => rfl
  | word => exact absurd (wordExtent_kind hk.symm).2 (by decide)
  | mark hm => exact absurd (mark_kind hm hk.symm) (by decide)
  | comment hc => cases hk.symm.trans (commentExtent?_kind hc)
  | atName ha => cases hk.symm.trans (atNameExtent?_kind ha)
  | _ => cases hk

theorem Closed.of_append (h : Closed cs) (hp : pieces cs = ps ++ pieces rest) : Closed rest := by
  intro piece hm
  exact h piece (hp ▸ List.mem_append_right ps hm)

/-- One lexeme goes over some pieces and finds the same regions as they are. -/
theorem exists_pieces_of_lexeme? (hangle : '<' ∉ cs) (hclosed : Closed cs)
    (h : lexeme? (maskChars cs) = some (lexeme, after)) :
    ∃ ps rest, pieces cs = ps ++ pieces rest ∧ maskChars rest = after ∧
      lexeme.text.length = (ps.flatMap Piece.text).length ∧
      ∀ offset, (Stretch.row Piece.text offset ps).filterMap (Stretch.map? Piece.region?) =
        (Stretch.row Lexeme.text offset [lexeme]).filterMap (Stretch.map? Lexeme.region?) := by
  cases meets_of_lexeme? h with
  | @piece piece rest hp ht hr ha =>
    have hl : lexeme.text.length = piece.text.length := by
      rw [← ht, (masks_piece piece).length_eq]
    refine ⟨[piece], rest, hp, ha, by simpa using hl, fun offset => ?_⟩
    simp only [Stretch.row, List.filterMap_cons, Stretch.map?, hr, hl, List.filterMap_nil]
  | plain ht hr =>
    obtain ⟨rest, hp, ha⟩ := pieces_plain (lexeme?_append h) ht
    have hnone : ∀ piece ∈ lexeme.text.map Piece.char, piece.region? = none := by
      intro piece hm
      obtain ⟨c, -, rfl⟩ := List.mem_map.mp hm
      rfl
    have htext : (lexeme.text.map Piece.char).flatMap Piece.text = lexeme.text := by
      rw [List.flatMap_map]
      exact List.flatMap_singleton' _
    refine ⟨_, rest, hp, ha, by rw [htext], fun offset => ?_⟩
    rw [Stretch.filterMap_row_of_none hnone,
      Stretch.filterMap_row_of_none (List.forall_mem_singleton.mpr hr)]
  | angle hk =>
    have hh := head?_of_angleBlock h hk
    rw [head?_maskChars] at hh
    exact absurd (List.mem_of_head? hh) hangle
  | unclosed hp => cases hclosed (.unclosed cs) (hp ▸ List.mem_singleton_self _)

theorem regions_agree_from (hangle : '<' ∉ cs) (hclosed : Closed cs)
    (hread : (lexemes (maskChars cs)).2 = []) (offset : Nat) :
    (Stretch.row Lexeme.text offset (lexemes (maskChars cs)).1).filterMap
        (Stretch.map? Lexeme.region?) =
      (Stretch.row Piece.text offset (pieces cs)).filterMap (Stretch.map? Piece.region?) := by
  -- Both scanners stand at the start of a piece whenever a lexeme starts.
  generalize hms : maskChars cs = ms at hread ⊢
  fun_induction lexemes ms generalizing cs offset with
  | case1 ms =>
    have hn : cs = [] := by
      have hh := head?_maskChars cs
      rw [hms, show ms = [] from hread] at hh
      exact List.head?_eq_none_iff.mp hh.symm
    rw [hn, pieces_nil]
    rfl
  | case2 ms lexeme after h _ ih =>
    rw [← hms] at h
    obtain ⟨ps, rest, hp, ha, hl, hregions⟩ := exists_pieces_of_lexeme? hangle hclosed h
    have hangle' : '<' ∉ rest := by
      rw [text_of_pieces hp] at hangle
      exact fun hm => hangle (List.mem_append_right _ hm)
    have ih := ih hangle' (hclosed.of_append hp) (offset + lexeme.text.length) ha hread
    have hcons := Stretch.row_append Lexeme.text offset [lexeme] (lexemes after).1
    rw [List.flatMap_singleton, List.singleton_append] at hcons
    rw [hp, Stretch.row_append, hcons, List.filterMap_append, List.filterMap_append, hregions,
      ← hl, ih]

theorem region?_eq_iff {kind kind' : TokenKind} {region : Region}
    (h : kind.region? = some region) : kind'.region? = some region ↔ kind' = kind := by
  constructor
  · cases kind <;> cases h <;> cases kind' <;> first | exact fun _ => rfl | exact nofun
  · rintro rfl
    exact h

theorem commentRegion?_ne {kind : TokenKind} {region : Region} (h : kind.region? = some region)
    (text : List Char) : commentRegion? text ≠ some region := by
  cases kind <;> cases h <;> unfold commentRegion? <;> split <;> exact nofun

/-- The tokens of a kind that is a region stand where such regions are read. -/
theorem spans_of_kind {kind : TokenKind} {region : Region} (h : kind.region? = some region)
    (cs : List Char) :
    ((readTokens (maskChars cs)).tokens.filter (·.kind = kind)).map Token.span =
      ((regionsRead cs).filter (·.part = region)).map (Stretch.spanIn cs) := by
  rw [tokens_eq_lexed, regionsRead, List.filter_filterMap, List.map_filterMap,
    List.filter_filterMap, List.map_filterMap]
  congr 1
  funext s
  obtain ⟨⟨kind?, text⟩, first, last⟩ := s
  cases kind? with
  | none =>
    cases hc : commentRegion? text with
    | none => simp [tokenIn, Stretch.map?, Lexeme.region?, hc]
    | some other =>
      have hne : other ≠ region := fun he => commentRegion?_ne h text (he ▸ hc)
      simp [tokenIn, Stretch.map?, Lexeme.region?, hc, Option.filter, hne]
  | some kind' =>
    have hiff : kind'.region? = some region ↔ kind' = kind := region?_eq_iff h
    by_cases hk : kind' = kind
    · subst hk
      simp [tokenIn, Stretch.map?, Lexeme.region?, h, Option.filter, Stretch.spanIn]
    · cases hr : kind'.region? with
      | none => simp [tokenIn, Stretch.map?, Lexeme.region?, hr, Option.filter, hk]
      | some other =>
        have hne : other ≠ region := fun he => hk (hiff.mp (he ▸ hr))
        simp [tokenIn, Stretch.map?, Lexeme.region?, hr, Option.filter, hk, hne]

/-- In a text without angle brackets whose blocks are closed, reading and masking find the same
comments, literals and blocks at the same offsets if the masked text can be read to its end, and
the tokens among them stand there. -/
theorem masker_lexer_agree (text : String) (hangle : '<' ∉ text.toList)
    (hclosed : Closed text.toList)
    (hread : (readTokens (maskChars text.toList)).stop? = none) :
    regionsRead text.toList = regionsMasked text.toList ∧
      ∀ kind region, TokenKind.region? kind = some region →
        ((readTokens (maskChars text.toList)).tokens.filter (·.kind = kind)).map Token.span =
          ((regionsMasked text.toList).filter (·.part = region)).map
            (Stretch.spanIn text.toList) := by
  have hend : (lexemes (maskChars text.toList)).2 = [] := by
    by_contra hn
    rw [stop?_eq_readTo, if_neg hn] at hread
    cases hread
  have hregions : regionsRead text.toList = regionsMasked text.toList :=
    regions_agree_from hangle hclosed hend 0
  refine ⟨hregions, fun kind region hk => ?_⟩
  rw [spans_of_kind hk, hregions]

theorem masker_lexer_agree_nested :
    let text := "grammar G; // '\na : '\x7b' b[x] \x7bf(\"\x7d\");\x7d /* ; */ c ;"
    regionsMasked text.toList = [⟨.lineComment, 11, 15⟩, ⟨.literal, 20, 23⟩,
        ⟨.bracketBlock, 25, 28⟩, ⟨.braceBlock, 29, 38⟩, ⟨.blockComment, 39, 46⟩] ∧
      regionsRead text.toList = regionsMasked text.toList := by
  intro text
  have hangle : '<' ∉ text.toList := by decide +kernel
  have hclosed : ∀ piece ∈ pieces text.toList, piece.isClosed := by decide +kernel
  have hread : (readTokens (maskChars text.toList)).stop? = none := by decide +kernel
  exact ⟨by decide +kernel, (masker_lexer_agree text hangle hclosed hread).1⟩

end GrammarDoc.Source
