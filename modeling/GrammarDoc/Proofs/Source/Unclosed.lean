import GrammarDoc.Proofs.Element.Equality
import GrammarDoc.Proofs.Extraction.Declared
import GrammarDoc.Proofs.Source.Agreement
import GrammarDoc.Proofs.Source.Locality
import GrammarDoc.Proofs.Source.Refusing
import GrammarDoc.Proofs.Source.Synchrony

namespace GrammarDoc

namespace Source

variable {cs rest after before tail u : List Char} {lexeme : Lexeme} {ps qs us vs : List Piece}

/-- No flat block is found exactly if another one opens before the first closing mark. -/
theorem flatRest?_eq_none_iff {opening closing : Char} :
    flatRest? opening closing cs = none ↔
      ∀ body post, cs = body ++ closing :: post → opening ∈ body := by
  induction cs with
  | nil =>
    constructor
    · intro _ body post h
      cases body <;> cases h
    · exact fun _ => rfl
  | cons c rest ih =>
    unfold flatRest?
    by_cases hc : c = closing
    · rw [if_pos hc]
      constructor
      · intro h
        cases h
      · intro h
        have hm := h [] rest (by rw [hc, List.nil_append])
        cases hm
    · rw [if_neg hc]
      by_cases ho : c = opening
      · rw [if_pos ho]
        constructor
        · intro _ body post h
          cases body with
          | nil => exact absurd (List.cons.inj h).1 hc
          | cons d body =>
            rw [← ho, (List.cons.inj h).1]
            exact List.mem_cons_self
        · exact fun _ => rfl
      · rw [if_neg ho, Option.map_eq_none_iff, ih]
        constructor
        · intro h body post happ
          cases body with
          | nil => exact absurd (List.cons.inj happ).1 hc
          | cons d body =>
            exact List.mem_cons_of_mem _ (h body post (List.cons.inj happ).2)
        · intro h body post happ
          have hm := h (c :: body) post (by rw [happ, List.cons_append])
          exact (List.mem_cons.mp hm).resolve_left (Ne.symm ho)

theorem lexeme?_brace_eq_none_iff : lexeme? ('\x7b' :: tail) = none ↔
    ∀ body post, tail = body ++ '\x7d' :: post → '\x7b' ∈ body := by
  rw [← flatRest?_eq_none_iff, lexeme?, Option.map_eq_none_iff]
  exact Option.map_eq_none_iff

/-- A block that is never closed is the last piece. -/
theorem exists_pieces_unclosed (h : Reaches (before ++ '\x7b' :: tail) before)
    (hopen : blockBody? 0 tail = none) :
    ∃ ps, pieces (before ++ '\x7b' :: tail) = ps ++ [.unclosed ('\x7b' :: tail)] ∧
      ps.flatMap Piece.text = before := by
  obtain ⟨ps, qs, hp, rfl⟩ := h
  have htext : qs.flatMap Piece.text = '\x7b' :: tail := by
    have happ := congrArg (List.flatMap Piece.text) hp
    rw [pieces_text, List.flatMap_append] at happ
    exact (List.append_cancel_left happ).symm
  have hq := pieces_of_append hp
  rw [htext, pieces_unclosed hopen] at hq
  exact ⟨ps, by rw [hp, ← hq], rfl⟩

/-- A piece ends at an offset, and another one follows it. -/
def EndsPiece (cs : List Char) (offset : Nat) : Prop :=
  ∃ ps qs, pieces cs = ps ++ qs ∧ qs ≠ [] ∧ (ps.flatMap Piece.text).length = offset

theorem exists_append_of_ne_nil {α : Type} {xs ys zs : List α} {x : α} (h : xs ++ [x] = ys ++ zs)
    (hn : zs ≠ []) : ∃ vs, xs = ys ++ vs ∧ zs = vs ++ [x] := by
  rcases List.eq_nil_or_concat zs with rfl | ⟨vs, z, rfl⟩
  · exact absurd rfl hn
  · rw [List.concat_eq_append, ← List.append_assoc] at h
    obtain ⟨hxs, hx⟩ := List.append_inj' h rfl
    exact ⟨vs, hxs, by rw [List.concat_eq_append, hx]⟩

/-- What is left after so many characters still ends with a block that is never closed. The pieces
`qs` are those before the block. -/
def Leaves (u rest : List Char) (qs : List Piece) (size : Nat) (after : List Char) : Prop :=
  ∃ ps vs later, qs = ps ++ vs ∧ (ps.flatMap Piece.text).length = size ∧
    pieces rest = ps ++ pieces later ∧ pieces later = vs ++ [.unclosed u] ∧ maskChars later = after

theorem maskChars_unclosed (h : pieces rest = [.unclosed u]) : maskChars rest = u := by
  rw [maskChars, h]
  exact List.append_nil u

theorem leaves_plain (hq : pieces rest = qs ++ [.unclosed u]) (ht : Plain lexeme.text)
    (h : lexeme.text ++ after = maskChars rest) : Leaves u rest qs lexeme.text.length after := by
  obtain ⟨later, hp, hafter⟩ := pieces_plain h ht
  have hlen : ((lexeme.text.map Piece.char).flatMap Piece.text).length = lexeme.text.length := by
    rw [List.flatMap_map]
    exact congrArg List.length (List.flatMap_singleton' _)
  have hne : pieces later ≠ [] := by
    intro hnil
    have hm : Piece.unclosed u ∈ lexeme.text.map Piece.char := by
      rw [← List.append_nil (lexeme.text.map Piece.char), ← hnil, ← hp, hq]
      exact List.mem_append_right _ List.mem_cons_self
    obtain ⟨c, -, hc⟩ := List.mem_map.mp hm
    cases hc
  obtain ⟨vs, hvs, hlater⟩ := exists_append_of_ne_nil (hq.symm.trans hp) hne
  exact ⟨_, vs, later, hvs, hlen, hp, hlater, hafter⟩

theorem leaves_endsPiece (hq : pieces rest = qs ++ [.unclosed u])
    (h : lexeme? (maskChars rest) = some (lexeme, after))
    (he : EndsPiece rest lexeme.text.length) : Leaves u rest qs lexeme.text.length after := by
  obtain ⟨ps, us, hcut, hne, hlen⟩ := he
  obtain ⟨vs, hvs, hus⟩ := exists_append_of_ne_nil (hq.symm.trans hcut) hne
  have hlater := pieces_of_append hcut
  have hafter : after = us.flatMap Piece.masked :=
    after_eq_of_length (List.nil_append _).symm h hcut (by simpa using hlen.symm)
  refine ⟨ps, vs, us.flatMap Piece.text, hvs, hlen, ?_, ?_, ?_⟩
  · rw [hlater, hcut]
  · rw [hlater, hus]
  · rw [maskChars, hlater, hafter]

/-- Before a block that is never closed every lexeme goes over whole pieces. -/
theorem leaves_of_lexeme? (hq : pieces rest = qs ++ [.unclosed u]) (hu : lexeme? u = none)
    (h : lexeme? (maskChars rest) = some (lexeme, after))
    (ha : lexeme.kind? = some .angleBlock →
      Plain lexeme.text ∨ EndsPiece rest lexeme.text.length) :
    Leaves u rest qs lexeme.text.length after := by
  have hmasked : maskChars rest ≠ u := by
    intro he
    rw [he, hu] at h
    cases h
  cases meets_of_lexeme? h with
  | @piece piece later hp htext _ hafter =>
    have hlen : piece.text.length = lexeme.text.length := by
      rw [← htext, (masks_piece piece).length_eq]
    cases qs with
    | nil => exact absurd (maskChars_unclosed hq) hmasked
    | cons q vs =>
      obtain ⟨rfl, hvs⟩ := List.cons.inj (hp.symm.trans hq)
      exact ⟨[piece], vs, later, rfl, by simpa using hlen, hp, hvs, hafter⟩
  | plain ht => exact leaves_plain hq ht (lexeme?_append h)
  | angle hk =>
    rcases ha hk with ht | he
    · exact leaves_plain hq ht (lexeme?_append h)
    · exact leaves_endsPiece hq h he
  | unclosed hp =>
    have hlast : qs ++ [.unclosed u] = [] ++ [.unclosed rest] := hq.symm.trans hp
    obtain ⟨rfl, -⟩ := List.append_inj' hlast rfl
    exact absurd (maskChars_unclosed hq) hmasked

theorem EndsPiece.of_append {offset : Nat} (hp : pieces cs = ps ++ pieces rest) (hpos : 0 < offset)
    (h : EndsPiece cs ((ps.flatMap Piece.text).length + offset)) : EndsPiece rest offset := by
  obtain ⟨us, vs, hcut, hne, hlen⟩ := h
  rcases List.append_eq_append_iff.mp (hp.symm.trans hcut) with
    ⟨later, rfl, hrest⟩ | ⟨later, rfl, hvs⟩
  · refine ⟨later, vs, hrest, hne, ?_⟩
    rw [List.flatMap_append, List.length_append] at hlen
    omega
  · rw [List.flatMap_append, List.length_append] at hlen
    omega

/-- Reading does not get past a block that is never closed if no lexeme stands there. -/
theorem lexemes_stop (hp : pieces cs = ps ++ pieces rest)
    (hq : pieces rest = qs ++ [.unclosed u]) (hu : lexeme? u = none)
    (ha : ∀ s ∈ Stretch.row Lexeme.text (ps.flatMap Piece.text).length
      (lexemes (maskChars rest)).1, s.part.kind? = some .angleBlock →
        Plain s.part.text ∨ EndsPiece cs s.last) :
    (lexemes (maskChars rest)).2 ≠ [] ∧
      ((lexemes (maskChars rest)).1.flatMap Lexeme.text).length ≤
        (qs.flatMap Piece.text).length := by
  -- Wherever a lexeme starts, the pieces from there on still end with the block.
  generalize hms : maskChars rest = ms at ha ⊢
  fun_induction lexemes ms generalizing ps rest qs with
  | case1 ms hnone =>
    refine ⟨?_, Nat.zero_le _⟩
    intro hnil
    have hhead := head?_maskChars rest
    rw [hms, show ms = [] from hnil] at hhead
    rw [List.head?_eq_none_iff.mp hhead.symm, pieces_nil] at hq
    simp at hq
  | case2 ms lexeme after h _ ih =>
    rw [← hms] at h
    have hpos : 0 < lexeme.text.length := List.length_pos_iff.mpr (lexeme?_ne_nil h)
    have hoptions : lexeme.kind? = some .angleBlock →
        Plain lexeme.text ∨ EndsPiece rest lexeme.text.length := by
      intro hk
      have hs := ha _ List.mem_cons_self hk
      exact hs.imp_right (EndsPiece.of_append hp hpos)
    obtain ⟨us, vs, later, rfl, hlen, hus, hlater, hafter⟩ := leaves_of_lexeme? hq hu h hoptions
    have hpieces : pieces cs = (ps ++ us) ++ pieces later := by
      rw [hp, hus, List.append_assoc]
    have hoffset : ((ps ++ us).flatMap Piece.text).length =
        (ps.flatMap Piece.text).length + lexeme.text.length := by
      rw [List.flatMap_append, List.length_append, hlen]
    have hlaterOptions := fun s hs => ha s (List.mem_cons_of_mem _ hs)
    rw [← hoffset] at hlaterOptions
    obtain ⟨hstop, hle⟩ := ih hpieces hlater hafter hlaterOptions
    refine ⟨hstop, ?_⟩
    rw [List.flatMap_cons, List.flatMap_append, List.length_append, List.length_append]
    omega

theorem stops_at_unclosed (hp : pieces cs = ps ++ [.unclosed u]) (hu : lexeme? u = none)
    (ha : ∀ s ∈ lexed cs, s.part.kind? = some .angleBlock →
      Plain s.part.text ∨ EndsPiece cs s.last) :
    (readTokens (maskChars cs)).stop? ≠ none ∧ readTo cs ≤ (ps.flatMap Piece.text).length := by
  obtain ⟨hne, hle⟩ := lexemes_stop (List.nil_append _).symm hp hu ha
  refine ⟨?_, hle⟩
  rw [stop?_eq_readTo, if_neg hne]
  exact Option.some_ne_none _

end Source

open Source

/-- A brace block that is never closed is refused at its brace or before if another brace opens
before one closes, or none closes. Element options have to end with a piece or hold no mark. -/
theorem parseGrammar_refuses_unclosed (text : String) {before tail : List Char}
    (htext : text.toList = before ++ '\x7b' :: tail) (hreach : Reaches text.toList before)
    (hopen : blockBody? 0 tail = none)
    (hnext : ∀ body post, tail = body ++ '\x7d' :: post → '\x7b' ∈ body)
    (hoptions : ∀ s ∈ lexed text.toList, s.part.kind? = some .angleBlock →
      Plain s.part.text ∨ EndsPiece text.toList s.last) :
    ∃ what ∈ ["UnexpectedToken", "UnexpectedCharacters"], ∃ offset ≤ before.length,
      (parseGrammar text).result =
        .error (.refused (.atOffset what text.toList offset)) := by
  have hunclosed : ∃ ps, pieces text.toList = ps ++ [.unclosed ('\x7b' :: tail)] ∧
      ps.flatMap Piece.text = before := by
    rw [htext] at hreach ⊢
    exact exists_pieces_unclosed hreach hopen
  obtain ⟨ps, hp, rfl⟩ := hunclosed
  obtain ⟨hstop, hle⟩ := stops_at_unclosed hp (lexeme?_brace_eq_none_iff.mpr hnext) hoptions
  rcases viable_or_exists_first (readTokens (maskChars text.toList)).tokens with
    hv | ⟨pre, t, post, he, hpre, hno⟩
  · exact ⟨_, by simp, _, hle, parseGrammar_refuses_character hv hstop⟩
  · obtain ⟨s, hs, -, hresult⟩ := parseGrammar_refuses_token he hpre hno
    have hfirst : s.first ≤ readTo text.toList := by
      have hrow := Stretch.first_le_of_mem_row hs
      rwa [Nat.zero_add] at hrow
    exact ⟨_, by simp, _, Nat.le_trans hfirst hle, hresult⟩

theorem parseGrammar_refuses_unclosed_nested :
    let text := "grammar G; a : b<fail='x'> \x7b f(\x7b y \x7d) ;"
    let before := "grammar G; a : b<fail='x'> ".toList
    let tail := " f(\x7b y \x7d) ;".toList
    (text.toList = before ++ '\x7b' :: tail ∧ Reaches text.toList before ∧
      blockBody? 0 tail = none) ∧
    ∃ what ∈ ["UnexpectedToken", "UnexpectedCharacters"], ∃ offset ≤ before.length,
      (parseGrammar text).result =
        .error (.refused (.atOffset what text.toList offset)) := by
  intro text before tail
  have htext : text.toList = before ++ '\x7b' :: tail := by decide
  have hreach : Reaches text.toList before := by
    refine ⟨(pieces text.toList).take 25, _, (List.take_append_drop 25 _).symm, ?_⟩
    decide +kernel
  have hopen : blockBody? 0 tail = none := by decide +kernel
  have hnext : lexeme? ('\x7b' :: tail) = none := by decide
  have hlast : ∀ s ∈ lexed text.toList, s.part.kind? = some .angleBlock → s.last = 26 := by
    decide +kernel
  have hends : EndsPiece text.toList 26 := by
    refine ⟨(pieces text.toList).take 24, _, (List.take_append_drop 24 _).symm, ?_, ?_⟩
    · decide +kernel
    · decide +kernel
  refine ⟨⟨htext, hreach, hopen⟩, parseGrammar_refuses_unclosed text htext hreach hopen
    (lexeme?_brace_eq_none_iff.mp hnext) fun s hs hk => .inr ?_⟩
  rw [hlast s hs hk]
  exact hends

/-- An apostrophe hides the closing brace from masking, but not from reading. -/
theorem unclosed_block_accepted :
    let text := "grammar G; a : 'x' \x7bdon't\x7d ;"
    let before := "grammar G; a : 'x' ".toList
    let tail := "don't\x7d ;".toList
    text.toList = before ++ '\x7b' :: tail ∧ Reaches text.toList before ∧
      blockBody? 0 tail = none ∧ (∃ tree, (parseGrammar text).result = .ok tree) ∧
      (parseRules text).result = .ok [⟨"a", .atom "x"⟩] := by
  intro text before tail
  have htext : text.toList = before ++ '\x7b' :: tail := by decide
  have hreach : Reaches text.toList before := by
    refine ⟨(pieces text.toList).take 17, _, (List.take_append_drop 17 _).symm, ?_⟩
    decide +kernel
  have hopen : blockBody? 0 tail = none := by decide +kernel
  have hrules : (parseRules text).result = .ok [⟨"a", .atom "x"⟩] :=
    eq_of_isRules (by decide +kernel)
  obtain ⟨tree, htree, -⟩ := parseRules_ok_iff.mp hrules
  exact ⟨htext, hreach, hopen, ⟨tree, htree⟩, hrules⟩

end GrammarDoc
