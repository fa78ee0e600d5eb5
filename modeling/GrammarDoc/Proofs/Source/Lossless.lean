import GrammarDoc.Proofs.Source.Acceptance
import GrammarDoc.Proofs.Source.Nesting
import GrammarDoc.Proofs.Source.Shapes

namespace GrammarDoc

namespace Text

namespace Position

instance : LT Position :=
  ⟨fun p q => p.line < q.line ∨ p.line = q.line ∧ p.column < q.column⟩

variable {cs : List Char} {p q : Position}

theorem lt_iff : p < q ↔ p.line < q.line ∨ p.line = q.line ∧ p.column < q.column :=
  Iff.rfl

/-- A place is behind all text before it. -/
theorem lt_after (p : Position) (h : cs ≠ []) : p < p.after cs := by
  have hle := le_after p cs
  have hnot := not_after_le p h
  rw [le_iff] at hle hnot
  rw [lt_iff]
  omega

end Position

/-- The offset at which a place stands in a text, if the text has such a place. -/
def offsetOf? (cs : List Char) (place : Position) : Option Nat :=
  (List.range (cs.length + 1)).find? fun i => Position.mk (lineAt cs i) (columnAt cs i) = place

/-- The text between the two ends of a span. -/
def slice? (cs : List Char) (span : Span) : Option (List Char) :=
  match offsetOf? cs span.first, offsetOf? cs span.last with
  | some i, some j => some (cs.extract i j)
  | _, _ => none

theorem offsetOf?_after (xs ys : List Char) :
    offsetOf? (xs ++ ys) (Position.start.after xs) = some xs.length := by
  unfold offsetOf?
  rw [List.find?_range_eq_some]
  have hrange : xs.length < (xs ++ ys).length + 1 := by
    rw [List.length_append]
    omega
  refine ⟨?_, List.mem_range.mpr hrange, fun i hi => ?_⟩
  · have hplace := Position.start_after_take (xs ++ ys) xs.length
    rw [List.take_left] at hplace
    simp [hplace]
  · have hplace := Position.start_after_take (xs ++ ys) i
    rw [← hplace]
    simp only [Bool.not_eq_true', decide_eq_false_iff_not]
    intro he
    have htake := Position.eq_of_after_eq (List.take_append_drop i (xs ++ ys)) he
    have hlength := congrArg List.length htake
    rw [List.length_take, List.length_append] at hlength
    omega

theorem slice?_following (before stretch after : List Char) :
    slice? (before ++ (stretch ++ after)) (Span.following before stretch) = some stretch := by
  have hfirst := offsetOf?_after before (stretch ++ after)
  have hlast := offsetOf?_after (before ++ stretch) after
  rw [List.append_assoc] at hlast
  simp only [slice?, Span.following, hfirst, hlast, List.extract_eq_take_drop, List.drop_left,
    List.length_append, Nat.add_sub_cancel_left, List.take_left]

end Text

namespace Parsing.Derivation

variable {τ ρ : Type}

mutual

/-- The tokens of a tree from left to right, each with the mark whether it is shown. -/
def leaves : Derivation τ ρ → List (τ × Bool)
  | leaf token shown => [(token, shown)]
  | node _ children => leavesOfAll children

def leavesOfAll : List (Derivation τ ρ) → List (τ × Bool)
  | [] => []
  | d :: ds => leaves d ++ leavesOfAll ds

end

theorem leavesOfAll_append (ds es : List (Derivation τ ρ)) :
    leavesOfAll (ds ++ es) = leavesOfAll ds ++ leavesOfAll es := by
  induction ds with
  | nil => rfl
  | cons d ds ih => simp [leavesOfAll, ih]

mutual

theorem map_fst_leaves (d : Derivation τ ρ) : d.leaves.map Prod.fst = d.tokens := by
  match d with
  | leaf token shown => rfl
  | node _ children => exact map_fst_leavesOfAll children

theorem map_fst_leavesOfAll (ds : List (Derivation τ ρ)) :
    (leavesOfAll ds).map Prod.fst = tokensOfAll ds := by
  match ds with
  | [] => rfl
  | d :: ds =>
    rw [leavesOfAll, List.map_append, map_fst_leaves d, map_fst_leavesOfAll ds]
    rfl

end

mutual

theorem shownTokens_eq (d : Derivation τ ρ) :
    d.shownTokens = (d.leaves.filter Prod.snd).map Prod.fst := by
  match d with
  | leaf token shown => cases shown <;> rfl
  | node _ children => exact shownTokensOfAll_eq children

theorem shownTokensOfAll_eq (ds : List (Derivation τ ρ)) :
    shownTokensOfAll ds = ((leavesOfAll ds).filter Prod.snd).map Prod.fst := by
  match ds with
  | [] => rfl
  | d :: ds =>
    rw [shownTokensOfAll, leavesOfAll, List.filter_append, List.map_append, shownTokens_eq d,
      shownTokensOfAll_eq ds]

end

end Parsing.Derivation

namespace Source

open Text (Position Span offsetOf? slice?)
open Parsing (Form Matches)
open Parsing.Derivation (leavesOfAll leavesOfAll_append)

section Leaves

/-- The kinds of tokens that are left out wherever they stand. -/
def leftOutKinds : List TokenKind :=
  [.imports, .returns, .throws, .locals, .catches, .finallyWord, .semicolon, .colon, .doubleColon,
    .comma, .bar, .hash, .tilde, .arrow, .openParen, .closeParen]

variable {f : Form TokenKind Construct} {ds : List Derivation} {ts : List Token}

theorem not_mem_leftOutKinds (c : Construct) : ∀ k ∈ c.form.shows, k ∉ leftOutKinds := by
  cases c <;> decide

/-- An equals sign is left out of an import, but shown after a label. -/
theorem mem_leftOutKinds (c : Construct) :
    ∀ k ∈ c.form.hides, k = .assign ∨ k ∈ leftOutKinds := by
  cases c <;> decide

/-- A leaf is shown, or left out, by the form or by a construct below it. -/
theorem mark_of_matches {P Q : TokenKind → Prop} (hP : ∀ c : Construct, ∀ k ∈ c.form.shows, P k)
    (hQ : ∀ c : Construct, ∀ k ∈ c.form.hides, Q k) (h : Matches Token.kind Construct.form f ds ts)
    (hf : ∀ k ∈ f.shows, P k) (hg : ∀ k ∈ f.hides, Q k) :
    ∀ l ∈ leavesOfAll ds, if l.2 then P l.1.kind else Q l.1.kind := by
  induction h with
  | empty => simp [leavesOfAll]
  | shown => simpa [leavesOfAll, Parsing.Derivation.leaves] using hf _ (List.mem_singleton_self _)
  | hidden => simpa [leavesOfAll, Parsing.Derivation.leaves] using hg _ (List.mem_singleton_self _)
  | @rule c _ _ _ ih => simpa [leavesOfAll, Parsing.Derivation.leaves] using ih (hP c) (hQ c)
  | seq _ _ ihf ihg =>
    simp only [Form.shows, Form.hides, List.forall_mem_append] at hf hg
    rw [leavesOfAll_append]
    exact List.forall_mem_append.mpr ⟨ihf hf.1 hg.1, ihg hf.2 hg.2⟩
  | altLeft _ ih =>
    simp only [Form.shows, Form.hides, List.forall_mem_append] at hf hg
    exact ih hf.1 hg.1
  | altRight _ ih =>
    simp only [Form.shows, Form.hides, List.forall_mem_append] at hf hg
    exact ih hf.2 hg.2
  | manyNil => simp [leavesOfAll]
  | manyCons _ _ ihf ihm =>
    rw [leavesOfAll_append]
    exact List.forall_mem_append.mpr ⟨ihf hf hg, ihm hf hg⟩

/-- But for equals signs, the kind of a token tells whether it is left out. -/
theorem leftOut_iff {d : Derivation} (h : Sentence ts d) :
    ∀ l ∈ d.leaves, l.1.kind ≠ .assign → (l.2 = false ↔ l.1.kind ∈ leftOutKinds) := by
  intro l hl hne
  have hm := Parsing.derives_iff_matches.mp h
  have hmark := mark_of_matches not_mem_leftOutKinds mem_leftOutKinds hm (by simp [Form.shows])
    (by simp [Form.hides]) l (by simpa [leavesOfAll] using hl)
  cases hs : l.2 with
  | true =>
    rw [hs, if_pos rfl] at hmark
    simp [hmark]
  | false =>
    rw [hs, if_neg (by decide)] at hmark
    simp [hmark.resolve_left hne]

end Leaves

/-- What may stand between tokens: white space and comments. A comment is complete; a line comment
goes up to a line feed, here or in the text after it, or to the end of the text. -/
inductive Filler : List Char → List Char → Prop
  | nil {after : List Char} : Filler [] after
  | space {c : Char} {gap after : List Char} : isSpace c → Filler gap after → Filler (c :: gap) after
  | block {body gap after : List Char} :
      ¬['*', '/'] <:+: body → Filler gap after →
      Filler ('/' :: '*' :: (body ++ '*' :: '/' :: gap)) after
  | line {body gap after : List Char} :
      '\n' ∉ body → (∀ c, (gap ++ after).head? = some c → c = '\n') → Filler gap after →
      Filler ('/' :: '/' :: (body ++ gap)) after

/-- Tokens lie in a text as they say, one after another, with nothing but filler between them. The
text is what comes after some other text. -/
inductive Laid : List Char → List Token → List Char → Prop
  | last {before gap : List Char} : Filler gap [] → Laid before [] gap
  | token {before gap after : List Char} {t : Token} {ts : List Token} :
      Filler gap (t.text.toList ++ after) → t.text.toList ≠ [] →
      t.span = Span.following (before ++ gap) t.text.toList →
      Laid (before ++ gap ++ t.text.toList) ts after →
      Laid before (t :: ts) (gap ++ (t.text.toList ++ after))

variable {cs text gap before rest after : List Char} {t : Token} {ts : List Token}

theorem Filler.spaces_append (hs : ∀ c ∈ text, isSpace c) (h : Filler gap after) :
    Filler (text ++ gap) after := by
  induction text with
  | nil => exact h
  | cons c text ih =>
    obtain ⟨hc, hs⟩ := List.forall_mem_cons.mp hs
    exact .space hc (ih hs)

/-- A lexeme that stands for no token is filler. -/
theorem Filler.lexeme_append (h : lexeme? cs = some (⟨none, text⟩, gap ++ after))
    (hg : Filler gap after) : Filler (text ++ gap) after := by
  obtain ⟨c, rest, e, rfl, he, hlex, hafter⟩ := extends_of_lexeme? h
  obtain ⟨hk, rfl⟩ := Lexeme.mk.inj hlex
  cases he with
  | space hc =>
    refine hg.spaces_append fun d hd => ?_
    rcases List.mem_cons.mp hd with rfl | hd
    · exact hc
    · exact List.mem_takeWhile_imp hd
  | comment he =>
    unfold commentExtent? at he
    split at he
    next rest =>
      cases he
      have hbody : '\n' ∉ (lineRest rest).1 := fun hm => by
        simpa using List.mem_takeWhile_imp hm
      refine .line hbody (fun d hd => ?_) hg
      have hstop := List.head?_dropWhile_not (· ≠ '\n') rest
      have hd : (rest.dropWhile (· ≠ '\n')).head? = some d := by
        rw [hafter] at hd
        exact hd
      rw [hd] at hstop
      simpa using hstop
    next =>
      obtain ⟨p, hp, rfl⟩ := Option.map_eq_some_iff.mp he
      obtain ⟨body, hbody, hend⟩ := exists_of_throughCommentEnd? hp
      have htext : '/' :: '*' :: p.1 ++ gap = '/' :: '*' :: (body ++ '*' :: '/' :: gap) := by
        simp [hend]
      exact htext ▸ .block hbody hg
    next => cases he
  | word => cases hk
  | mark hm =>
    obtain ⟨k, -, hk'⟩ := markExtent?_mem hm
    cases hk.trans hk'
  | atName ha => cases hk.trans (atNameExtent?_kind ha)
  | _ => cases hk

theorem Laid.lexeme_append (hl : lexeme? cs = some (⟨none, text⟩, rest))
    (h : Laid (before ++ text) ts rest) : Laid before ts (text ++ rest) := by
  cases h with
  | last hg =>
    rw [← List.append_nil rest] at hl
    exact .last (hg.lexeme_append hl)
  | @token _ gap after t ts hg hne hspan hlaid =>
    rw [List.append_assoc before text gap] at hspan hlaid
    rw [← List.append_assoc]
    exact .token (hg.lexeme_append hl) hne hspan hlaid

theorem Laid.token_append (h : Laid (before ++ text) ts after) (ht : t.text.toList = text)
    (hne : text ≠ []) (hspan : t.span = Span.following before text) :
    Laid before (t :: ts) (text ++ after) := by
  subst ht
  refine @Laid.token before [] after t ts .nil hne ?_ ?_
  · rwa [List.append_nil]
  · rwa [List.append_nil]

/-- If nothing stops a reading, its tokens and filler make up the text. -/
theorem laid_readFrom (before cs : List Char)
    (h : (readFrom (Position.start.after before) cs).stop? = none) :
    Laid before (readFrom (Position.start.after before) cs).tokens cs := by
  generalize hp : Position.start.after before = place at h ⊢
  fun_induction readFrom place cs generalizing before with
  | case1 => exact .last .nil
  | case2 => cases h
  | case3 place c rest lexeme after hl _ next later hk ih =>
    obtain ⟨kind?, text⟩ := lexeme
    cases hk
    have happ : text ++ after = c :: rest := lexeme?_append hl
    have hnext : Position.start.after (before ++ text) = next := by
      rw [Position.after_append, hp]
    rw [← happ]
    exact (ih _ hnext h).lexeme_append hl
  | case4 place c rest lexeme after hl _ next later kind hk ih =>
    have happ : lexeme.text ++ after = c :: rest := lexeme?_append hl
    have hnext : Position.start.after (before ++ lexeme.text) = next := by
      rw [Position.after_append, hp]
    rw [← happ]
    refine (ih _ hnext h).token_append String.toList_ofList (lexeme?_ne_nil hl) ?_
    rw [Span.following, hnext, hp]

/-- A token of a text, and where it stands there. -/
theorem Laid.exists_of_mem (h : Laid before ts rest) (ht : t ∈ ts) :
    ∃ skipped after, rest = skipped ++ (t.text.toList ++ after) ∧ t.text.toList ≠ [] ∧
      t.span = Span.following (before ++ skipped) t.text.toList := by
  induction h with
  | last => cases ht
  | @token before gap after u ts hg hne hspan _ ih =>
    rcases List.mem_cons.mp ht with rfl | ht
    · exact ⟨gap, after, rfl, hne, hspan⟩
    · obtain ⟨skipped, later, rfl, hne', hspan'⟩ := ih ht
      exact ⟨gap ++ (u.text.toList ++ skipped), later, by simp, hne', by simpa using hspan'⟩

theorem Laid.first_lt_last (h : Laid before ts rest) (ht : t ∈ ts) :
    t.span.first < t.span.last := by
  obtain ⟨skipped, after, -, hne, hspan⟩ := h.exists_of_mem ht
  rw [hspan]
  have hlt := Position.lt_after (Position.start.after (before ++ skipped)) hne
  rw [← Position.after_append] at hlt
  exact hlt

theorem Laid.start_le (h : Laid before ts rest) (ht : t ∈ ts) :
    Position.start.after before ≤ t.span.first := by
  obtain ⟨skipped, after, -, -, hspan⟩ := h.exists_of_mem ht
  rw [hspan]
  have hle := Position.le_after (Position.start.after before) skipped
  rw [← Position.after_append] at hle
  exact hle

/-- A token ends where the ones after it have not yet started. -/
theorem Laid.pairwise (h : Laid before ts rest) :
    ts.Pairwise fun t u => t.span.last ≤ u.span.first := by
  induction h with
  | last => exact .nil
  | token _ _ hspan hlaid ih =>
    refine List.pairwise_cons.mpr ⟨fun u hu => ?_, ih⟩
    rw [hspan]
    exact hlaid.start_le hu

theorem Laid.slice?_eq (h : Laid [] ts cs) (ht : t ∈ ts) :
    slice? cs t.span = some t.text.toList := by
  obtain ⟨skipped, after, rfl, -, hspan⟩ := h.exists_of_mem ht
  rw [hspan]
  exact Text.slice?_following skipped t.text.toList after

end Source

open Source Parsing

/-- Reading loses nothing. The tokens of accepted source lie in the masked text one after another,
each with the text between the places it reports, and with nothing but white space and comments
between them. The leaves of the tree are these tokens in the same order, without those left out. -/
theorem reading_lossless {text : String} {tree : SyntaxTree}
    (h : (parseGrammar text).result = .ok tree) :
    let masked := (mask text).toList
    let tokens := (readTokens masked).tokens
    Laid [] tokens masked ∧
    (∀ t ∈ tokens, t.span.first < t.span.last ∧
      Text.slice? masked t.span = some t.text.toList) ∧
    tokens.Pairwise (fun t u => t.span.last ≤ u.span.first) ∧
    ∃ d, Sentence tokens d ∧ tree = SyntaxTree.ofDerivation d ∧ d.leaves.map Prod.fst = tokens ∧
      (∀ l ∈ d.leaves, l.1.kind ≠ .assign → (l.2 = false ↔ l.1.kind ∈ leftOutKinds)) ∧
      tree.leaves = (d.leaves.filter Prod.snd).map Prod.fst := by
  intro masked tokens
  obtain ⟨d, hd, rfl⟩ := parse_eq_ok_iff.mp (parseGrammar_result_ok_iff.mp h)
  obtain ⟨hstop, hd⟩ := derivationOf_ok hd
  have hmasked : masked = maskChars text.toList := String.toList_ofList
  rw [← hmasked] at hstop hd
  have hlaid : Laid [] tokens masked := laid_readFrom [] masked hstop
  refine ⟨hlaid, fun t ht => ⟨hlaid.first_lt_last ht, hlaid.slice?_eq ht⟩, hlaid.pairwise, d, hd,
    rfl, ?_, leftOut_iff hd, ?_⟩
  · rw [Derivation.map_fst_leaves]
    exact hd.2.2
  · rw [leaves_ofDerivation hd, Derivation.shownTokens_eq]

/-- A token over two lines, a comment mark in a literal and a comment that the text ends with. -/
theorem reading_lossless_lines :
    let text := "grammar G; /* ; */\na [x\ny] : '//' ; // z"
    let masked := (mask text).toList
    let tokens := (readTokens masked).tokens
    ∃ tree, (parseGrammar text).result = .ok tree ∧ Laid [] tokens masked ∧
      tree.leaves.map Token.text = ["grammar", "G", "a", "[x\ny]", "'//'"] ∧
      Text.slice? masked ⟨⟨2, 3⟩, ⟨3, 3⟩⟩ = some "[x\ny]".toList := by
  intro text masked tokens
  have hleaves : ((parseGrammar text).result.toOption.map fun tree => tree.leaves.map Token.text) =
      some ["grammar", "G", "a", "[x\ny]", "'//'"] := by decide +kernel
  have hspan : ∃ t ∈ tokens, t.span = ⟨⟨2, 3⟩, ⟨3, 3⟩⟩ ∧ t.text = "[x\ny]" := by decide +kernel
  obtain ⟨tree, htree, hleaves⟩ := Option.map_eq_some_iff.mp hleaves
  have hresult : (parseGrammar text).result = .ok tree := by
    cases hr : (parseGrammar text).result <;> rw [hr] at htree <;> cases htree
    rfl
  obtain ⟨hlaid, hslice, -⟩ := reading_lossless hresult
  obtain ⟨t, ht, hplace, htext⟩ := hspan
  refine ⟨tree, hresult, hlaid, hleaves, ?_⟩
  rw [← hplace, ← htext]
  exact (hslice t ht).2

end GrammarDoc
