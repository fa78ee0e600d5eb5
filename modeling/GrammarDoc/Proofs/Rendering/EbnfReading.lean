import GrammarDoc.Proofs.Rendering.Alternatives
import GrammarDoc.Proofs.Rendering.RoundTrip
import GrammarDoc.Proofs.Text.Pieces

namespace GrammarDoc.Ebnf

open Source
open Element (chars charsOfAll words wordsOfAll grouped)
open Markdown (Rows)

/-- The last part of a row with something put on it. -/
def suffixed? (f : Element → Element) (r : Rows) : Option Rows :=
  r.row.getLast?.map fun e => ⟨r.earlier, r.row.dropLast ++ [f e]⟩

/-- Reads one word of a body. Beside the rows of the innermost parentheses there are those around
them, from the inside out. -/
def step : Rows × List Rows → Word → Option (Rows × List Rows)
  | (r, outer), (.literal, s) => some (r.push (.atom (Node.unquoted s)), outer)
  | (r, outer), (.ruleName, s) => some (r.push (.ref s), outer)
  | (r, outer), (.tokenName, s) => some (r.push (.ref s), outer)
  | (r, outer), (.question, _) => (suffixed? .opt r).map (·, outer)
  | (r, outer), (.plus, _) => (suffixed? .plus r).map (·, outer)
  | (r, outer), (.star, _) => (suffixed? .star r).map (·, outer)
  | (r, outer), (.bar, _) => some (r.next, outer)
  | (r, outer), (.openParen, _) => some (.empty, r :: outer)
  | (r, r' :: outer), (.closeParen, _) => some (r'.push r.element, outer)
  | _, _ => none

def body? (ws : List Word) : Option Element := do
  let (r, outer) ← ws.foldlM step (.empty, [])
  if outer.isEmpty then some r.element else none

/-- A name, the mark between the two sides, and a body. -/
def production? : List Word → Option Rule
  | (.ruleName, name) :: (.doubleColon, _) :: (.assign, _) :: ws => (body? ws).map (Rule.mk name)
  | _ => none

def line? (cs : List Char) : Option Rule :=
  if (readTokens cs).stop?.isSome then none
  else production? ((readTokens cs).tokens.map Token.word)

/-- Reads a document with one production to a line. -/
def read? (text : String) : Option (List Rule) :=
  if text.toList = [] then some [] else (text.toList.splitOn '\n').mapM line?

variable {e : Element} {es : List Element} {r : Rule} {rules : List Rule} {c : Char}

section Body

theorem suffixed?_push (f : Element → Element) (r : Rows) (e : Element) :
    suffixed? f (r.push e) = some (r.push (f e)) := by
  simp [suffixed?, Rows.push]

theorem adds_grouped {ws : List Word} {read : Rows}
    (h : ∀ outer, ws.foldlM step (.empty, outer) = some (read, outer)) :
    Rows.Adds step (grouped true (.openParen, "(") (.closeParen, ")") ws) read.element := by
  intro r outer
  have hopen : step (r, outer) (.openParen, "(") = some (.empty, r :: outer) := rfl
  rw [grouped, if_pos rfl, List.foldlM_cons, hopen, Option.bind_eq_bind, Option.bind_some,
    List.foldlM_append, h]
  rfl

theorem adds_suffixed {f : Element → Element} {w : Word}
    (hw : ∀ r outer, step (r, outer) w = (suffixed? f r).map (·, outer))
    (h : Rows.Adds step (words true e) e) : Rows.Adds step (words true e ++ [w]) (f e) := by
  intro r outer
  rw [List.foldlM_append, h, Option.bind_eq_bind, Option.bind_some, List.foldlM_cons, hw,
    suffixed?_push]
  rfl

theorem foldlM_words_seq (h : ∀ e ∈ es, Rows.Adds step (words true e) e) (outer : List Rows) :
    (words false (.seq es)).foldlM step (.empty, outer) = some (⟨[], es⟩, outer) := by
  have hid : ∀ e ∈ es, Rows.Adds step (words true e) (id e) := h
  have hrow := Rows.foldlM_row hid .empty outer
  rw [List.map_id] at hrow
  rw [words, Element.wordsOfAll_eq_map]
  exact hrow

theorem foldlM_words_choice (hn : es ≠ []) (h : ∀ e ∈ es, Rows.Adds step (words true e) e)
    (outer : List Rows) :
    (words false (.choice es)).foldlM step (.empty, outer) =
      some (.ofAlternatives es, outer) := by
  have hbar : ∀ r outer, step (r, outer) (.bar, "|") = some (r.next, outer) := fun _ _ => rfl
  have hid : ∀ e ∈ es, Rows.Adds step (words true e) (id e) := h
  have halts := Rows.foldlM_alternatives hbar hn hid [] outer
  rw [List.map_id] at halts
  rw [words, Element.wordsOfAll_eq_map]
  exact halts

/-- A written member is read as one part, whatever stands before it. -/
theorem adds_words (h : e.WellFormed) : Rows.Adds step (words true e) e := by
  induction h with
  | @atom s _ =>
    intro r outer
    have hs : Node.unquoted (String.ofList ('\'' :: (s.toList ++ ['\'']))) = s := by
      simp [Node.unquoted]
    have hstep : step (r, outer) (.literal, String.ofList ('\'' :: (s.toList ++ ['\'']))) =
        some (r.push (.atom s), outer) := by
      rw [step, hs]
    rw [words, List.foldlM_cons, hstep]
    rfl
  | ruleName hn =>
    intro r outer
    rw [words, Element.nameWord_ruleName hn]
    rfl
  | tokenName hn =>
    intro r outer
    rw [words, Element.nameWord_tokenName hn]
    rfl
  | opt _ ih => exact adds_suffixed (fun _ _ => rfl) ih
  | plus _ ih => exact adds_suffixed (fun _ _ => rfl) ih
  | star _ ih => exact adds_suffixed (fun _ _ => rfl) ih
  | choice hl _ ih =>
    have hn := List.ne_nil_of_length_pos (Nat.zero_lt_of_lt hl)
    have hg := adds_grouped (foldlM_words_choice hn ih)
    rw [Rows.element_ofAlternatives hl] at hg
    exact hg
  | seq hl _ ih =>
    have hg := adds_grouped (foldlM_words_seq ih)
    rw [Rows.element_row hl] at hg
    exact hg

theorem body?_words (h : e.WellFormed) : body? (words false e) = some e := by
  have hone : ∀ {read : Rows}, (words false e).foldlM step (.empty, []) = some (read, []) →
      body? (words false e) = some read.element := by
    intro read hread
    rw [body?, hread]
    rfl
  have hpart := adds_words h
  cases h with
  | choice hl hw =>
    have hn := List.ne_nil_of_length_pos (Nat.zero_lt_of_lt hl)
    rw [hone (foldlM_words_choice hn (fun x hx => adds_words (hw x hx)) []),
      Rows.element_ofAlternatives hl]
  | seq hl hw =>
    rw [hone (foldlM_words_seq (fun x hx => adds_words (hw x hx)) []), Rows.element_row hl]
  | _ => exact hone (hpart .empty [])

end Body

section Lines

theorem notMem_grouped {cs : List Char} {opening closing : Char} (ho : c ≠ opening)
    (hc : c ≠ closing) (h : c ∉ cs) (nested : Bool) : c ∉ grouped nested opening closing cs := by
  cases nested with
  | false => exact h
  | true => simp [grouped, ho, hc, h]

theorem notMem_charsOfAll {sep : List Char} (hs : c ∉ sep)
    (h : ∀ e ∈ es, ∀ nested, c ∉ chars nested e) : c ∉ sep.intercalate (charsOfAll es) := by
  rw [Element.charsOfAll_eq_map]
  refine Text.notMem_intercalate hs fun part hp => ?_
  obtain ⟨e, he, rfl⟩ := List.mem_map.mp hp
  exact h e he true

/-- An element is written on one line. -/
theorem lineFeed_notMem_chars (h : e.WellFormed) : ∀ nested, '\n' ∉ chars nested e := by
  induction h with
  | atom hb =>
    intro nested
    simp [chars, lineFeed_notMem_of_literalBody hb]
  | ruleName hn => exact fun _ => lineFeed_notMem_of_isName (fun _ => isNameChar_of_isSmall) hn.1
  | tokenName hn => exact fun _ => lineFeed_notMem_of_isName (fun _ => isNameChar_of_isCapital) hn
  | opt _ ih => exact fun _ => by simp [chars, ih true]
  | plus _ ih => exact fun _ => by simp [chars, ih true]
  | star _ ih => exact fun _ => by simp [chars, ih true]
  | choice _ _ ih =>
    exact notMem_grouped (by decide) (by decide) (notMem_charsOfAll (by decide) ih)
  | seq _ _ ih =>
    exact notMem_grouped (by decide) (by decide) (notMem_charsOfAll (by decide) ih)

/-- The characters of a production. -/
def lineChars (r : Rule) : List Char :=
  r.left.toList ++ ([' ', ':', ':', '=', ' '] ++ chars false r.right)

def lineWords (r : Rule) : List Word :=
  [(.ruleName, r.left)] ++ ([(.doubleColon, "::"), (.assign, "=")] ++ words false r.right)

theorem lineFeed_notMem_lineChars (h : WellFormed r) : '\n' ∉ lineChars r := by
  have hleft := lineFeed_notMem_of_isName (fun _ => isNameChar_of_isSmall) h.1.1
  have hright := lineFeed_notMem_chars h.2 false
  simp [lineChars, hleft, hright]

theorem rule_ok (h : WellFormed r) : rule r = .ok (String.ofList (lineChars r)) := by
  have hs : r.left ++ " ::= " ++ String.ofList (chars false r.right) =
      String.ofList (lineChars r) := by
    apply String.toList_inj.mp
    simp [lineChars]
  rw [rule, element, Element.write_ok h.2, ← hs]
  rfl

theorem document_ok (h : ∀ r ∈ rules, WellFormed r) :
    document rules = .ok (String.ofList (['\n'].intercalate (rules.map lineChars))) := by
  have hm := mapM_eq_pure fun r hr => rule_ok (h r hr)
  have hs : "\n".intercalate (rules.map fun r => String.ofList (lineChars r)) =
      String.ofList (['\n'].intercalate (rules.map lineChars)) := by
    have hmap := Element.intercalate_eq "\n" (rules.map lineChars)
    rw [List.map_map] at hmap
    exact hmap
  rw [document, hm, ← hs]
  rfl

theorem spells_lineChars (h : WellFormed r) : Spells (lineChars r) (lineWords r) [] := by
  have hopens : Element.Opens (chars false r.right) := Element.opens_chars h.2 false
  have hend : Element.Fits [] := ⟨by simp, by simp, by simp⟩
  have hbody := Element.spelled_chars h.2 false [] hend
  rw [List.append_nil] at hbody
  have hmark : Element.Opens (':' :: ':' :: '=' :: ' ' :: chars false r.right) :=
    ⟨':', _, rfl, rfl, by decide⟩
  have hafter : Spells (' ' :: ':' :: ':' :: '=' :: ' ' :: chars false r.right)
      [(.doubleColon, "::"), (.assign, "=")] (chars false r.right) := by
    refine .blank (lexeme?_space rfl (Element.isSpace_of_opens hmark)) ?_
    refine .word (by rfl) (.word (lexeme?_mark rfl rfl fun _ _ => rfl) ?_)
    exact .blank (lexeme?_space rfl (Element.isSpace_of_opens hopens)) .done
  have hname := Element.spelled_ruleName h.1 _ (Element.fits_space hmark)
  exact spells_append hname (spells_append hafter hbody)

theorem line?_lineChars (h : WellFormed r) : line? (lineChars r) = some r := by
  obtain ⟨hstop, hwords⟩ := readFrom_of_spells (spells_lineChars h) .start
  have hproduction : production? (lineWords r) = some r := by
    have hbody := body?_words h.2
    have hp : production? (lineWords r) = (body? (words false r.right)).map (Rule.mk r.left) := rfl
    rw [hp, hbody]
    rfl
  rw [line?, readTokens, hstop, hwords]
  exact hproduction

end Lines

/-- A document of well-formed rules is read back as these rules. -/
theorem read?_document (h : ∀ r ∈ rules, WellFormed r) :
    ∃ doc, document rules = .ok doc ∧ read? doc = some rules := by
  refine ⟨_, document_ok h, ?_⟩
  cases rules with
  | nil => rfl
  | cons r rules =>
    have hlines : ∀ line ∈ (r :: rules).map lineChars, '\n' ∉ line := by
      intro line hl
      obtain ⟨q, hq, rfl⟩ := List.mem_map.mp hl
      exact lineFeed_notMem_lineChars (h q hq)
    have hsplit := List.splitOn_intercalate '\n' hlines (List.cons_ne_nil _ _)
    have hread : ((r :: rules).map lineChars).mapM line? = some (r :: rules) := by
      rw [List.mapM_map]
      have hm := mapM_eq_pure fun q hq => line?_lineChars (h q hq)
      rw [List.map_id'] at hm
      exact hm
    have hne : ['\n'].intercalate ((r :: rules).map lineChars) ≠ [] := by
      intro hnil
      rw [hnil, List.splitOn_nil, List.map_cons] at hsplit
      have hlength := congrArg List.length (List.cons.inj hsplit).1
      simp [lineChars] at hlength
    rw [read?, String.toList_ofList, if_neg hne, hsplit]
    exact hread

/-- Rules that were read from grammar source are read back from their document, so that no other
rules have the same one. -/
theorem document_determines_rules {text text' : String} {rules rules' : List Rule}
    (h : (parseRules text).result = .ok rules) (h' : (parseRules text').result = .ok rules') :
    ∃ doc doc', document rules = .ok doc ∧ document rules' = .ok doc' ∧
      read? doc = some rules ∧ (doc = doc' → rules = rules') := by
  obtain ⟨doc, hw, hr⟩ := read?_document (wellFormed_of_parseRules h)
  obtain ⟨doc', hw', hr'⟩ := read?_document (wellFormed_of_parseRules h')
  refine ⟨doc, doc', hw, hw', hr, fun heq => ?_⟩
  rw [heq] at hr
  exact Option.some.inj (hr.symm.trans hr')

theorem document_determines_rules_stacked :
    let text := "grammar G;\na : ((b?)* '\\'' | ('(' c+)+) ;\nb : 'x |' ;\n"
    let text' := "grammar G;\na : ((b*)? '\\'' | ('(' c+)+) ;\nb : 'x |' ;\n"
    let rules := [Rule.mk "a" (.choice [.seq [.star (.opt (.ref "b")), .atom "\\'"],
      .plus (.seq [.atom "(", .plus (.ref "c")])]), Rule.mk "b" (.atom "x |")]
    let rules' := [Rule.mk "a" (.choice [.seq [.opt (.star (.ref "b")), .atom "\\'"],
      .plus (.seq [.atom "(", .plus (.ref "c")])]), Rule.mk "b" (.atom "x |")]
    (parseRules text).result = .ok rules ∧ (parseRules text').result = .ok rules' ∧
      ∃ doc doc', document rules = .ok doc ∧ document rules' = .ok doc' ∧
        read? doc = some rules ∧ doc ≠ doc' := by
  intro text text' rules rules'
  have h : (parseRules text).result = .ok rules := eq_of_isRules (by decide +kernel)
  have h' : (parseRules text').result = .ok rules' := eq_of_isRules (by decide +kernel)
  obtain ⟨doc, doc', hw, hw', hr, himp⟩ := document_determines_rules h h'
  refine ⟨h, h', doc, doc', hw, hw', hr, fun heq => ?_⟩
  have hrules := himp heq
  simp [rules, rules'] at hrules

end GrammarDoc.Ebnf
