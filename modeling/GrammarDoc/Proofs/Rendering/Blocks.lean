import GrammarDoc.Proofs.Rendering.RoundTrip
import GrammarDoc.Proofs.Text.Pieces
import GrammarDoc.Rendering.Markdown

namespace GrammarDoc

open Source

namespace Element

mutual

/-- An element and all elements in it, at any depth. -/
def within : Element → List Element
  | opt e => opt e :: within e
  | plus e => plus e :: within e
  | star e => star e :: within e
  | choice es => choice es :: withinAll es
  | seq es => seq es :: withinAll es
  | e => [e]

def withinAll : List Element → List Element
  | [] => []
  | e :: es => within e ++ withinAll es

end

/-- The number of lines that an element takes as the body of a rule. -/
def lineCount : Element → Nat
  | choice es => es.length
  | seq es => if 4 < es.length then es.length else 1
  | _ => 1

variable {e : Element} {es : List Element}

theorem withinAll_eq_flatMap (es : List Element) : withinAll es = es.flatMap within := by
  induction es with
  | nil => rfl
  | cons e es ih => rw [withinAll, ih, List.flatMap_cons]

theorem wellFormed_withinAll (h : ∀ e ∈ es, ∀ x ∈ e.within, x.WellFormed) :
    ∀ x ∈ withinAll es, x.WellFormed := by
  intro x hx
  rw [withinAll_eq_flatMap] at hx
  obtain ⟨e, he, hx⟩ := List.mem_flatMap.mp hx
  exact h e he x hx

theorem WellFormed.within (h : e.WellFormed) : ∀ x ∈ e.within, x.WellFormed := by
  induction h with
  | atom hs => exact List.forall_mem_singleton.mpr (.atom hs)
  | ruleName hs => exact List.forall_mem_singleton.mpr (.ruleName hs)
  | tokenName hs => exact List.forall_mem_singleton.mpr (.tokenName hs)
  | opt h ih => exact List.forall_mem_cons.mpr ⟨.opt h, ih⟩
  | plus h ih => exact List.forall_mem_cons.mpr ⟨.plus h, ih⟩
  | star h ih => exact List.forall_mem_cons.mpr ⟨.star h, ih⟩
  | choice hl h ih => exact List.forall_mem_cons.mpr ⟨.choice hl h, wellFormed_withinAll ih⟩
  | seq hl h ih => exact List.forall_mem_cons.mpr ⟨.seq hl h, wellFormed_withinAll ih⟩

end Element

namespace Markdown

open Text (IsLine HasLines append_ne_empty_left append_ne_empty_right isLine_append
  isLine_intercalate isLine_parenthesized)

variable {e : Element} {es : List Element} {s : String} {place : Place}

section Inline

theorem isLine_of_isName {first : Char → Bool} (hf : ∀ c, first c → isNameChar c)
    (h : IsName first s.toList) : IsLine s :=
  lineFeed_notMem_of_isName hf h

theorem writeMembers_eq_mapM (es : List Element) :
    writeMembers es = es.mapM (write .member) := by
  induction es with
  | nil => rfl
  | cons e es ih => rw [writeMembers, ih, List.mapM_cons]

/-- The members of a group are written on one line each. -/
theorem exists_members_lines (h : ∀ e ∈ es, ∃ text, write .member e = .ok text ∧ IsLine text) :
    ∃ texts, writeMembers es = .ok texts ∧ texts.length = es.length ∧ ∀ t ∈ texts, IsLine t := by
  obtain ⟨texts, hw, hlines⟩ := exists_mapM h
  exact ⟨texts, (writeMembers_eq_mapM es).trans hw, hlines.length_eq.symm,
    forall_of_forall₂ hlines⟩

theorem choiceSeparator_inline (h : place ≠ .body) : choiceSeparator place = " | " :=
  if_neg h

theorem seqSeparator_inline (h : place ≠ .body) (size : Nat) : seqSeparator place size = " " :=
  if_neg fun hp => h hp.1

theorem isLine_anchor (h : IsLine s) : IsLine (anchor s) :=
  isLine_append (by decide) h

theorem isLine_link (h : IsLine s) : IsLine ("_[" ++ s ++ "](#" ++ anchor s ++ ")_") :=
  isLine_append (isLine_append (isLine_append (isLine_append (by decide) h) (by decide))
    (isLine_anchor h)) (by decide)

/-- Only the body of a rule is broken into lines. -/
theorem exists_inline (h : e.WellFormed) :
    ∀ place, place ≠ .body → ∃ text, write place e = .ok text ∧ IsLine text := by
  induction h with
  | @atom s hs =>
    intro place _
    have hline : IsLine s := lineFeed_notMem_of_literalBody hs
    exact ⟨_, rfl, isLine_append (isLine_append (by decide) hline) (by decide)⟩
  | ruleName hs =>
    intro place _
    exact ⟨_, rfl, isLine_link (isLine_of_isName (fun _ => isNameChar_of_isSmall) hs.1)⟩
  | tokenName hs =>
    intro place _
    exact ⟨_, rfl, isLine_link (isLine_of_isName (fun _ => isNameChar_of_isCapital) hs)⟩
  | opt _ ih =>
    intro place _
    obtain ⟨text, hw, ht⟩ := ih .bracketed (by decide)
    exact ⟨_, by rw [write, hw]; rfl, isLine_append (isLine_append (by decide) ht) (by decide)⟩
  | plus _ ih =>
    intro place _
    obtain ⟨text, hw, ht⟩ := ih .bracketed (by decide)
    refine ⟨_, by rw [write, hw]; rfl, isLine_parenthesized _ ?_⟩
    exact isLine_append (isLine_append (isLine_append ht (by decide)) ht) (by decide)
  | star _ ih =>
    intro place _
    obtain ⟨text, hw, ht⟩ := ih .bracketed (by decide)
    exact ⟨_, by rw [write, hw]; rfl, isLine_append (isLine_append (by decide) ht) (by decide)⟩
  | choice _ _ ih =>
    intro place hp
    obtain ⟨texts, hw, -, ht⟩ := exists_members_lines fun e he => ih e he .member (by decide)
    refine ⟨_, by rw [write, hw]; rfl, isLine_parenthesized _ ?_⟩
    rw [choiceSeparator_inline hp]
    exact isLine_intercalate (by decide) ht
  | seq _ _ ih =>
    intro place hp
    obtain ⟨texts, hw, -, ht⟩ := exists_members_lines fun e he => ih e he .member (by decide)
    refine ⟨_, by rw [write, hw]; rfl, isLine_parenthesized _ ?_⟩
    rw [seqSeparator_inline hp]
    exact isLine_intercalate (by decide) ht

end Inline

section Body

variable {texts lines : List String}

/-- Two spaces before its line break, so that Markdown keeps the break. -/
def IsBroken (line : String) : Prop :=
  ∃ start, line = start ++ "  "

/-- The lines of a text that is put together with hard breaks. -/
theorem exists_lines (lead start : String) (hn : lead ≠ "") (hl : IsLine lead) (hsn : start ≠ "")
    (hs : IsLine start) (ht : texts ≠ []) (h : ∀ t ∈ texts, IsLine t) :
    ∃ lines, HasLines (start ++ (hardBreak ++ lead).intercalate texts) lines ∧
      lines.length = texts.length ∧ ∀ line ∈ lines.dropLast, IsBroken line := by
  -- What leads a member to its line is the start of the lines from it on.
  induction texts generalizing start with
  | nil => exact absurd rfl ht
  | cons t texts ih =>
    have hline : IsLine t := h t List.mem_cons_self
    cases texts with
    | nil =>
      have hfirst : start ++ t ≠ "" := append_ne_empty_left hsn
      refine ⟨[start ++ t], ?_, rfl, by simp⟩
      simpa using HasLines.line hfirst (isLine_append hs hline)
    | cons t' texts =>
      obtain ⟨lines, hlines, hlen, hbroken⟩ := ih lead hn hl (List.cons_ne_nil _ _)
        fun x hx => h x (List.mem_cons_of_mem _ hx)
      have hfirst : start ++ t ++ "  " ≠ "" := append_ne_empty_right (by decide)
      have hparts : start ++ (hardBreak ++ lead).intercalate (t :: t' :: texts) =
          start ++ t ++ "  " ++
            ("\n" ++ (lead ++ (hardBreak ++ lead).intercalate (t' :: texts))) := by
        rw [String.intercalate_cons_cons]
        apply String.toList_inj.mp
        simp [hardBreak]
      refine ⟨(start ++ t ++ "  ") :: lines, ?_, by simp [hlen], ?_⟩
      · rw [hparts]
        exact .cons hfirst (isLine_append (isLine_append hs hline) (by decide)) hlines
      · rw [List.dropLast_cons_of_ne_nil hlines.ne_nil]
        exact List.forall_mem_cons.mpr ⟨⟨_, rfl⟩, hbroken⟩

/-- The lines of an element as the body of a rule, behind the marker of a definition. -/
structure HasBody (e : Element) (text : String) (lines : List String) : Prop where
  marked : HasLines (" ~ " ++ text) lines
  count : lines.length = e.lineCount
  broken : ∀ line ∈ lines.dropLast, IsBroken line

theorem hasBody_line (hc : e.lineCount = 1) (h : IsLine s) : HasBody e s [" ~ " ++ s] := by
  have hn : " ~ " ++ s ≠ "" := append_ne_empty_left (by decide)
  exact ⟨.line hn (isLine_append (by decide) h), hc.symm, by simp⟩

/-- The members of a group stand on their own lines if the text between them breaks the line. -/
theorem exists_body_members (lead : String) (hn : lead ≠ "") (hl : IsLine lead) (ht : texts ≠ [])
    (hc : texts.length = e.lineCount) (h : ∀ t ∈ texts, IsLine t) :
    ∃ lines, HasBody e ((hardBreak ++ lead).intercalate texts) lines := by
  obtain ⟨lines, hlines, hlen, hbroken⟩ :=
    exists_lines lead " ~ " hn hl (by decide) (by decide) ht h
  exact ⟨lines, hlines, hlen.trans hc, hbroken⟩

theorem exists_body (h : e.WellFormed) :
    ∃ text lines, write .body e = .ok text ∧ HasBody e text lines := by
  -- Only a choice and a sequence are written otherwise than between brackets.
  have hsingle : e.lineCount = 1 → write .body e = write .bracketed e →
      ∃ text lines, write .body e = .ok text ∧ HasBody e text lines := by
    intro hc hw
    obtain ⟨text, hb, ht⟩ := exists_inline h .bracketed (by decide)
    exact ⟨text, _, hw.trans hb, hasBody_line hc ht⟩
  cases h with
  | atom | ruleName | tokenName | opt | plus | star => exact hsingle rfl rfl
  | @choice es hl hes =>
    obtain ⟨texts, hw, hlen, ht⟩ := exists_members_lines fun e he =>
      exists_inline (hes e he) .member (by decide)
    have hne : texts ≠ [] := List.ne_nil_of_length_pos (by omega)
    obtain ⟨lines, hlines⟩ := exists_body_members (e := .choice es) " | " (by decide)
      (by decide) hne hlen ht
    exact ⟨_, lines, by rw [write, hw]; rfl, hlines⟩
  | @seq es hl hes =>
    obtain ⟨texts, hw, hlen, ht⟩ := exists_members_lines fun e he =>
      exists_inline (hes e he) .member (by decide)
    have hne : texts ≠ [] := List.ne_nil_of_length_pos (by omega)
    by_cases hlong : inlineLimit < es.length
    · have hc : texts.length = (Element.seq es).lineCount := hlen.trans (if_pos hlong).symm
      have hsep : seqSeparator .body es.length = hardBreak ++ "   " := if_pos ⟨rfl, hlong⟩
      obtain ⟨lines, hlines⟩ := exists_body_members "   " (by decide) (by decide) hne hc ht
      exact ⟨_, lines, by rw [write, hw, hsep]; rfl, hlines⟩
    · have hsep : seqSeparator .body es.length = seqSeparator .bracketed es.length :=
        (if_neg fun hp => hlong hp.2).trans (if_neg fun hp => absurd hp.1 (by decide)).symm
      refine hsingle (if_neg hlong) ?_
      rw [write, write, hsep]
      rfl

end Body

section Document

variable {r : Rule} {rules : List Rule}

/-- The line with the name of a rule. -/
def heading (name : String) : String :=
  "**_" ++ name ++ "_:**"

/-- The line that opens a block with its rule's anchor. -/
def opening (name : String) : String :=
  ":::\x7b .grammar-rule #" ++ anchor name ++ " \x7d"

/-- A text is the block of a rule: between the marks of its anchor, if there are any, a line with
the rule's name and then the lines of its body. -/
structure IsBlock (divs : Bool) (r : Rule) (text : String) : Prop where
  written : block divs r = .ok text
  lines : ∃ body, body.length = r.right.lineCount ∧ (∀ line ∈ body.dropLast, IsBroken line) ∧
    Text.pieces "\n" text = (if divs then [opening r.left] else []) ++
      heading r.left :: body ++ (if divs then [":::"] else [])

theorem isLine_left (h : IsRuleName r.left) : IsLine r.left :=
  isLine_of_isName (fun _ => isNameChar_of_isSmall) h.1

theorem hasLines_heading {name : String} (h : IsLine name) :
    HasLines (heading name) [heading name] := by
  have hn : heading name ≠ "" := append_ne_empty_right (by decide)
  exact .line hn (isLine_append (isLine_append (by decide) h) (by decide))

theorem hasLines_opening {name : String} (h : IsLine name) :
    HasLines (opening name) [opening name] := by
  have hn : opening name ≠ "" := append_ne_empty_right (by decide)
  exact .line hn (isLine_append (isLine_append (by decide) (isLine_anchor h)) (by decide))

theorem hasLines_fenced {name text : String} {lines : List String} (hname : IsLine name)
    (h : HasLines text lines) :
    HasLines (fenced name text) ([opening name] ++ lines ++ [":::"]) := by
  have hclosing : HasLines ":::" [":::"] := .line (by decide) (by decide)
  have hopening : " \x7d\n" = " \x7d" ++ "\n" := rfl
  have hlast : "\n:::" = "\n" ++ ":::" := rfl
  have hparts : fenced name text = opening name ++ ("\n" ++ text) ++ ("\n" ++ ":::") := by
    unfold fenced opening
    rw [hopening, hlast]
    simp only [String.append_assoc]
  rw [hparts]
  exact ((hasLines_opening hname).append h).append hclosing

/-- The line breaks of a block stand between lines that are not empty. -/
theorem exists_block (divs : Bool) (h : Ebnf.WellFormed r) :
    ∃ text lines, IsBlock divs r text ∧ HasLines text lines := by
  obtain ⟨text, body, hw, hbody, hlen, hbroken⟩ := exists_body h.2
  have hname := isLine_left h.1
  have hlines := (hasLines_heading hname).append hbody
  have hrule : rule r = .ok (heading r.left ++ ("\n" ++ (" ~ " ++ text))) := by
    rw [rule, element, if_pos rfl, hw]
    apply congrArg Except.ok
    apply String.toList_inj.mp
    simp [heading]
  cases divs with
  | false =>
    have hw : block false r = .ok (heading r.left ++ ("\n" ++ (" ~ " ++ text))) := by
      rw [block, hrule]
      rfl
    refine ⟨_, _, ⟨hw, body, hlen, hbroken, ?_⟩, hlines⟩
    simpa using hlines.pieces_eq
  | true =>
    have hw : block true r = .ok (fenced r.left (heading r.left ++ ("\n" ++ (" ~ " ++ text)))) := by
      rw [block, hrule]
      rfl
    have hfenced := hasLines_fenced hname hlines
    refine ⟨_, _, ⟨hw, body, hlen, hbroken, ?_⟩, hfenced⟩
    simpa using hfenced.pieces_eq

theorem exists_document (divs : Bool) (h : ∀ r ∈ rules, Ebnf.WellFormed r) :
    ∃ texts, document divs rules = .ok ("\n\n".intercalate texts) ∧
      List.Forall₂ (IsBlock divs) rules texts ∧
      ∀ text ∈ texts, Text.Avoids "\n\n".toList text.toList := by
  have hblocks : ∀ r ∈ rules, ∃ text, block divs r = .ok text ∧
      (IsBlock divs r text ∧ Text.Avoids "\n\n".toList text.toList) := by
    intro r hr
    obtain ⟨text, lines, hb, hl⟩ := exists_block divs (h r hr)
    exact ⟨text, hb.written, hb, hl.avoids⟩
  obtain ⟨texts, hm, hall⟩ := exists_mapM hblocks
  refine ⟨texts, ?_, hall.imp fun _ _ hb => hb.1, forall_of_forall₂ (hall.imp fun _ _ hb => hb.2)⟩
  rw [document, hm]
  rfl

/-- A document is split back into its blocks at the blank lines, and nothing but the body of a rule
is broken into lines. -/
theorem document_splits_into_blocks {text : String}
    (h : (parseRules text).result = .ok rules) (hn : rules ≠ []) (divs : Bool) :
    (∃ doc, document divs rules = .ok doc ∧
        List.Forall₂ (IsBlock divs) rules (Text.pieces "\n\n" doc)) ∧
      ∀ r ∈ rules, ∀ e ∈ r.right.within, ∃ inline, element false e = .ok inline ∧
        IsLine inline := by
  have hwf := wellFormed_of_parseRules h
  refine ⟨?_, fun r hr e he => exists_inline ((hwf r hr).2.within e he) .bracketed (by decide)⟩
  obtain ⟨texts, hd, hbs, hls⟩ := exists_document divs hwf
  have hne : texts ≠ [] := by
    rintro rfl
    exact hn (List.forall₂_nil_right_iff.mp hbs)
  have hp := Text.pieces_intercalate (by decide) hne hls
  refine ⟨"\n\n".intercalate texts, hd, ?_⟩
  rw [hp]
  exact hbs

/-- A literal with an escaped break and a nested choice break no line. -/
theorem document_splits_into_blocks_fenced :
    let text := "grammar G;\na : ('\\n' | C)* y+=b '::: '? D a ;\nC : 'c' ;\n" ++
      "b : '' | c d | e+ ;\nD : . ;\nc : 'c' ;\nd : 'd' ;\ne : 'e' ;"
    let rules := [Rule.mk "a" (.seq [.star (.choice [.atom "\\n", .ref "C"]), .ref "b",
      .opt (.atom "::: "), .ref "D", .ref "a"]),
      Rule.mk "b" (.choice [.atom "", .seq [.ref "c", .ref "d"], .plus (.ref "e")]),
      Rule.mk "c" (.atom "c"), Rule.mk "d" (.atom "d"), Rule.mk "e" (.atom "e")]
    ((parseRules text).result = .ok rules ∧ rules ≠ []) ∧
      (∃ doc, document true rules = .ok doc ∧
        List.Forall₂ (IsBlock true) rules (Text.pieces "\n\n" doc)) ∧
      ∀ r ∈ rules, ∀ e ∈ r.right.within, ∃ inline, element false e = .ok inline ∧
        IsLine inline := by
  intro text rules
  have h : (parseRules text).result = .ok rules := eq_of_isRules (by decide +kernel)
  have hn : rules ≠ [] := List.cons_ne_nil _ _
  exact ⟨⟨h, hn⟩, document_splits_into_blocks h hn true⟩

end Document

end Markdown
end GrammarDoc
