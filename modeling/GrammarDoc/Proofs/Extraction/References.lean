import GrammarDoc.Proofs.Extraction.Preserving
import GrammarDoc.Proofs.Rendering.RoundTrip

namespace GrammarDoc

open Source
open Source.SyntaxTree
open Node (ofSyntaxTree ofSyntaxTrees)

namespace Element

mutual

/-- The literals and the names in an element from left to right. -/
def symbols : Element → List Symbol
  | atom body => [.literal body]
  | ref name => [.name name]
  | opt e => symbols e
  | plus e => symbols e
  | star e => symbols e
  | choice es => symbolsOfAll es
  | seq es => symbolsOfAll es
  | foreign _ => []

def symbolsOfAll : List Element → List Symbol
  | [] => []
  | e :: es => symbols e ++ symbolsOfAll es

end

theorem symbolsOfAll_eq_flatMap (es : List Element) : symbolsOfAll es = es.flatMap symbols := by
  induction es with
  | nil => rfl
  | cons e es ih => rw [symbolsOfAll, ih, List.flatMap_cons]

theorem symbols_applySuffix (suffix? : Option Node) (e : Element) :
    (e.applySuffix suffix?).symbols = e.symbols := by
  unfold applySuffix
  split
  · rfl
  · split
    · rfl
    · split
      · rfl
      · split <;> rfl

end Element

namespace Source.SyntaxTree

mutual

/-- The literals and the names in the atoms of a tree, in the order of the source. -/
def references : SyntaxTree → List Token
  | token _ => []
  | node c _ children =>
    if c = .atom then
      (leavesOfAll children).filter (·.kind ∈ [.tokenName, .literal, .ruleName])
    else referencesOfAll children

def referencesOfAll : List SyntaxTree → List Token
  | [] => []
  | t :: ts => references t ++ referencesOfAll ts

end

theorem referencesOfAll_append (ts us : List SyntaxTree) :
    referencesOfAll (ts ++ us) = referencesOfAll ts ++ referencesOfAll us := by
  induction ts with
  | nil => rfl
  | cons t ts ih => rw [List.cons_append, referencesOfAll, ih, referencesOfAll, List.append_assoc]

theorem referencesOfAll_singleton (t : SyntaxTree) : referencesOfAll [t] = t.references :=
  List.append_nil _

end Source.SyntaxTree

/-- A literal holds pairs of a backslash and another character, and else neither quotes nor line
breaks; a name is a word that is no keyword. -/
def Symbol.WellLexed : Symbol → Prop
  | .literal body => LiteralBody body.toList
  | .name word =>
    IsName (fun c => isSmall c || isCapital c) word.toList ∧ word ∉ keywords.map Prod.fst

/-- A rule has the name that its parser rule starts with and the one element in it, and refers to
what the parser rule refers to, in the same order. -/
structure Transcribes (t : SyntaxTree) (r : Rule) : Prop where
  name : t.leaves.head?.map Token.word = some (.ruleName, r.left)
  body : (ofSyntaxTree t).visit = .ok [r.right]
  symbols : r.right.symbols = t.references.map symbolOf

variable {trees : List SyntaxTree} {ts : List Token} {span? : Option Text.Span} {r : Rule}
variable {xs es : List Element} {e : Element}

theorem symbols_element {t : Token} (ht : t.kind = .literal → Quoted t) :
    t.element.symbols = [symbolOf t] := by
  unfold Token.element symbolOf
  split
  next hk =>
    obtain ⟨body, hb⟩ := ht hk
    simp [Element.symbols, Node.unquoted, hb]
  next => rfl

/-- Groups and suffixes keep the order of what is in them. -/
theorem symbols_of_wraps (h : Wraps xs es) :
    es.flatMap Element.symbols = xs.flatMap Element.symbols := by
  cases h with
  | same => rfl
  | choice => rw [List.flatMap_singleton, Element.symbols, Element.symbolsOfAll_eq_flatMap]
  | seq => rw [List.flatMap_singleton, Element.symbols, Element.symbolsOfAll_eq_flatMap]
  | suffixed suffix? =>
    rw [List.flatMap_map]
    exact List.flatMap_congr fun e _ => Element.symbols_applySuffix suffix? e

/-- Extraction loses no reference, and puts none in another place. -/
theorem symbols_of_makes (h : Makes trees ts es) (hq : ∀ t ∈ ts, t.kind = .literal → Quoted t) :
    es.flatMap Element.symbols = (referencesOfAll trees).map symbolOf := by
  induction h with
  | nothing => rfl
  | token => rfl
  | @atom _ trees ts t ht hr =>
    rw [referencesOfAll_singleton, references, if_pos rfl, hr, List.flatMap_singleton,
      symbols_element (hq t ht)]
    rfl
  | node hc _ hw ih =>
    rw [referencesOfAll_singleton, references, if_neg hc, symbols_of_wraps hw, ih hq]
  | append _ _ ih ih' =>
    have ih := ih fun t ht => hq t (List.mem_append_left _ ht)
    have ih' := ih' fun t ht => hq t (List.mem_append_right _ ht)
    rw [referencesOfAll_append, List.flatMap_append, List.map_append, ih, ih']

theorem transcribes_of_ruleOf (h : Instantiates Construct.parserRuleSpec.form trees ts)
    (hq : ∀ t ∈ ts, t.kind = .literal → Quoted t)
    (hr : (ofSyntaxTree (.node .parserRuleSpec span? trees)).ruleOf = .ok r) :
    Transcribes (.node .parserRuleSpec span? trees) r where
  name := by
    obtain ⟨u, rest, _, rfl, -, hk, hl, -⟩ := exists_name_of_ruleOf h hr
    rw [hl, ← hk]
    rfl
  body := visit_of_ruleOf h hq hr
  symbols := by
    have hmakes := makes_parserRuleSpec h (visit_of_ruleOf h hq hr)
    have hsymbols := symbols_of_makes hmakes hq
    rwa [List.flatMap_singleton, referencesOfAll_singleton] at hsymbols

theorem not_mem_keywords_of_lookup {name : String} (h : keywords.lookup name = none) :
    name ∉ keywords.map Prod.fst := by
  intro hm
  obtain ⟨p, hp, rfl⟩ := List.mem_map.mp hm
  have hne := List.lookup_eq_none_iff.mp h p hp
  simp at hne

theorem not_mem_keywords_of_isCapital {name : String} (h : IsTokenName name) :
    name ∉ keywords.map Prod.fst := by
  have hsmall : ∀ word ∈ keywords.map Prod.fst, word.toList.head?.map isCapital = some false := by
    decide
  intro hm
  obtain ⟨c, tail, hname, hc, -⟩ := h
  have hfirst := hsmall name hm
  rw [hname] at hfirst
  simp [hc] at hfirst

theorem wellLexed_name {first : Char → Bool} {name : String}
    (hf : ∀ c, first c → isSmall c || isCapital c) (hn : IsName first name.toList)
    (hk : name ∉ keywords.map Prod.fst) : Symbol.WellLexed (.name name) := by
  obtain ⟨c, tail, hname, hc, ht⟩ := hn
  exact ⟨⟨c, tail, hname, hf c hc, ht⟩, hk⟩

theorem wellLexed_symbolsOfAll (h : ∀ e ∈ es, ∀ s ∈ e.symbols, s.WellLexed) :
    ∀ s ∈ Element.symbolsOfAll es, s.WellLexed := by
  intro s hs
  rw [Element.symbolsOfAll_eq_flatMap] at hs
  obtain ⟨e, he, hs⟩ := List.mem_flatMap.mp hs
  exact h e he s hs

theorem wellLexed_of_wellFormed (h : e.WellFormed) : ∀ s ∈ e.symbols, s.WellLexed := by
  induction h with
  | atom hb =>
    have hbody : Symbol.WellLexed (.literal _) := hb
    simpa [Element.symbols] using hbody
  | ruleName hn =>
    have hword := wellLexed_name (by simp +contextual) hn.1 (not_mem_keywords_of_lookup hn.2)
    simpa [Element.symbols] using hword
  | tokenName hn =>
    have hword := wellLexed_name (by simp +contextual) hn (not_mem_keywords_of_isCapital hn)
    simpa [Element.symbols] using hword
  | opt _ ih => exact ih
  | plus _ ih => exact ih
  | star _ ih => exact ih
  | choice _ _ ih => exact wellLexed_symbolsOfAll ih
  | seq _ _ ih => exact wellLexed_symbolsOfAll ih

/-- No rule is lost, made up, repeated or moved: the rules that are read are the parser rules of the
source one by one, each with exactly its references, and all their names and literals are lexed
well. -/
theorem parseRules_transcribes {text : String} {rules : List Rule}
    (h : (parseRules text).result = .ok rules) :
    ∃ tree, (parseGrammar text).result = .ok tree ∧
      List.Forall₂ Transcribes tree.parserRules rules ∧
      ∀ r ∈ rules, IsName isSmall r.left.toList ∧ r.left ∉ keywords.map Prod.fst ∧
        ∀ s ∈ r.right.symbols, s.WellLexed := by
  obtain ⟨tree, ht, hm⟩ := parseRules_ok_iff.mp h
  refine ⟨tree, ht, ?_, fun r hr => ?_⟩
  · obtain ⟨cs, rfl, hi⟩ := exists_instance_of_parseGrammar ht
    have hi : Instantiates (.rule .grammarSpec) [_] _ := .node rfl hi
    rw [List.mapM_map] at hm
    refine (forall₂_of_mapM hm).imp fun t r htr => ?_
    obtain ⟨ht, hr⟩ := htr
    rw [← parserRulesOfAll_singleton] at ht
    obtain ⟨cs, us, rfl, hi, hu⟩ := exists_instance_of_mem_parserRules hi t ht
    exact transcribes_of_ruleOf hi (fun u hm => quoted_of_mem_tokens (hu u hm)) hr
  · obtain ⟨⟨hname, hkeyword⟩, hbody⟩ := wellFormed_of_parseRules h r hr
    exact ⟨hname, not_mem_keywords_of_lookup hkeyword, wellLexed_of_wellFormed hbody⟩

/-- Labels, fragments and modes leave no trace, and an escaped quote is kept. -/
theorem parseRules_transcribes_labeled :
    let text := "grammar G;\na : x=('\\'' | C)* y+=b // 'n\n  # One | c ;\nC : 'c' ;\n" ++
      "fragment D : . ;\nb : 'b'? ;\nmode M;\nE : 'e' ;\n"
    let rules := [Rule.mk "a" (.choice [.seq [.star (.choice [.atom "\\'", .ref "C"]), .ref "b"],
      .ref "c"]), Rule.mk "b" (.opt (.atom "b"))]
    (parseRules text).result = .ok rules ∧
      ∃ tree, (parseGrammar text).result = .ok tree ∧
        List.Forall₂ Transcribes tree.parserRules rules ∧
        ∀ r ∈ rules, IsName isSmall r.left.toList ∧ r.left ∉ keywords.map Prod.fst ∧
          ∀ s ∈ r.right.symbols, s.WellLexed := by
  intro text rules
  have h : (parseRules text).result = .ok rules := eq_of_isRules (by decide +kernel)
  exact ⟨h, parseRules_transcribes h⟩

end GrammarDoc
