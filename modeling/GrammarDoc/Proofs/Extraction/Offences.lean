import GrammarDoc.Extraction.Error
import GrammarDoc.Proofs.Parsing.Matching
import GrammarDoc.Proofs.Source.Stretches
import GrammarDoc.Source.SyntaxTree

namespace GrammarDoc

open Parsing (Form Matches)
open Parsing.Derivation (tokensOfAll)
open Source (Construct Derivation Token TokenKind)

/-- What no element can be made of, with the first token that it covers: an atom that names nothing,
or an alternative that holds only actions and predicates. -/
inductive Offence where
  | wildcard (first? : Option Token)
  | notSet (first? : Option Token)
  | bareAlternative (first? : Option Token)
deriving Repr, DecidableEq

namespace Offence

def first? : Offence → Option Token
  | wildcard first? => first?
  | notSet first? => first?
  | bareAlternative first? => first?

/-- The line of the first token. -/
def line? (o : Offence) : Option Int :=
  o.first?.map fun t => t.span.first.line

/-- The report of an offence. Only that of an alternative names the rule that holds it. -/
def error (rule? : Option String) (line? : Option Int) : Offence → ExtractionError
  | wildcard _ => .unrecognizedAtom "wildcard" line?
  | notSet _ => .unrecognizedAtom "not_set" line?
  | bareAlternative _ => .emptyAlternative rule? line?

/-- The line on which an offence starts in a text. An alternative without a token has none. -/
inductive OnLine (cs : List Char) : Offence → Option Int → Prop
  | token {o : Offence} {t : Token} {s : Stretch Source.Lexeme} : o.first? = some t →
      s ∈ Source.lexed cs → Source.tokenIn cs s = some t →
      OnLine cs o (some (Text.lineAt cs s.first))
  | none : OnLine cs (.bareAlternative none) none

/-- An offence starts with one of some tokens. Only an alternative may cover no token at all. -/
def StartsIn (ts : List Token) (o : Offence) : Prop :=
  (∃ t ∈ ts, o.first? = some t) ∨ o = .bareAlternative none

theorem StartsIn.mono {ts us : List Token} {o : Offence} (h : StartsIn ts o) (hs : ts ⊆ us) :
    StartsIn us o := by
  rcases h with ⟨t, ht, ho⟩ | ho
  · exact .inl ⟨t, hs ht, ho⟩
  · exact .inr ho

end Offence

namespace Source

/-- An element other than an action or a predicate; these two start with a brace block. -/
def isElement : Derivation → Bool
  | .node .element (.leaf t _ :: _) => t.kind != .braceBlock
  | .node .element _ => true
  | _ => false

/-- The offence that a node is by itself. -/
def offence? (c : Construct) (ds : List Derivation) : Option Offence :=
  match c, ds with
  | .atom, [.node .wildcard es] => some (.wildcard (tokensOfAll es).head?)
  | .atom, [.node .notSet es] => some (.notSet (tokensOfAll es).head?)
  | .alternative, ds =>
    if ds.any isElement then none else some (.bareAlternative (tokensOfAll ds).head?)
  | _, _ => none

mutual

/-- The offences in a derivation, depth first and from left to right. -/
def offences : Derivation → List Offence
  | .leaf _ _ => []
  | .node c ds =>
    match offence? c ds with
    | some o => [o]
    | none => offencesOfAll ds

def offencesOfAll : List Derivation → List Offence
  | [] => []
  | d :: ds => offences d ++ offencesOfAll ds

end

/-- A parser rule has the name that its first token is. -/
def ruleNameOf (ds : List Derivation) : String :=
  ((tokensOfAll ds).head?.map Token.text).getD ""

mutual

/-- The children of each parser rule, in the order in which the rules are declared. -/
def parserRulesIn : Derivation → List (List Derivation)
  | .leaf _ _ => []
  | .node c ds => if c = .parserRuleSpec then [ds] else parserRulesInAll ds

def parserRulesInAll : List Derivation → List (List Derivation)
  | [] => []
  | d :: ds => parserRulesIn d ++ parserRulesInAll ds

end

/-- The offences in the parser rules of a grammar, each with the name of its rule. -/
def ruleOffences (d : Derivation) : List (String × Offence) :=
  (parserRulesIn d).flatMap fun ds => (offencesOfAll ds).map fun o => (ruleNameOf ds, o)

variable {c : Construct} {f : Form TokenKind Construct} {ds es : List Derivation}
variable {ts : List Token} {o : Offence}

theorem offencesOfAll_append (ds es : List Derivation) :
    offencesOfAll (ds ++ es) = offencesOfAll ds ++ offencesOfAll es := by
  induction ds with
  | nil => rfl
  | cons d ds ih => simp [offencesOfAll, ih]

theorem offencesOfAll_singleton (d : Derivation) : offencesOfAll [d] = offences d :=
  List.append_nil _

theorem parserRulesInAll_append (ds es : List Derivation) :
    parserRulesInAll (ds ++ es) = parserRulesInAll ds ++ parserRulesInAll es := by
  induction ds with
  | nil => rfl
  | cons d ds ih => simp [parserRulesInAll, ih]

theorem parserRulesInAll_singleton (d : Derivation) : parserRulesInAll [d] = parserRulesIn d :=
  List.append_nil _

theorem offences_of_none (h : offence? c ds = none) :
    offences (.node c ds) = offencesOfAll ds := by
  rw [offences, h]

theorem offences_of_some (h : offence? c ds = some o) : offences (.node c ds) = [o] := by
  rw [offences, h]

/-- An atom is one node, which is what it starts with. -/
theorem atom_of_matches (h : Matches Token.kind Construct.form Construct.atom.form ds ts) :
    ∃ c es, c ∈ [.terminal, .ruleref, .notSet, .wildcard] ∧ ds = [.node c es] ∧
      Matches Token.kind Construct.form c.form es ts := by
  rcases Parsing.matches_alt_iff.mp h with h | h
  · obtain ⟨es, rfl, hm⟩ := Parsing.matches_rule_iff.mp h
    exact ⟨_, es, by decide, rfl, hm⟩
  rcases Parsing.matches_alt_iff.mp h with h | h
  · obtain ⟨es, rfl, hm⟩ := Parsing.matches_rule_iff.mp h
    exact ⟨_, es, by decide, rfl, hm⟩
  rcases Parsing.matches_alt_iff.mp h with h | h
  all_goals
    obtain ⟨es, rfl, hm⟩ := Parsing.matches_rule_iff.mp h
    exact ⟨_, es, by decide, rfl, hm⟩

theorem exists_first_of_notSet (h : Matches Token.kind Construct.form Construct.notSet.form es ts) :
    ∃ t ∈ ts, (tokensOfAll es).head? = some t := by
  rw [h.tokens]
  obtain ⟨_, _, _, us, -, rfl, h, -⟩ := Parsing.matches_seq_iff.mp h
  obtain ⟨t, -, -, rfl⟩ := Parsing.matches_hidden_iff.mp h
  exact ⟨t, List.mem_cons_self, rfl⟩

theorem exists_first_of_wildcard
    (h : Matches Token.kind Construct.form Construct.wildcard.form es ts) :
    ∃ t ∈ ts, (tokensOfAll es).head? = some t := by
  rw [h.tokens]
  obtain ⟨_, _, _, us, -, rfl, h, -⟩ := Parsing.matches_seq_iff.mp h
  obtain ⟨t, -, -, rfl⟩ := Parsing.matches_shown_iff.mp h
  exact ⟨t, List.mem_cons_self, rfl⟩

theorem startsIn_of_offence? (h : Matches Token.kind Construct.form c.form ds ts)
    (ho : offence? c ds = some o) : o.StartsIn ts := by
  cases c with
  | atom =>
    obtain ⟨c, es, hc, rfl, hm⟩ := atom_of_matches h
    simp only [List.mem_cons, List.not_mem_nil, or_false] at hc
    rcases hc with rfl | rfl | rfl | rfl <;> cases ho
    · exact .inl (exists_first_of_notSet hm)
    · exact .inl (exists_first_of_wildcard hm)
  | alternative =>
    change (if ds.any isElement then none else _) = some o at ho
    rw [h.tokens] at ho
    split at ho
    next => cases ho
    next =>
      cases ho
      cases ts with
      | nil => exact .inr rfl
      | cons t ts => exact .inl ⟨t, List.mem_cons_self, rfl⟩
  | _ => cases ho

theorem startsIn_of_mem_append {us : List Token} (hd : ∀ o ∈ offencesOfAll ds, o.StartsIn ts)
    (he : ∀ o ∈ offencesOfAll es, o.StartsIn us) :
    ∀ o ∈ offencesOfAll (ds ++ es), o.StartsIn (ts ++ us) := by
  intro o ho
  rw [offencesOfAll_append] at ho
  rcases List.mem_append.mp ho with ho | ho
  · exact (hd o ho).mono (List.subset_append_left ..)
  · exact (he o ho).mono (List.subset_append_right ..)

theorem startsIn_of_mem_offencesOfAll (h : Matches Token.kind Construct.form f ds ts) :
    ∀ o ∈ offencesOfAll ds, o.StartsIn ts := by
  induction h with
  | empty => simp [offencesOfAll]
  | shown => simp [offencesOfAll, offences]
  | hidden => simp [offencesOfAll, offences]
  | @rule c ds ts h ih =>
    intro o ho
    rw [offencesOfAll_singleton] at ho
    cases hc : offence? c ds with
    | none => exact ih o (offences_of_none hc ▸ ho)
    | some o' =>
      rw [offences_of_some hc] at ho
      cases List.mem_singleton.mp ho
      exact startsIn_of_offence? h hc
  | seq _ _ ihf ihg => exact startsIn_of_mem_append ihf ihg
  | altLeft _ ih => exact ih
  | altRight _ ih => exact ih
  | manyNil => simp [offencesOfAll]
  | manyCons _ _ ihf ihm => exact startsIn_of_mem_append ihf ihm

/-- The children of a parser rule that is made of some tokens match its right-hand side. -/
def RuleWithin (ts : List Token) (ds : List Derivation) : Prop :=
  ∃ us, us ⊆ ts ∧ Matches Token.kind Construct.form Construct.parserRuleSpec.form ds us

theorem RuleWithin.mono {us : List Token} (h : RuleWithin ts ds) (hs : ts ⊆ us) :
    RuleWithin us ds := by
  obtain ⟨vs, hv, hm⟩ := h
  exact ⟨vs, List.Subset.trans hv hs, hm⟩

theorem ruleWithin_of_mem_append {us : List Token} (hd : ∀ r ∈ parserRulesInAll ds, RuleWithin ts r)
    (he : ∀ r ∈ parserRulesInAll es, RuleWithin us r) :
    ∀ r ∈ parserRulesInAll (ds ++ es), RuleWithin (ts ++ us) r := by
  intro r hr
  rw [parserRulesInAll_append] at hr
  rcases List.mem_append.mp hr with hr | hr
  · exact (hd r hr).mono (List.subset_append_left ..)
  · exact (he r hr).mono (List.subset_append_right ..)

theorem ruleWithin_of_mem_parserRulesInAll (h : Matches Token.kind Construct.form f ds ts) :
    ∀ r ∈ parserRulesInAll ds, RuleWithin ts r := by
  induction h with
  | empty => simp [parserRulesInAll]
  | shown => simp [parserRulesInAll, parserRulesIn]
  | hidden => simp [parserRulesInAll, parserRulesIn]
  | @rule c ds ts h ih =>
    intro r hr
    rw [parserRulesInAll_singleton, parserRulesIn] at hr
    split at hr
    next hc =>
      subst hc
      cases List.mem_singleton.mp hr
      exact ⟨ts, List.Subset.refl ts, h⟩
    next => exact ih r hr
  | seq _ _ ihf ihg => exact ruleWithin_of_mem_append ihf ihg
  | altLeft _ ih => exact ih
  | altRight _ ih => exact ih
  | manyNil => simp [parserRulesInAll]
  | manyCons _ _ ihf ihm => exact ruleWithin_of_mem_append ihf ihm

/-- Where the tokens of a text are, the line of an offence is that of its first token. -/
theorem onLine_of_startsIn {cs : List Char} (h : o.StartsIn (readTokens (maskChars cs)).tokens) :
    o.OnLine cs o.line? := by
  rcases h with ⟨t, ht, ho⟩ | rfl
  · obtain ⟨s, hs, hst⟩ := exists_lexed_of_mem_tokens ht
    have hline : o.line? = some (Text.lineAt cs s.first : Int) := by
      obtain ⟨kind, -, rfl⟩ := Option.map_eq_some_iff.mp hst
      rw [Offence.line?, ho]
      rfl
    rw [hline]
    exact .token ho hs hst
  · exact .none

end Source
end GrammarDoc
