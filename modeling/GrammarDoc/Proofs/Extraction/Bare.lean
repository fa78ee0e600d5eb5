import GrammarDoc.Proofs.Extraction.Declared
import GrammarDoc.Proofs.Extraction.Meaning

namespace GrammarDoc

open Parsing (Form)
open Source (Construct SyntaxTree Token TokenKind)
open Source.SyntaxTree
open Node (ofSyntaxTree ofSyntaxTrees visitAll visit)

/-- A token without its place. Only the text of a name or a literal tells more than its kind. -/
def Source.Token.essence (t : Token) : TokenKind × String :=
  (t.kind, if t.kind ∈ [.ruleName, .tokenName, .literal] then t.text else "")

namespace Source.Construct

/-- The parts that a rule does not depend on: what stands around the parser rules, what stands
around the body of a rule or a block, and labels. -/
def ignores (parent : Construct) : Construct → Bool
  | prequelConstruct | optionsSpec | tokensSpec | channelsSpec | delegateGrammars => true
  | namedAction | rulePrequel | ruleAction => true
  | lexerRuleSpec | modeSpec => true
  | ruleReturns | throwsSpec | localsSpec | exceptionHandler | finallyClause => true
  | blockPrequel => true
  | identifier => parent = labeledAlt ∨ parent = labeledElement
  | _ => false

/-- The tokens that a rule does not depend on: options, arguments, the marks of labels, and what an
action or a predicate consists of. -/
def ignoresToken (parent : Construct) : TokenKind → Bool
  | .angleBlock => true
  | .bracketBlock => parent = parserRuleSpec ∨ parent = ruleref
  | .assign | .plusAssign => parent = labeledElement
  | .braceBlock | .question => parent = element
  | _ => false

/-- A construct around what is left of its parts. Nothing is left of an action, nor of a rule node
without a parser rule; a label leaves what it labels, and a suffix its first mark. A suffixed block
counts as an element, whether it is labeled or not. -/
def around (c : Construct) (parts : List Node) : List Node :=
  match c with
  | labeledElement | blockSuffix => parts
  | ebnf => [.tree element.label none parts]
  | element =>
    if parts.all (·.kind? == some .element) then parts else [.tree element.label none parts]
  | ruleSpec => if parts.isEmpty then [] else [.tree ruleSpec.label none parts]
  | ebnfSuffix => [.tree ebnfSuffix.label none (parts.take 1)]
  | c => [.tree c.label none parts]

end Source.Construct

namespace Node

mutual

def decEq : (n m : Node) → Decidable (n = m)
  | missing, missing => isTrue rfl
  | token l s, token l' s' => decidable_of_iff (l = l' ∧ s = s') (by simp)
  | tree l line? ns, tree l' line?' ns' =>
    match decEqAll ns ns' with
    | isTrue h => decidable_of_iff (l = l' ∧ line? = line?') (by simp [h])
    | isFalse h => isFalse (by simp [h])
  | missing, token _ _ | missing, tree _ _ _ | token _ _, missing | token _ _, tree _ _ _
  | tree _ _ _, missing | tree _ _ _, token _ _ => isFalse (by simp)

def decEqAll : (ns ms : List Node) → Decidable (ns = ms)
  | [], [] => isTrue rfl
  | n :: ns, m :: ms =>
    match decEq n m, decEqAll ns ms with
    | isTrue h, isTrue hs => isTrue (by rw [h, hs])
    | isFalse h, _ => isFalse (by simp [h])
    | _, isFalse hs => isFalse (by simp [hs])
  | [], _ :: _ | _ :: _, [] => isFalse (by simp)

end

instance : DecidableEq Node :=
  decEq

end Node

namespace Source.SyntaxTree

mutual

/-- What is left of a part of a construct without decorations and places. -/
def bareIn (parent : Construct) : SyntaxTree → List Node
  | .token t =>
    if parent.ignoresToken t.kind then [] else [.token t.essence.1.label t.essence.2]
  | .node c _ children =>
    if parent.ignores c then [] else c.around (bareAllIn c children)

def bareAllIn (parent : Construct) : List SyntaxTree → List Node
  | [] => []
  | t :: ts => bareIn parent t ++ bareAllIn parent ts

end

/-- What is left of a whole tree without decorations and places. -/
def bare (tree : SyntaxTree) : List Node :=
  bareIn .grammarSpec tree

variable {p c : Construct} {f : Form TokenKind Construct} {trees us : List SyntaxTree}
variable {ts : List Token} {span? : Option Text.Span} {kind : NodeKind}

theorem bareAllIn_append (p : Construct) (trees us : List SyntaxTree) :
    bareAllIn p (trees ++ us) = bareAllIn p trees ++ bareAllIn p us := by
  induction trees with
  | nil => rfl
  | cons t trees ih => simp only [List.cons_append, bareAllIn, ih, List.append_assoc]

theorem bareAllIn_singleton (p : Construct) (t : SyntaxTree) : bareAllIn p [t] = bareIn p t :=
  List.append_nil _

theorem bareAllIn_ignored (hc : p.ignores c) : bareAllIn p [.node c span? trees] = [] := by
  rw [bareAllIn_singleton, bareIn, if_pos hc]

theorem bareAllIn_node (hc : p.ignores c = false) :
    bareAllIn p [.node c span? trees] = c.around (bareAllIn c trees) := by
  rw [bareAllIn_singleton, bareIn, hc]
  rfl

theorem ignores_of_inlined (hc : c.isInlined) : ∀ d ∈ c.form.names, p.ignores d := by
  cases c <;> first | exact absurd hc (by decide) | cases p <;> decide

/-- Parts that are all ignored leave nothing. -/
theorem bareAllIn_eq_nil (h : Instantiates f trees ts) (hn : ∀ c ∈ f.names, p.ignores c)
    (hs : ∀ k ∈ f.shows, p.ignoresToken k) : bareAllIn p trees = [] := by
  induction h with
  | empty => rfl
  | shown t =>
    rw [bareAllIn_singleton, bareIn, if_pos (hs t.kind (List.mem_singleton_self _))]
  | hidden => rfl
  | @node c _ _ _ _ _ => exact bareAllIn_ignored (hn c (List.mem_singleton_self c))
  | @inlined c _ _ hc _ ih =>
    refine ih (ignores_of_inlined hc) ?_
    cases c <;> first
      | exact absurd hc (by decide)
      | simp [Construct.form, Form.oneOf, Form.shows]
  | seq _ _ ihf ihg =>
    simp only [Form.names, Form.shows, List.mem_append] at hn hs
    have hf := ihf (fun c hc => hn c (.inl hc)) fun k hk => hs k (.inl hk)
    have hg := ihg (fun c hc => hn c (.inr hc)) fun k hk => hs k (.inr hk)
    rw [bareAllIn_append, hf, hg]
    rfl
  | altLeft _ ih =>
    simp only [Form.names, Form.shows, List.mem_append] at hn hs
    exact ih (fun c hc => hn c (.inl hc)) fun k hk => hs k (.inl hk)
  | altRight _ ih =>
    simp only [Form.names, Form.shows, List.mem_append] at hn hs
    exact ih (fun c hc => hn c (.inr hc)) fun k hk => hs k (.inr hk)
  | manyNil => rfl
  | manyCons _ _ ihf ihm =>
    rw [bareAllIn_append, ihf hn hs, ihm hn hs]
    rfl

theorem kind?_of_mem_bareAllIn (hc : p.ignores c = false)
    (hk : ∀ parts, ∀ n ∈ c.around parts, n.kind? = some kind)
    (h : ∀ t ∈ trees, ∃ cs us, t = .node c (Token.spanOf us) cs ∧ Instantiates c.form cs us) :
    ∀ n ∈ bareAllIn p trees, n.kind? = some kind := by
  induction trees with
  | nil => simp [bareAllIn]
  | cons t trees ih =>
    obtain ⟨cs, us, rfl, -⟩ := h t List.mem_cons_self
    have ih := ih fun t ht => h t (List.mem_cons_of_mem _ ht)
    intro n hn
    rw [bareAllIn, bareIn, hc] at hn
    rcases List.mem_append.mp hn with hn | hn
    · exact hk _ n hn
    · exact ih n hn

end Source.SyntaxTree

/-- An error without the line that it is reported with. -/
def ExtractionError.unplaced : ExtractionError → ExtractionError
  | .unrecognizedAtom kind _ => .unrecognizedAtom kind none
  | .emptyAlternative rule? _ => .emptyAlternative rule? none
  | e => e

section Unplaced

variable {ε ε' α β : Type}

theorem mapError_bind (x : Except ε α) (g : α → Except ε β) (u : ε → ε') :
    (x >>= g).mapError u = x.mapError u >>= fun a => (g a).mapError u := by
  cases x <;> rfl

theorem mapError_append (x y : Except ε (List α)) (u : ε → ε') :
    (do return (← x) ++ (← y)).mapError u =
      (do return (← x.mapError u) ++ (← y.mapError u) : Except ε' (List α)) := by
  cases x <;> cases y <;> rfl

theorem mapError_chosen (es : List Element) :
    (Node.chosen es).mapError ExtractionError.unplaced = Node.chosen es := by
  unfold Node.chosen
  split <;> rfl

theorem mapError_sequenced (line? : Option Int) (es : List Element) :
    (Node.sequenced line? es).mapError ExtractionError.unplaced = Node.sequenced none es := by
  unfold Node.sequenced
  split
  · rfl
  · split <;> rfl

end Unplaced

end GrammarDoc
