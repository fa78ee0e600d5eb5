import GrammarDoc.Proofs.Parsing.Matching
import GrammarDoc.Source.SyntaxTree

namespace GrammarDoc

namespace Parsing.Derivation

variable {τ ρ : Type}

mutual

/-- The tokens of a tree that are not left out, from left to right. -/
def shownTokens : Derivation τ ρ → List τ
  | leaf token shown => if shown then [token] else []
  | node _ children => shownTokensOfAll children

def shownTokensOfAll : List (Derivation τ ρ) → List τ
  | [] => []
  | d :: ds => shownTokens d ++ shownTokensOfAll ds

end

end Parsing.Derivation

namespace Source

open Parsing (Form Matches)

/-- The span from the first token of a list to the last one. -/
def Token.spanOf : List Token → Option Text.Span
  | [] => none
  | t :: ts => Text.Span.join? (some t.span) (spanOf ts)

namespace SyntaxTree

mutual

/-- The tokens of a tree from left to right. -/
def leaves : SyntaxTree → List Token
  | .token t => [t]
  | .node _ _ children => leavesOfAll children

def leavesOfAll : List SyntaxTree → List Token
  | [] => []
  | t :: ts => leaves t ++ leavesOfAll ts

end

/-- A row of trees is one instance of a right-hand side over some tokens, and so is every row of
children below it. A left-out token has no tree, and an inlined construct has no node. -/
inductive Instantiates : Form TokenKind Construct → List SyntaxTree → List Token → Prop
  | empty : Instantiates .empty [] []
  | shown (t : Token) : Instantiates (.shown t.kind) [.token t] [t]
  | hidden (t : Token) : Instantiates (.hidden t.kind) [] [t]
  | node {c : Construct} {trees : List SyntaxTree} {ts : List Token} :
      c.isInlined = false → Instantiates c.form trees ts →
      Instantiates (.rule c) [.node c (Token.spanOf ts) trees] ts
  | inlined {c : Construct} {trees : List SyntaxTree} {ts : List Token} :
      c.isInlined = true → Instantiates c.form trees ts → Instantiates (.rule c) trees ts
  | seq {f g : Form TokenKind Construct} {trees trees' : List SyntaxTree} {ts us : List Token} :
      Instantiates f trees ts → Instantiates g trees' us →
      Instantiates (.seq f g) (trees ++ trees') (ts ++ us)
  | altLeft {f g : Form TokenKind Construct} {trees : List SyntaxTree} {ts : List Token} :
      Instantiates f trees ts → Instantiates (.alt f g) trees ts
  | altRight {f g : Form TokenKind Construct} {trees : List SyntaxTree} {ts : List Token} :
      Instantiates g trees ts → Instantiates (.alt f g) trees ts
  | manyNil {f : Form TokenKind Construct} : Instantiates (.many f) [] []
  | manyCons {f : Form TokenKind Construct} {trees trees' : List SyntaxTree} {ts us : List Token} :
      Instantiates f trees ts → Instantiates (.many f) trees' us →
      Instantiates (.many f) (trees ++ trees') (ts ++ us)

theorem shownOfAll_append (ds es : List Derivation) :
    shownOfAll (ds ++ es) = shownOfAll ds ++ shownOfAll es := by
  induction ds with
  | nil => rfl
  | cons d ds ih => simp [shownOfAll, ih]

theorem leavesOfAll_append (trees trees' : List SyntaxTree) :
    leavesOfAll (trees ++ trees') = leavesOfAll trees ++ leavesOfAll trees' := by
  induction trees with
  | nil => rfl
  | cons t trees ih => simp [leavesOfAll, ih]

mutual

theorem leavesOfAll_shown (d : Derivation) : leavesOfAll (shown d) = d.shownTokens := by
  match d with
  | .leaf t isShown =>
    cases isShown <;> simp [shown, leavesOfAll, leaves, Parsing.Derivation.shownTokens]
  | .node c ds =>
    have ih := leavesOfAll_shownOfAll ds
    simp only [shown, Parsing.Derivation.shownTokens]
    split
    · exact ih
    · simpa [leavesOfAll, leaves] using ih

theorem leavesOfAll_shownOfAll (ds : List Derivation) :
    leavesOfAll (shownOfAll ds) = Parsing.Derivation.shownTokensOfAll ds := by
  match ds with
  | [] => rfl
  | d :: ds =>
    rw [shownOfAll, leavesOfAll_append, leavesOfAll_shown d, leavesOfAll_shownOfAll ds]
    rfl

end

theorem join?_assoc (a b c : Option Text.Span) :
    Text.Span.join? (Text.Span.join? a b) c = Text.Span.join? a (Text.Span.join? b c) := by
  cases a <;> cases b <;> cases c <;> rfl

theorem spanOf_append (ts us : List Token) :
    Token.spanOf (ts ++ us) = Text.Span.join? (Token.spanOf ts) (Token.spanOf us) := by
  induction ts with
  | nil => rfl
  | cons t ts ih => simp only [List.cons_append, Token.spanOf, ih, join?_assoc]

theorem spanOfAll_append (ds es : List Derivation) :
    spanOfAll (ds ++ es) = Text.Span.join? (spanOfAll ds) (spanOfAll es) := by
  induction ds with
  | nil => rfl
  | cons d ds ih => simp only [List.cons_append, spanOfAll, ih, join?_assoc]

section Matching

variable {form : Construct → Form TokenKind Construct} {f : Form TokenKind Construct}
variable {ds : List Derivation} {trees : List SyntaxTree} {ts : List Token}

theorem spanOfAll_eq (h : Matches Token.kind form f ds ts) : spanOfAll ds = Token.spanOf ts := by
  induction h with
  | empty => rfl
  | shown => rfl
  | hidden => rfl
  | @rule name ds ts _ ih =>
    have hs : spanOfAll [.node name ds] = Text.Span.join? (spanOfAll ds) none := rfl
    rw [hs, ih]
    cases Token.spanOf ts <;> rfl
  | seq _ _ ihf ihg => rw [spanOfAll_append, spanOf_append, ihf, ihg]
  | altLeft _ ih => exact ih
  | altRight _ ih => exact ih
  | manyNil => rfl
  | manyCons _ _ ihf ihm => rw [spanOfAll_append, spanOf_append, ihf, ihm]

/-- What is shown of a match is an instance of its form. -/
theorem Instantiates.of_matches (h : Matches Token.kind Construct.form f ds ts) :
    Instantiates f (shownOfAll ds) ts := by
  induction h with
  | empty => exact .empty
  | shown t => exact .shown t
  | hidden t => exact .hidden t
  | @rule c ds ts hm ih =>
    simp only [shownOfAll, SyntaxTree.shown, List.append_nil]
    split
    next hc => exact .inlined hc ih
    next hc =>
      rw [spanOfAll_eq hm]
      exact .node (Bool.not_eq_true _ ▸ hc) ih
  | seq _ _ ihf ihg => exact shownOfAll_append .. ▸ .seq ihf ihg
  | altLeft _ ih => exact .altLeft ih
  | altRight _ ih => exact .altRight ih
  | manyNil => exact .manyNil
  | manyCons _ _ ihf ihm => exact shownOfAll_append .. ▸ .manyCons ihf ihm

/-- Every instance is what is shown of a match. -/
theorem Instantiates.exists_matches (h : Instantiates f trees ts) :
    ∃ ds, Matches Token.kind Construct.form f ds ts ∧ shownOfAll ds = trees := by
  induction h with
  | empty => exact ⟨[], .empty, rfl⟩
  | shown t => exact ⟨_, .shown t, rfl⟩
  | hidden t => exact ⟨_, .hidden t, rfl⟩
  | node hc _ ih =>
    obtain ⟨ds, hm, rfl⟩ := ih
    exact ⟨_, .rule hm, by simp [shownOfAll, SyntaxTree.shown, hc, spanOfAll_eq hm]⟩
  | inlined hc _ ih =>
    obtain ⟨ds, hm, rfl⟩ := ih
    exact ⟨_, .rule hm, by simp [shownOfAll, SyntaxTree.shown, hc]⟩
  | seq _ _ ihf ihg =>
    obtain ⟨ds, hf, rfl⟩ := ihf
    obtain ⟨es, hg, rfl⟩ := ihg
    exact ⟨_, .seq hf hg, shownOfAll_append ds es⟩
  | altLeft _ ih =>
    obtain ⟨ds, hm, rfl⟩ := ih
    exact ⟨ds, .altLeft hm, rfl⟩
  | altRight _ ih =>
    obtain ⟨ds, hm, rfl⟩ := ih
    exact ⟨ds, .altRight hm, rfl⟩
  | manyNil => exact ⟨[], .manyNil, rfl⟩
  | manyCons _ _ ihf ihm =>
    obtain ⟨ds, hf, rfl⟩ := ihf
    obtain ⟨es, hm, rfl⟩ := ihm
    exact ⟨_, .manyCons hf hm, shownOfAll_append ds es⟩

end Matching
end SyntaxTree
end Source
end GrammarDoc
