import GrammarDoc.Proofs.Element.Equality
import GrammarDoc.Proofs.Extraction.Building
import GrammarDoc.Proofs.Source.Agreement

namespace GrammarDoc

open Source
open Source.SyntaxTree

namespace Element

mutual

/-- The literals of an element from left to right. -/
def atoms : Element → List String
  | atom name => [name]
  | ref _ => []
  | opt e => atoms e
  | plus e => atoms e
  | star e => atoms e
  | choice es => atomsOfAll es
  | seq es => atomsOfAll es
  | foreign _ => []

def atomsOfAll : List Element → List String
  | [] => []
  | e :: es => atoms e ++ atomsOfAll es

end

theorem mem_atomsOfAll_iff {es : List Element} {a : String} :
    a ∈ atomsOfAll es ↔ ∃ e ∈ es, a ∈ e.atoms := by
  induction es with
  | nil => simp [atomsOfAll]
  | cons e es ih => simp [atomsOfAll, ih]

/-- The atoms of an element are what is in the literals it is built from. -/
theorem exists_literal_of_mem_atoms {ts : List Token} {e : Element} {a : String}
    (h : e.BuiltFrom ts) (ha : a ∈ e.atoms) :
    ∃ t ∈ ts, t.kind = .literal ∧ a = Node.unquoted t.text := by
  induction h with
  | @token t ht hk =>
    unfold Token.element at ha
    split at ha
    next hlit => exact ⟨t, ht, hlit, List.mem_singleton.mp ha⟩
    next => cases ha
  | opt _ ih => exact ih ha
  | plus _ ih => exact ih ha
  | star _ ih => exact ih ha
  | choice _ _ ih =>
    obtain ⟨e, he, ha⟩ := mem_atomsOfAll_iff.mp ha
    exact ih e he ha
  | seq _ _ ih =>
    obtain ⟨e, he, ha⟩ := mem_atomsOfAll_iff.mp ha
    exact ih e he ha

end Element

variable {text : String} {tree : SyntaxTree} {t : Token}

/-- The kinds of tokens that no construct leaves out. -/
def keptKinds : List TokenKind :=
  [.literal, .tokenName, .ruleName, .angleBlock]

theorem not_mem_hides {k : TokenKind} (hk : k ∈ keptKinds) (c : Construct) :
    k ∉ c.form.hides := by
  revert k
  cases c <;> decide

theorem mem_leaves_iff (h : (parseGrammar text).result = .ok tree) (hk : t.kind ∈ keptKinds) :
    t ∈ tree.leaves ↔ t ∈ (readTokens (maskChars text.toList)).tokens := by
  obtain ⟨cs, rfl, hi⟩ := exists_instance_of_parseGrammar h
  exact mem_leavesOfAll_iff hi (not_mem_hides hk _) (not_mem_hides hk)

/-- Names and literals of a tree are verbatim, and so are the literals of the rules. -/
structure Faithful (text : String) (tree : SyntaxTree) : Prop where
  tokens : ∀ t ∈ tree.leaves, t.kind ∈ [.literal, .tokenName, .ruleName] →
    Verbatim text.toList t
  atoms : ∀ rules, (parseRules text).result = .ok rules → ∀ r ∈ rules, ∀ a ∈ r.right.atoms,
    ∃ t ∈ tree.leaves, t.kind = .literal ∧ t.text = "'" ++ a ++ "'" ∧ Verbatim text.toList t

theorem text_eq_of_literal {cs : List Char} (h : t ∈ (readTokens cs).tokens)
    (hk : t.kind = .literal) : t.text = "'" ++ Node.unquoted t.text ++ "'" := by
  obtain ⟨body, -, htext⟩ := exists_body_of_mem_tokens h hk
  apply String.toList_inj.mp
  simp [Node.unquoted, htext]

/-- If the literals of the tree are verbatim, so is everything else. -/
theorem faithful_of_literals (h : (parseGrammar text).result = .ok tree)
    (hl : ∀ t ∈ tree.leaves, t.kind = .literal → Verbatim text.toList t) : Faithful text tree := by
  constructor
  · intro t ht hk
    simp only [List.mem_cons, List.not_mem_nil, or_false] at hk
    rcases hk with hk | hk | hk
    · exact hl t ht hk
    · exact verbatim_name ((mem_leaves_iff h (by simp [hk, keptKinds])).mp ht) (.inr hk)
    · exact verbatim_name ((mem_leaves_iff h (by simp [hk, keptKinds])).mp ht) (.inl hk)
  · intro rules hr r hm a ha
    obtain ⟨hb, -⟩ := builtFrom_of_parseRules hr r hm
    obtain ⟨t, ht, hk, rfl⟩ := Element.exists_literal_of_mem_atoms hb ha
    have hleaf := (mem_leaves_iff h (by simp [hk, keptKinds])).mpr ht
    exact ⟨t, hleaf, hk, text_eq_of_literal ht hk, hl t hleaf hk⟩

/-- What is read from grammar source is faithful to it exactly if masking blanks no block inside of
a literal. It never does where all element options settle. -/
theorem parseGrammar_faithful_iff (h : (parseGrammar text).result = .ok tree) :
    (Faithful text tree ↔ ∀ t ∈ tree.leaves, t.kind = .literal → ¬BlanksIn text.toList t) ∧
      (∀ t ∈ tree.leaves, t.kind = .tokenName ∨ t.kind = .ruleName → Verbatim text.toList t) ∧
      ((∀ t ∈ tree.leaves, t.kind = .angleBlock →
        Settles text.toList t.text.toList t.span.last) → Faithful text tree) := by
  have hleaf : ∀ {t}, t.kind ∈ keptKinds → (t ∈ tree.leaves ↔ _) := mem_leaves_iff h
  refine ⟨⟨fun hf t ht hk => ?_, fun hb => ?_⟩, fun t ht hk => ?_, fun ha => ?_⟩
  · have ht' := (hleaf (by simp [hk, keptKinds])).mp ht
    exact (verbatim_literal_iff ht' hk).mp (hf.tokens t ht (by simp [hk]))
  · refine faithful_of_literals h fun t ht hk => ?_
    have ht' := (hleaf (by simp [hk, keptKinds])).mp ht
    exact (verbatim_literal_iff ht' hk).mpr (hb t ht hk)
  · have ht' := (hleaf (by rcases hk with hk | hk <;> simp [hk, keptKinds])).mp ht
    exact verbatim_name ht' hk.symm
  · refine faithful_of_literals h fun t ht hk => ?_
    have ht' := (hleaf (by simp [hk, keptKinds])).mp ht
    refine verbatim_literals (fun u hu hka => ?_) t ht' hk
    exact ha u ((hleaf (by simp [hka, keptKinds])).mpr hu) hka

/-- A tree without element options that hold an apostrophe, a slash or an opening mark. -/
def hasPlainOptions {ε : Type} : Except ε SyntaxTree → Bool
  | .ok tree => tree.leaves.all fun t =>
    t.kind != .angleBlock || t.text.toList.all (· ∉ ['/', '\'', '[', '\x7b'])
  | .error _ => false

theorem parseGrammar_faithful_options :
    let text := "grammar G; a : b<assoc=right> '\x7by\x7d' \x7b say(\"it's\"); \x7d ;"
    ∃ tree, (parseGrammar text).result = .ok tree ∧ Faithful text tree := by
  intro text
  have hplain : hasPlainOptions (parseGrammar text).result := by decide +kernel
  cases h : (parseGrammar text).result with
  | error e =>
    rw [h] at hplain
    cases hplain
  | ok tree =>
    rw [h] at hplain
    refine ⟨tree, rfl, (parseGrammar_faithful_iff h).2.2 fun t ht hk => .inl ?_⟩
    have hall := List.all_eq_true.mp hplain t ht
    simpa [hk] using hall

/-- An apostrophe in element options makes the masker take the next literal for code. -/
theorem parseGrammar_not_faithful :
    let text := "grammar G; a : b<fail=\"don't\"> '\x7by\x7d' ;"
    let rules := [Rule.mk "a" (.seq [.ref "b", .atom "\x7b \x7d"])]
    (parseRules text).result = .ok rules ∧
      ∃ tree, (parseGrammar text).result = .ok tree ∧ ¬Faithful text tree := by
  intro text rules
  have hr : (parseRules text).result = .ok rules := eq_of_isRules (by decide +kernel)
  obtain ⟨tree, ht, -⟩ := parseRules_ok_iff.mp hr
  refine ⟨hr, tree, ht, fun hf => ?_⟩
  obtain ⟨t, -, -, htext, before, after, hcs, -⟩ :=
    hf.atoms rules hr _ List.mem_cons_self "\x7b \x7d" (by decide)
  have hin : "'\x7b \x7d'".toList <:+: text.toList := by
    refine ⟨before, after, ?_⟩
    rw [hcs, htext, List.append_assoc]
    rfl
  exact absurd hin (by decide)

end GrammarDoc
