import GrammarDoc.Proofs.Extraction.Spacing
import GrammarDoc.Proofs.Source.Endings

namespace GrammarDoc

open Parsing (Form)
open Source
open Source.SyntaxTree

namespace Source

variable {cs after ms pre post : List Char} {ws : List Word} {lexeme : Lexeme} {ls : List Lexeme}

theorem exists_of_spells (hl : lexeme? cs = some (lexeme, after)) (h : Spells cs ws []) :
    ∃ vs, ws = lexeme.word?.toList ++ vs ∧ Spells after vs [] := by
  rcases lexeme?_of_spells h with ⟨rfl, -⟩ | ⟨_, _, vs, hl', hv, rfl⟩
  · cases hl
  · cases hl.symm.trans hl'
    exact ⟨vs, rfl, hv⟩

theorem spells_header {body : List Char}
    (h : Spells (maskChars ("grammar G;\n".toList ++ body)) ws []) :
    ∃ vs, ws = headerWords ++ vs ∧ Spells (maskChars body) vs [] := by
  rw [untouched_of_forall (by simp)] at h
  have hgrammar : IsName isSmall "grammar".toList := ⟨'g', _, rfl, rfl, List.all_eq_true.mp rfl⟩
  have hword : lexeme? ("grammar".toList ++ ' ' :: 'G' :: ';' :: '\n' :: maskChars body) =
      some (⟨some .grammar, "grammar".toList⟩, ' ' :: 'G' :: ';' :: '\n' :: maskChars body) := by
    rw [lexeme?_word hgrammar (by rintro d ⟨⟩; rfl)]
    rfl
  have hG : IsName isCapital ['G'] := ⟨'G', [], rfl, by decide, by simp⟩
  have hname : lexeme? (['G'] ++ ';' :: '\n' :: maskChars body) = _ :=
    lexeme?_tokenName hG (by rintro d ⟨⟩; rfl)
  have hmark : lexeme? (';' :: '\n' :: maskChars body) = _ :=
    lexeme?_mark rfl rfl fun _ _ => rfl
  have hspace : ∀ c ∈ [' '], isSpace c := List.forall_mem_singleton.mpr rfl
  have hfeed : ∀ c ∈ ['\n'], isSpace c := List.forall_mem_singleton.mpr rfl
  obtain ⟨ws₁, rfl, h₁⟩ := exists_of_spells hword h
  obtain ⟨ws₂, rfl, h₂⟩ := exists_of_spells hname ((spells_space_append hspace).mp h₁)
  obtain ⟨ws₃, rfl, h₃⟩ := exists_of_spells hmark h₂
  exact ⟨ws₃, rfl, (spells_space_append hfeed).mp h₃⟩

end Source

namespace Source.SyntaxTree

def construct? : SyntaxTree → Option Construct
  | token _ => none
  | node c _ _ => some c

/-- The constructs right below the root of a tree. -/
def sections : SyntaxTree → List Construct
  | token _ => []
  | node _ _ children => children.filterMap construct?

end Source.SyntaxTree

section Trees

variable {f : Form TokenKind Construct} {trees trees' : List SyntaxTree} {ts us : List Token}
variable {c : Construct}

theorem many_append (h : Instantiates (.many f) trees ts)
    (h' : Instantiates (.many f) trees' us) :
    Instantiates (.many f) (trees ++ trees') (ts ++ us) := by
  generalize hf : Form.many f = g at h
  induction h with
  | manyNil =>
    cases hf
    exact h'
  | manyCons hfirst _ _ ih =>
    cases hf
    rw [List.append_assoc, List.append_assoc]
    exact .manyCons hfirst (ih rfl)
  | _ => cases hf

/-- What is repeated and has no node in a row is not there at all. -/
theorem many_eq_nil {cs : List Construct} (h : Instantiates (.many f) trees ts)
    (hf : ∀ trees ts, Instantiates f trees ts → ∃ c ∈ cs, c ∈ trees.filterMap construct?)
    (hn : ∀ c ∈ cs, c ∉ trees.filterMap construct?) : trees = [] ∧ ts = [] := by
  cases h with
  | manyNil => exact ⟨rfl, rfl⟩
  | manyCons hfirst _ =>
    obtain ⟨c, hc, hm⟩ := hf _ _ hfirst
    refine absurd ?_ (hn c hc)
    rw [List.filterMap_append]
    exact List.mem_append_left _ hm

theorem exists_node_of_rule (hc : c.isInlined = false) (h : Instantiates (.rule c) trees ts) :
    c ∈ trees.filterMap construct? := by
  obtain ⟨cs, rfl, -⟩ := (instantiates_node_iff hc).mp h
  exact List.mem_singleton_self c

theorem exists_node_of_prequel (h : Instantiates (.rule .prequelConstruct) trees ts) :
    ∃ c ∈ Construct.prequelConstruct.form.names, c ∈ trees.filterMap construct? := by
  cases h with
  | node hi => cases hi
  | inlined _ h =>
    simp only [Construct.form, Parsing.Form.oneOf, instantiates_alt_iff] at h
    rcases h with h | h | h | h | h <;> exact ⟨_, by decide, exists_node_of_rule rfl h⟩

theorem instantiates_identifier (h : Instantiates (.rule .identifier) trees ts) :
    ts.length = 1 := by
  obtain ⟨_, -, h⟩ := (instantiates_node_iff rfl).mp h
  rcases instantiates_alt_iff.mp h with h | h <;>
    obtain ⟨t, -, -, rfl⟩ := instantiates_shown_iff.mp h <;> rfl

/-- A declaration that starts with its keyword consists of three tokens. -/
theorem length_of_grammarDecl (h : Instantiates Construct.grammarDecl.form trees ts)
    (hk : ∀ t, ts.head? = some t → t.kind = .grammar) : ts.length = 3 := by
  obtain ⟨_, _, us, _, rfl, rfl, htype, h⟩ := instantiates_seq_iff.mp h
  obtain ⟨_, _, ns, _, rfl, rfl, hname, h⟩ := instantiates_seq_iff.mp h
  obtain ⟨_, -, -, rfl⟩ := instantiates_hidden_iff.mp h
  have hname := instantiates_identifier hname
  obtain ⟨_, -, htype⟩ := (instantiates_node_iff rfl).mp htype
  obtain ⟨_, _, _, _, -, rfl, hmark, h⟩ := instantiates_seq_iff.mp htype
  obtain ⟨_, -, -, rfl⟩ := instantiates_shown_iff.mp h
  rcases instantiates_optional_iff.mp hmark with hmark | ⟨-, rfl⟩
  · rcases instantiates_alt_iff.mp hmark with hmark | hmark <;>
      obtain ⟨t, ht, -, rfl⟩ := instantiates_shown_iff.mp hmark <;>
      cases ht.symm.trans (hk t rfl)
  · simp [hname]

/-- No rule and no mode starts with a block. -/
theorem kind_ne_braceBlock {t : Token}
    (h : Instantiates (.seq (.rule .rules) (.many (.rule .modeSpec))) trees (t :: ts)) :
    t.kind ≠ .braceBlock := by
  obtain ⟨ds, hm, -⟩ := h.exists_matches
  have hstarts := Parsing.mem_starts_of_matches grammar_layered.blank_of_form
    (fun _ _ _ _ => grammar_layered.mem_first) rfl hm
  intro hk
  rw [hk] at hstarts
  revert hstarts
  decide

end Trees

variable {b b₁ b₂ : String} {tree tree₁ tree₂ : SyntaxTree} {rules₁ rules₂ : List Rule}

/-- Without prequels the words of a body are those of its rules and modes, and no block opens it. -/
theorem exists_body (ht : (parseGrammar ("grammar G;\n" ++ b)).result = .ok tree)
    (hn : ∀ c ∈ Construct.prequelConstruct.form.names, c ∉ tree.sections) :
    ∃ decl rules modes us rs ms, GrammarParts decl [] rules modes us [] rs ms ∧
      Spells (maskChars b.toList) ((rs ++ ms).map Token.word) [] ∧ opensBlock b.toList = false ∧
      tree.parserRules = parserRulesOfAll rules := by
  obtain ⟨cs, rfl, hi⟩ := exists_instance_of_parseGrammar ht
  have hspells := spells_of_parseGrammar ht
  obtain ⟨-, hwords⟩ := readFrom_of_spells hspells .start
  rw [← hwords, String.toList_append] at hspells
  obtain ⟨ws, hws, hbody⟩ := spells_header hspells
  rw [← String.toList_append] at hws
  obtain ⟨decl, prequels, rules, modes, us, vs, rs, ms, hparts, rfl, hts⟩ :=
    instantiates_grammarSpec_iff.mp hi
  have hprequels : ∀ c ∈ Construct.prequelConstruct.form.names,
      c ∉ prequels.filterMap construct? := by
    intro c hc hm
    refine hn c hc ?_
    rw [sections, List.filterMap_append, List.filterMap_append]
    exact List.mem_append_right _ (List.mem_append_left _ hm)
  obtain ⟨rfl, rfl⟩ := many_eq_nil hparts.prequels (fun _ _ => exists_node_of_prequel) hprequels
  -- The declaration takes the words of the header.
  rw [show (readFrom _ _).tokens = us ++ ([] ++ (rs ++ ms)) from hts, List.nil_append,
    List.map_append] at hws
  have hlength : us.length = 3 := by
    refine length_of_grammarDecl hparts.decl fun t ht => ?_
    obtain ⟨us, rfl⟩ := List.head?_eq_some_iff.mp ht
    exact congrArg Prod.fst (List.cons.inj hws).1
  obtain ⟨-, rfl⟩ := List.append_inj hws (by rw [List.length_map, hlength]; rfl)
  refine ⟨decl, rules, modes, us, rs, ms, hparts, hbody, ?_, hparts.parserRules _ _ _⟩
  by_contra ho
  rw [Bool.not_eq_false, ← opensBlock_maskChars] at ho
  obtain ⟨text, ws, hbrace⟩ := braceBlock_of_opensBlock hbody ho
  obtain ⟨t, ts, hcons, ht, -⟩ := List.map_eq_cons_iff.mp hbrace
  have hrest : Instantiates (.seq (.rule .rules) (.many (.rule .modeSpec))) _ (rs ++ ms) :=
    .seq (.node rfl hparts.rules) hparts.modes
  rw [hcons] at hrest
  exact kind_ne_braceBlock hrest (congrArg Prod.fst ht)

theorem mapM_append_ok {α β ε : Type} {g : α → Except ε β} {xs xs' : List α} {ys ys' : List β}
    (h : xs.mapM g = .ok ys) (h' : xs'.mapM g = .ok ys') :
    (xs ++ xs').mapM g = .ok (ys ++ ys') := by
  rw [List.mapM_append, h, h']
  rfl

/-- Without modes a text ends with its rules. It is read to its end, and white space comes last if
its last line is ended. -/
theorem exists_end {text : String} (hangle : '<' ∉ text.toList) (hclosed : Closed text.toList)
    (ht : (parseGrammar text).result = .ok tree) (hn : .modeSpec ∉ tree.sections)
    (hend : text.toList.getLast? = some '\n') :
    ∃ decl prequels rules us vs rs ls, GrammarParts decl prequels rules [] us vs rs [] ∧
      Scans text.toList ls [] ∧
      ls.filterMap Lexeme.word? = (us ++ (vs ++ rs)).map Token.word ∧
      (∀ lexeme, ls.getLast? = some lexeme → lexeme.isWhite) ∧
      tree.parserRules = parserRulesOfAll rules := by
  obtain ⟨cs, rfl, hi⟩ := exists_instance_of_parseGrammar ht
  obtain ⟨decl, prequels, rules, modes, us, vs, rs, ms, hparts, rfl, hts⟩ :=
    instantiates_grammarSpec_iff.mp hi
  have hmodes : ∀ c ∈ [Construct.modeSpec], c ∉ modes.filterMap construct? := by
    intro c hc hm
    cases List.mem_singleton.mp hc
    refine hn ?_
    rw [sections, List.filterMap_append, List.filterMap_append, List.filterMap_append]
    exact List.mem_append_right _ (List.mem_append_right _ (List.mem_append_right _ hm))
  obtain ⟨rfl, rfl⟩ := many_eq_nil hparts.modes
    (fun _ _ h => ⟨_, List.mem_singleton_self _, exists_node_of_rule rfl h⟩) hmodes
  have hspells := spells_of_parseGrammar ht
  obtain ⟨hread, -⟩ := spells_iff_lexemes.mp hspells
  obtain ⟨-, hwords⟩ := readFrom_of_spells hspells .start
  obtain ⟨last, hscan, hlast⟩ := exists_scans hangle hclosed (List.append_nil _).symm
  have hnil : maskChars last = [] := by
    rw [← lexemes_text (maskChars last), hlast, hread]
    rfl
  have hhead := head?_maskChars last
  rw [hnil] at hhead
  cases List.head?_eq_none_iff.mp hhead.symm
  rw [show (readFrom _ _).tokens = us ++ (vs ++ (rs ++ [])) from hts, List.append_nil] at hwords
  exact ⟨decl, prequels, rules, us, vs, rs, _, hparts, hscan, hwords.symm,
    fun _ hl => hscan.isWhite_last hend hl, hparts.parserRules _ _ _⟩

theorem mapM_of_parseRules {text : String} {rules : List Rule}
    (ht : (parseGrammar text).result = .ok tree) (h : (parseRules text).result = .ok rules) :
    (tree.parserRules.map Node.ofSyntaxTree).mapM Node.ruleOf = .ok rules := by
  obtain ⟨tree', ht', hr⟩ := parseRules_ok_iff.mp h
  cases ht.symm.trans ht'
  exact hr

/-- Conversion is compositional in the rules. Two bodies under one header give, one after the other,
the rules of both: the first body has to end its last line, without angle brackets, unclosed blocks
and modes, and the second one declares nothing before its rules. -/
theorem parseRules_append (hend : b₁ = "" ∨ b₁.toList.getLast? = some '\n')
    (hangle : '<' ∉ b₁.toList) (hclosed : Closed ("grammar G;\n" ++ b₁).toList)
    (ht₁ : (parseGrammar ("grammar G;\n" ++ b₁)).result = .ok tree₁)
    (hmodes : .modeSpec ∉ tree₁.sections)
    (ht₂ : (parseGrammar ("grammar G;\n" ++ b₂)).result = .ok tree₂)
    (hprequels : ∀ c ∈ Construct.prequelConstruct.form.names, c ∉ tree₂.sections)
    (hr₁ : (parseRules ("grammar G;\n" ++ b₁)).result = .ok rules₁)
    (hr₂ : (parseRules ("grammar G;\n" ++ b₂)).result = .ok rules₂) :
    (parseRules ("grammar G;\n" ++ b₁ ++ b₂)).result = .ok (rules₁ ++ rules₂) := by
  have hangle₁ : '<' ∉ ("grammar G;\n" ++ b₁).toList := by
    rw [String.toList_append, List.mem_append, not_or]
    exact ⟨by decide, hangle⟩
  have hend₁ : ("grammar G;\n" ++ b₁).toList.getLast? = some '\n' := by
    rw [String.toList_append, List.getLast?_append]
    rcases hend with rfl | hend
    · rfl
    · rw [hend]
      rfl
  obtain ⟨decl, prequels, rows₁, us, vs, rs₁, ls, hparts₁, hscan, hwords, hwhite, hrules₁⟩ :=
    exists_end hangle₁ hclosed ht₁ hmodes hend₁
  obtain ⟨_, rows₂, modes, _, rs₂, ms, hparts₂, hbody, hopens, hrules₂⟩ :=
    exists_body ht₂ hprequels
  have hm₁ := mapM_of_parseRules ht₁ hr₁
  have hm₂ := mapM_of_parseRules ht₂ hr₂
  -- The second body is put after the first text instead of nothing.
  rw [← List.append_nil (String.toList _)] at hscan
  have hspells := spells_of_scans hscan (fun l hl => .inl (hwhite l hl)) (.inl hopens) hbody
  rw [hwords, ← List.map_append, ← String.toList_append] at hspells
  have happ : us ++ (vs ++ rs₁) ++ (rs₂ ++ ms) = us ++ (vs ++ (rs₁ ++ rs₂ ++ ms)) := by simp
  rw [happ] at hspells
  obtain ⟨hstop, hread⟩ := readFrom_of_spells hspells .start
  -- The rules of both bodies make one grammar.
  have hparts : GrammarParts decl prequels (rows₁ ++ rows₂) modes us vs (rs₁ ++ rs₂) ms :=
    ⟨hparts₁.decl, hparts₁.prequels, many_append hparts₁.rules hparts₂.rules, hparts₂.modes⟩
  have hi := instantiates_grammarSpec_iff.mpr ⟨_, _, _, _, _, _, _, _, hparts, rfl, rfl⟩
  refine parseRules_of_instance (.node rfl hi) ?_ hstop ?_
  · rw [hparts.parserRules, parserRulesOfAll_append, List.map_append, ← hrules₁, ← hrules₂]
    exact mapM_append_ok hm₁ hm₂
  · rw [map_essence, map_essence, readTokens, hread]

/-- A body with a prequel that ends in a comment, and one with a mode. -/
theorem parseRules_append_with_mode :
    let b₁ := "options \x7bk=1;\x7d\na : b \x7b'\x7d'\x7d | 'x' ; // '\n"
    let b₂ := "b : c* ;\nmode M ;\n"
    let rules₁ : List Rule := [⟨"a", .choice [.ref "b", .atom "x"]⟩]
    let rules₂ : List Rule := [⟨"b", .star (.ref "c")⟩]
    ∃ tree₁ tree₂, (parseGrammar ("grammar G;\n" ++ b₁)).result = .ok tree₁ ∧
      .modeSpec ∉ tree₁.sections ∧ (parseGrammar ("grammar G;\n" ++ b₂)).result = .ok tree₂ ∧
      (∀ c ∈ Construct.prequelConstruct.form.names, c ∉ tree₂.sections) ∧
      (parseRules ("grammar G;\n" ++ b₁ ++ b₂)).result = .ok (rules₁ ++ rules₂) := by
  intro b₁ b₂ rules₁ rules₂
  have hr₁ : (parseRules ("grammar G;\n" ++ b₁)).result = .ok rules₁ :=
    eq_of_isRules (by decide +kernel)
  have hr₂ : (parseRules ("grammar G;\n" ++ b₂)).result = .ok rules₂ :=
    eq_of_isRules (by decide +kernel)
  obtain ⟨tree₁, ht₁, -⟩ := parseRules_ok_iff.mp hr₁
  obtain ⟨tree₂, ht₂, -⟩ := parseRules_ok_iff.mp hr₂
  have hsections : ∀ {text tree}, (parseGrammar text).result = .ok tree →
      some tree.sections = (parseGrammar text).result.toOption.map sections := by
    intro text tree ht
    rw [ht]
    rfl
  have hmodes : .modeSpec ∉ tree₁.sections := by
    have hs : (parseGrammar ("grammar G;\n" ++ b₁)).result.toOption.map sections =
        some [.grammarDecl, .optionsSpec, .rules] := by decide +kernel
    rw [Option.some.inj ((hsections ht₁).trans hs)]
    decide
  have hprequels : ∀ c ∈ Construct.prequelConstruct.form.names, c ∉ tree₂.sections := by
    have hs : (parseGrammar ("grammar G;\n" ++ b₂)).result.toOption.map sections =
        some [.grammarDecl, .rules, .modeSpec] := by decide +kernel
    rw [Option.some.inj ((hsections ht₂).trans hs)]
    decide
  have hclosed : ∀ piece ∈ pieces ("grammar G;\n" ++ b₁).toList, piece.isClosed := by
    decide +kernel
  exact ⟨tree₁, tree₂, ht₁, hmodes, ht₂, hprequels,
    parseRules_append (.inr (by decide +kernel)) (by decide +kernel) hclosed ht₁ hmodes ht₂
      hprequels hr₁ hr₂⟩

end GrammarDoc
