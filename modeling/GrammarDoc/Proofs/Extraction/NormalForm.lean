import GrammarDoc.Proofs.Extraction.Building

namespace GrammarDoc

/-- No foreign value stands in an element, and its groups have at least two members, at any
depth. -/
inductive Element.IsNormal : Element → Prop
  | atom {name : String} : IsNormal (.atom name)
  | ref {name : String} : IsNormal (.ref name)
  | opt {e : Element} : IsNormal e → IsNormal (.opt e)
  | plus {e : Element} : IsNormal e → IsNormal (.plus e)
  | star {e : Element} : IsNormal e → IsNormal (.star e)
  | choice {es : List Element} : 2 ≤ es.length → (∀ e ∈ es, IsNormal e) → IsNormal (.choice es)
  | seq {es : List Element} : 2 ≤ es.length → (∀ e ∈ es, IsNormal e) → IsNormal (.seq es)

namespace Node

/-- A node stands somewhere in a tree, or is all of it. -/
inductive Holds : Node → Node → Prop
  | self {n : Node} : Holds n n
  | deeper {label : String} {line? : Option Int} {children : List Node} {child n : Node} :
      child ∈ children → Holds child n → Holds (tree label line? children) n

/-- Where an atom is searched for a literal or a name there is none. -/
structure IsUnreadable (n : Node) : Prop where
  noTerminal : ∀ t, n.child? .terminal = some t →
    t.childText? "STRING_LITERAL" = none ∧ t.childText? "TOKEN_REF" = none
  noRule : ∀ r, n.child? .ruleref = some r → r.childText? "RULE_REF" = none

/-- What is wrong with a node, whatever is around it, and the error for it: an atom that cannot be
read, an alternative without elements, or a list of alternatives without any. -/
inductive Fault : Node → ExtractionError → Prop
  | atom {label : String} {line? : Option Int} {children : List Node} :
      NodeKind.ofLabel? label = some .atom → IsUnreadable (tree label line? children) →
      Fault (tree label line? children) (.unrecognizedAtom (firstLabel children) line?)
  | alternative {label : String} {line? : Option Int} {children : List Node} :
      NodeKind.ofLabel? label = some .alternative →
      (∀ n ∈ children, n.kind? = some .element → n.visit = .ok []) →
      Fault (tree label line? children) (.emptyAlternative none line?)
  | altList {label : String} {line? : Option Int} {children : List Node} :
      NodeKind.ofLabel? label = some .altList →
      (∀ n ∈ children, n.kind? ≠ some .alternative) →
      Fault (tree label line? children) (.emptyGroup .choice)
  | ruleAltList {label : String} {line? : Option Int} {children : List Node} :
      NodeKind.ofLabel? label = some .ruleAltList →
      (∀ n ∈ children, n.kind? = some .labeledAlt →
        ∀ m ∈ n.children, m.kind? ≠ some .alternative) →
      Fault (tree label line? children) (.emptyGroup .choice)

/-- The kinds of nodes that stand for one element each. -/
def singleKinds : List NodeKind :=
  [.ruleAltList, .altList, .alternative, .atom]

/-- How the visit of a node may end: with elements in normal form, of which there is exactly one for
some kinds, or with the error for what is wrong with some node in it. -/
inductive Ends (n : Node) : Except ExtractionError (List Element) → Prop
  | elements {es : List Element} :
      (∀ e ∈ es, e.IsNormal) → (∀ kind ∈ singleKinds, n.kind? = some kind → es.length = 1) →
      Ends n (.ok es)
  | fault {inner : Node} {error : ExtractionError} :
      n.Holds inner → inner.Fault error → Ends n (.error error)

/-- How the visit of some nodes in a row may end. -/
inductive EndsRow (ns : List Node) : Except ExtractionError (List Element) → Prop
  | elements {es : List Element} : (∀ e ∈ es, e.IsNormal) → EndsRow ns (.ok es)
  | fault {n inner : Node} {error : ExtractionError} :
      n ∈ ns → n.Holds inner → inner.Fault error → EndsRow ns (.error error)

variable {n : Node} {ns : List Node} {kind : NodeKind} {xs es : List Element}
variable {label : String} {line? : Option Int} {error : ExtractionError}
variable {r s : Except ExtractionError (List Element)}

section Rows

theorem Ends.row (h : n.Ends r) (hn : n ∈ ns) : EndsRow ns r := by
  cases h with
  | elements hes => exact .elements hes
  | fault hi hf => exact .fault hn hi hf

theorem EndsRow.cons (h : EndsRow ns r) : EndsRow (n :: ns) r := by
  cases h with
  | elements hes => exact .elements hes
  | fault hn hi hf => exact .fault (List.mem_cons_of_mem _ hn) hi hf

/-- What is wrong below a node is wrong in every row that the node stands in. -/
theorem EndsRow.below (h : EndsRow n.children r) (hn : n ∈ ns) : EndsRow ns r := by
  cases h with
  | elements hes => exact .elements hes
  | fault hm hi hf =>
    cases n with
    | tree => exact .fault hn (.deeper hm hi) hf
    | _ => cases hm

theorem EndsRow.append (h : EndsRow ns r) (h' : EndsRow ns s) :
    EndsRow ns (do return (← r) ++ (← s)) := by
  cases h with
  | fault hn hi hf => exact .fault hn hi hf
  | elements hes =>
    cases h' with
    | fault hn hi hf => exact .fault hn hi hf
    | elements hes' =>
      refine .elements fun e he => ?_
      rcases List.mem_append.mp he with he | he
      · exact hes e he
      · exact hes' e he

theorem endsRow_nil : EndsRow ns (.ok []) :=
  .elements fun _ he => nomatch he

theorem visitAll_ends (h : ∀ n ∈ ns, n.Ends n.visit) : EndsRow ns (visitAll ns) := by
  induction ns with
  | nil => exact endsRow_nil
  | cons n ns ih =>
    have hn : EndsRow (n :: ns) n.visit := (h n List.mem_cons_self).row List.mem_cons_self
    have hns := ih fun m hm => h m (List.mem_cons_of_mem _ hm)
    exact hn.append hns.cons

theorem visitEach_ends (h : ∀ n ∈ ns, n.Ends n.visit) : EndsRow ns (visitEach kind ns) := by
  induction ns with
  | nil => exact endsRow_nil
  | cons n ns ih =>
    have hn : EndsRow (n :: ns) n.visit := (h n List.mem_cons_self).row List.mem_cons_self
    have hns := ih fun m hm => h m (List.mem_cons_of_mem _ hm)
    rw [visitEach]
    split
    · exact hn.append hns.cons
    · exact hns.cons

theorem visitFirst_ends (h : ∀ n ∈ ns, n.Ends n.visit) : EndsRow ns (visitFirst kind ns) := by
  induction ns with
  | nil => exact endsRow_nil
  | cons n ns ih =>
    have hn : EndsRow (n :: ns) n.visit := (h n List.mem_cons_self).row List.mem_cons_self
    have hns := ih fun m hm => h m (List.mem_cons_of_mem _ hm)
    rw [visitFirst]
    split
    · exact hn
    · exact hns.cons

theorem visitLabeled_ends (h : ∀ n ∈ ns, ∀ m ∈ n.children, m.Ends m.visit) :
    EndsRow ns (visitLabeled ns) := by
  induction ns with
  | nil => exact endsRow_nil
  | cons n ns ih =>
    have hns := ih fun m hm => h m (List.mem_cons_of_mem _ hm)
    cases n with
    | missing => exact hns.cons
    | token => exact hns.cons
    | tree label line? children =>
      have hchildren : EndsRow children (visitFirst .alternative children) :=
        visitFirst_ends (h _ List.mem_cons_self)
      have hfirst : EndsRow (tree label line? children :: ns)
          (visitFirst .alternative children) :=
        EndsRow.below (n := tree label line? children) hchildren List.mem_cons_self
      rw [visitLabeled]
      split
      · exact hfirst.append hns.cons
      · exact hns.cons

end Rows

section Empty

theorem append_ok_nil
    (h : (do return (← r) ++ (← s) : Except ExtractionError (List Element)) = .ok []) :
    r = .ok [] ∧ s = .ok [] := by
  obtain ⟨xs, hr, h⟩ := bind_ok h
  obtain ⟨ys, hs, h⟩ := bind_ok h
  have hnil : xs ++ ys = [] := Except.ok.inj h
  obtain ⟨rfl, rfl⟩ := List.append_eq_nil_iff.mp hnil
  exact ⟨hr, hs⟩

theorem length_of_chosen (h : chosen xs = .ok es) : es.length = 1 := by
  obtain ⟨e, rfl, -⟩ := chosen_ok h
  rfl

theorem length_of_sequenced (h : sequenced line? xs = .ok es) : es.length = 1 := by
  obtain ⟨e, rfl, -⟩ := sequenced_ok h
  rfl

/-- An alternative never stands for nothing. -/
theorem visit_alternative_ne_nil (h : n.kind? = some .alternative) : n.visit ≠ .ok [] := by
  cases n with
  | missing => cases h
  | token => cases h
  | tree label line? children =>
    have hk : NodeKind.ofLabel? label = some .alternative := h
    intro hv
    simp only [visit, hk] at hv
    obtain ⟨xs, -, hs⟩ := bind_ok hv
    exact absurd (length_of_sequenced hs) (by decide)

theorem visit_of_visitEach_nil (h : visitEach kind ns = .ok []) :
    ∀ n ∈ ns, n.kind? = some kind → n.visit = .ok [] := by
  induction ns with
  | nil => exact fun _ hn => nomatch hn
  | cons n ns ih =>
    rw [visitEach] at h
    split at h
    next hk =>
      obtain ⟨hn, hns⟩ := append_ok_nil h
      exact List.forall_mem_cons.mpr ⟨fun _ => hn, ih hns⟩
    next hk => exact List.forall_mem_cons.mpr ⟨fun hk' => absurd hk' hk, ih h⟩

theorem no_alternative_of_visitEach (h : visitEach .alternative ns = .ok []) :
    ∀ n ∈ ns, n.kind? ≠ some .alternative := by
  intro n hn hk
  exact visit_alternative_ne_nil hk (visit_of_visitEach_nil h n hn hk)

theorem no_alternative_of_visitFirst (h : visitFirst .alternative ns = .ok []) :
    ∀ n ∈ ns, n.kind? ≠ some .alternative := by
  induction ns with
  | nil => exact fun _ hn => nomatch hn
  | cons n ns ih =>
    rw [visitFirst] at h
    split at h
    next hk => exact absurd h (visit_alternative_ne_nil hk)
    next hk => exact List.forall_mem_cons.mpr ⟨hk, ih h⟩

theorem no_alternative_of_visitLabeled (h : visitLabeled ns = .ok []) :
    ∀ n ∈ ns, n.kind? = some .labeledAlt → ∀ m ∈ n.children, m.kind? ≠ some .alternative := by
  induction ns with
  | nil => exact fun _ hn => nomatch hn
  | cons n ns ih =>
    cases n with
    | missing => exact List.forall_mem_cons.mpr ⟨(nomatch ·), ih h⟩
    | token => exact List.forall_mem_cons.mpr ⟨(nomatch ·), ih h⟩
    | tree label line? children =>
      rw [visitLabeled] at h
      split at h
      next =>
        obtain ⟨hn, hns⟩ := append_ok_nil h
        exact List.forall_mem_cons.mpr ⟨fun _ => no_alternative_of_visitFirst hn, ih hns⟩
      next hk => exact List.forall_mem_cons.mpr ⟨fun hk' => absurd hk' hk, ih h⟩

end Empty

section Steps

variable {children : List Node}

theorem isNormal_applySuffix {suffix? : Option Node} {e : Element} (h : e.IsNormal) :
    (e.applySuffix suffix?).IsNormal := by
  unfold Element.applySuffix
  split
  · exact h
  · split
    · exact .plus h
    · split
      · exact .star h
      · split
        · exact .opt h
        · exact h

/-- Groups and suffixes keep elements in normal form. -/
theorem isNormal_of_wraps (hw : Wraps xs es) (h : ∀ x ∈ xs, x.IsNormal) :
    ∀ e ∈ es, e.IsNormal := by
  cases hw with
  | same => exact h
  | choice hl => simpa using Element.IsNormal.choice hl h
  | seq hl => simpa using Element.IsNormal.seq hl h
  | suffixed =>
    intro e he
    obtain ⟨x, hx, rfl⟩ := List.mem_map.mp he
    exact isNormal_applySuffix (h x hx)

theorem error_of_chosen (h : chosen xs = .error error) : xs = [] ∧ error = .emptyGroup .choice := by
  match xs with
  | [] =>
    cases h
    exact ⟨rfl, rfl⟩
  | [_] => cases h
  | _ :: _ :: _ => cases h

/-- An alternative without parts is refused before a sequence is made of them. -/
theorem error_of_sequenced (h : sequenced line? xs = .error error) :
    xs = [] ∧ error = .emptyAlternative none line? := by
  match xs with
  | [] =>
    cases h
    exact ⟨rfl, rfl⟩
  | [_] => cases h
  | _ :: _ :: _ => cases h

theorem isNormal_of_atomElement {e : Element} (h : n.atomElement line? = .ok e) : e.IsNormal := by
  unfold atomElement at h
  simp only at h
  split at h
  · cases h
    exact .atom
  · cases h
    exact .ref
  · cases h
    exact .ref
  · cases h

theorem unreadable_of_atomElement (h : n.atomElement line? = .error error) :
    n.IsUnreadable ∧ error = .unrecognizedAtom (firstLabel n.children) line? := by
  unfold atomElement at h
  simp only at h
  split at h
  · cases h
  · cases h
  · cases h
  next hliteral htoken hrule =>
    cases h
    refine ⟨⟨fun t ht => ?_, fun r hr => ?_⟩, rfl⟩
    · rw [ht] at hliteral htoken
      exact ⟨hliteral, htoken⟩
    · rw [hr] at hrule
      exact hrule

/-- What is no tree, or of no kind, may stand for nothing. -/
theorem ends_nil (h : n.kind? = none) : n.Ends (.ok []) := by
  refine .elements (by simp) fun kind _ hk => ?_
  cases h.symm.trans hk

/-- A node stands for what is made of a row below it. -/
theorem EndsRow.bind {make : List Element → Except ExtractionError (List Element)}
    (h : EndsRow children r) (hw : ∀ xs es, make xs = .ok es → Wraps xs es)
    (hone : ∀ xs es, make xs = .ok es →
      ∀ kind ∈ singleKinds, NodeKind.ofLabel? label = some kind → es.length = 1)
    (hfault : ∀ xs error, r = .ok xs → make xs = .error error →
      Fault (tree label line? children) error) :
    Ends (tree label line? children) (r >>= make) := by
  cases h with
  | fault hn hi hf => exact .fault (.deeper hn hi) hf
  | @elements xs hxs =>
    have hbind : (Except.ok xs >>= make) = make xs := rfl
    rw [hbind]
    cases hm : make xs with
    | ok es => exact .elements (isNormal_of_wraps (hw xs es hm) hxs) (hone xs es hm)
    | error error => exact .fault .self (hfault xs error rfl hm)

/-- A node of no special kind ends as the row below it. -/
theorem EndsRow.plain (h : EndsRow children r)
    (hk : ∀ kind ∈ singleKinds, NodeKind.ofLabel? label ≠ some kind) :
    Ends (tree label line? children) r := by
  cases h with
  | elements hes => exact .elements hes fun kind hm hl => absurd hl (hk kind hm)
  | fault hn hi hf => exact .fault (.deeper hn hi) hf

theorem EndsRow.suffixed {suffix? : Option Node} (h : EndsRow children r)
    (hk : ∀ kind ∈ singleKinds, NodeKind.ofLabel? label ≠ some kind) :
    Ends (tree label line? children) (do return (← r).map (Element.applySuffix suffix?)) := by
  refine h.bind (fun xs es hm => ?_) (fun _ _ _ kind hs hl => absurd hl (hk kind hs)) ?_
  · cases hm
    exact .suffixed suffix?
  · intro xs error _ hm
    cases hm

/-- A tree ends in one of these ways if what is one and two levels below it does. -/
theorem tree_ends (h : ∀ n ∈ children, n.Ends n.visit)
    (hbelow : ∀ n ∈ children, ∀ m ∈ n.children, m.Ends m.visit) :
    (tree label line? children).Ends (tree label line? children).visit := by
  rw [visit]
  split
  case _ hk =>
    refine (visitLabeled_ends hbelow).bind (fun _ _ => wraps_of_chosen)
      (fun _ _ hm _ _ _ => length_of_chosen hm) fun xs error hx hm => ?_
    obtain ⟨rfl, rfl⟩ := error_of_chosen hm
    exact .ruleAltList hk (no_alternative_of_visitLabeled hx)
  case _ hk =>
    refine (visitEach_ends h).bind (fun _ _ => wraps_of_chosen)
      (fun _ _ hm _ _ _ => length_of_chosen hm) fun xs error hx hm => ?_
    obtain ⟨rfl, rfl⟩ := error_of_chosen hm
    exact .altList hk (no_alternative_of_visitEach hx)
  case _ hk =>
    refine (visitEach_ends h).bind (fun _ _ => wraps_of_sequenced)
      (fun _ _ hm _ _ _ => length_of_sequenced hm) fun xs error hx hm => ?_
    obtain ⟨rfl, rfl⟩ := error_of_sequenced hm
    exact .alternative hk (visit_of_visitEach_nil hx)
  case _ hk => exact (visitAll_ends h).suffixed (by simp [hk, singleKinds])
  case _ hk => exact (visitFirst_ends h).suffixed (by simp [hk, singleKinds])
  case _ hk => exact (visitFirst_ends h).plain (by simp [hk, singleKinds])
  case _ hk =>
    cases ha : (tree label line? children).atomElement line? with
    | ok e =>
      have he := isNormal_of_atomElement ha
      exact .elements (by simpa using he) fun _ _ _ => rfl
    | error error =>
      obtain ⟨hu, rfl⟩ := unreadable_of_atomElement ha
      exact .fault .self (.atom hk hu)
  case _ hrule halts halt _ _ _ hatom =>
    refine (visitAll_ends h).plain fun kind hm hk => ?_
    simp only [singleKinds, List.mem_cons, List.not_mem_nil, or_false] at hm
    rcases hm with rfl | rfl | rfl | rfl
    · exact hrule hk
    · exact halts hk
    · exact halt hk
    · exact hatom hk

end Steps

mutual

theorem visit_ends_within : ∀ n : Node, n.Ends n.visit ∧ ∀ m ∈ n.children, m.Ends m.visit
  | missing => ⟨ends_nil rfl, by simp [children]⟩
  | token _ _ => ⟨ends_nil rfl, by simp [children]⟩
  | tree _ _ children => by
    have h := visit_ends_among children
    exact ⟨tree_ends (fun n hn => (h n hn).1) fun n hn => (h n hn).2, fun n hn => (h n hn).1⟩

theorem visit_ends_among :
    ∀ ns : List Node, ∀ n ∈ ns, n.Ends n.visit ∧ ∀ m ∈ n.children, m.Ends m.visit
  | [] => fun _ hn => nomatch hn
  | n :: ns => List.forall_mem_cons.mpr ⟨visit_ends_within n, visit_ends_among ns⟩

end

/-- Extraction of a tree, wherever it comes from, gives elements in normal form, or the error for
what is wrong with some node in it. -/
theorem visit_ends (n : Node) : n.Ends n.visit :=
  (visit_ends_within n).1

-- A list of alternatives may be without any, but no sequence is made of nothing.
example : (tree "rule_alt_list" none []).visit = .error (.emptyGroup .choice) := rfl

end Node
end GrammarDoc
