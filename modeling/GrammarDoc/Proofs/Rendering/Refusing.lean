import GrammarDoc.Proofs.Extraction.Failing
import GrammarDoc.Rendering.Ebnf
import GrammarDoc.Rendering.Markdown

namespace GrammarDoc

namespace Element

mutual

/-- The values in an element that are no grammar elements, from left to right. -/
def foreigns : Element → List Value
  | atom _ => []
  | ref _ => []
  | opt e => foreigns e
  | plus e => foreigns e
  | star e => foreigns e
  | choice es => foreignsOfAll es
  | seq es => foreignsOfAll es
  | foreign v => [v]

def foreignsOfAll : List Element → List Value
  | [] => []
  | e :: es => foreigns e ++ foreignsOfAll es

end

/-- The refusal of an element, which is that of the leftmost foreign value in it. -/
def refusal? (e : Element) : Option NotAnElement :=
  e.foreigns.head?.map NotAnElement.mk

/-- The refusal of some elements in a row. -/
def refusalOfAll? (es : List Element) : Option NotAnElement :=
  (foreignsOfAll es).head?.map NotAnElement.mk

theorem refusalOfAll?_cons (e : Element) (es : List Element) :
    refusalOfAll? (e :: es) = e.refusal?.or (refusalOfAll? es) := by
  rw [refusalOfAll?, foreignsOfAll, List.head?_append, Option.map_or]
  rfl

end Element

open Element (refusal? refusalOfAll? refusalOfAll?_cons)

mutual

theorem Ebnf.failure?_write (nested : Bool) : ∀ e, failure? (write nested e) = refusal? e
  | .atom _ => rfl
  | .ref _ => rfl
  | .opt e => (failure?_map _ _).trans (failure?_write true e)
  | .plus e => (failure?_map _ _).trans (failure?_write true e)
  | .star e => (failure?_map _ _).trans (failure?_write true e)
  | .choice es => (failure?_map _ _).trans (failure?_writeMembers es)
  | .seq es => (failure?_map _ _).trans (failure?_writeMembers es)
  | .foreign _ => rfl

theorem Ebnf.failure?_writeMembers : ∀ es, failure? (writeMembers es) = refusalOfAll? es
  | [] => rfl
  | e :: es => by
    have he := failure?_write true e
    have hes := failure?_writeMembers es
    rw [refusalOfAll?_cons, ← he, ← hes]
    exact failure?_map₂ _ _ _

end

mutual

/-- The place of an element has no part in whether it can be written. -/
theorem Markdown.failure?_write : ∀ place e, failure? (write place e) = refusal? e
  | _, .atom _ => rfl
  | _, .ref _ => rfl
  | _, .opt e => (failure?_map _ _).trans (failure?_write .bracketed e)
  | _, .plus e => (failure?_map _ _).trans (failure?_write .bracketed e)
  | _, .star e => (failure?_map _ _).trans (failure?_write .bracketed e)
  | _, .choice es => (failure?_map _ _).trans (failure?_writeMembers es)
  | _, .seq es => (failure?_map _ _).trans (failure?_writeMembers es)
  | _, .foreign _ => rfl

theorem Markdown.failure?_writeMembers : ∀ es, failure? (writeMembers es) = refusalOfAll? es
  | [] => rfl
  | e :: es => by
    have he := failure?_write .member e
    have hes := failure?_writeMembers es
    rw [refusalOfAll?_cons, ← he, ← hes]
    exact failure?_map₂ _ _ _

end

theorem Ebnf.failure?_document (rules : List Rule) :
    failure? (document rules) = rules.findSome? fun r => r.right.refusal? := by
  have hrule : ∀ r : Rule, failure? (rule r) = r.right.refusal? :=
    fun r => (failure?_map _ _).trans (failure?_write false r.right)
  calc failure? (document rules)
    _ = failure? (rules.mapM rule) := failure?_map _ _
    _ = rules.findSome? fun r => failure? (rule r) := failure?_mapM rule rules
    _ = _ := by simp only [hrule]

theorem Markdown.failure?_document (divs : Bool) (rules : List Rule) :
    failure? (document divs rules) = rules.findSome? fun r => r.right.refusal? := by
  have hrule : ∀ r : Rule, failure? (rule r) = r.right.refusal? :=
    fun r => (failure?_map _ _).trans (failure?_write .body r.right)
  have hblock : ∀ r : Rule, failure? (block divs r) = r.right.refusal? :=
    fun r => (failure?_map _ _).trans (hrule r)
  calc failure? (document divs rules)
    _ = failure? (rules.mapM (block divs)) := failure?_map _ _
    _ = rules.findSome? fun r => failure? (block divs r) := failure?_mapM (block divs) rules
    _ = _ := by simp only [hblock]

/-- What is said of the value at which a rendering fails. -/
def complaint? (r : Except NotAnElement String) : Option Complaint :=
  (failure? r).map NotAnElement.complaint

theorem complaint?_eq_notAnElement_iff {r : Except NotAnElement String} {text : String} :
    complaint? r = some (.notAnElement text) ↔
      ∃ v, failure? r = some ⟨v⟩ ∧ v.isWritable ∧ v.inspect = text := by
  have hnamed : ∀ e : NotAnElement, e.complaint = .notAnElement text ↔
      e.value.isWritable ∧ e.value.inspect = text := by
    intro e
    rw [NotAnElement.complaint]
    split
    next h => simp [h]
    next h => simp [h]
  simp only [complaint?, Option.map_eq_some_iff, hnamed]
  constructor
  · rintro ⟨⟨v⟩, hr, hv⟩
    exact ⟨v, hr, hv⟩
  · rintro ⟨v, hr, hv⟩
    exact ⟨⟨v⟩, hr, hv⟩

/-- Both renderings refuse an element exactly if a foreign value stands in it, and say the same of
the leftmost one: that it is no element, if it can be written. They refuse rules exactly if they
refuse one of them, and say the same of the first such rule. -/
theorem renderings_refuse_alike (e : Element) (rules : List Rule) :
    ((failure? (Ebnf.element e)).isSome = !e.foreigns.isEmpty ∧
      (∀ text, complaint? (Ebnf.element e) = some (.notAnElement text) ↔
        ∃ v, e.foreigns.head? = some v ∧ v.isWritable ∧ v.inspect = text) ∧
      ∀ topLevel, failure? (Markdown.element topLevel e) = failure? (Ebnf.element e)) ∧
    failure? (Ebnf.document rules) =
      rules.findSome? (fun r => failure? (Ebnf.element r.right)) ∧
    ∀ divs, failure? (Markdown.document divs rules) = failure? (Ebnf.document rules) := by
  have helement : ∀ e, failure? (Ebnf.element e) = refusal? e := Ebnf.failure?_write false
  refine ⟨⟨?_, fun text => ?_, fun topLevel => ?_⟩, ?_, fun divs => ?_⟩
  · rw [helement, refusal?]
    cases e.foreigns <;> rfl
  · rw [complaint?_eq_notAnElement_iff, helement, refusal?]
    simp
  · exact (Markdown.failure?_write _ e).trans (helement e).symm
  · simp only [helement]
    exact Ebnf.failure?_document rules
  · exact (Markdown.failure?_document divs rules).trans (Ebnf.failure?_document rules).symm

/-- Of an integer that is too long to be written neither rendering says that it is no element. -/
theorem long_integer_unnamed :
    let e := Element.opt (.foreign (.int (.ofNat (Nat.pow 10 5000))))
    complaint? (Ebnf.element e) = some .unwritable ∧
      complaint? (Markdown.element false e) = some .unwritable ∧
      ¬∃ text, complaint? (Ebnf.element e) = some (.notAnElement text) := by
  intro e
  have hebnf : complaint? (Ebnf.element e) = some .unwritable := by decide +kernel
  refine ⟨hebnf, by decide +kernel, ?_⟩
  rintro ⟨text, h⟩
  cases hebnf.symm.trans h

end GrammarDoc
