import GrammarDoc.Element.Basic

namespace GrammarDoc

namespace Element

mutual

/-- An element without foreign values. -/
def isGenuine : Element → Bool
  | atom _ => true
  | ref _ => true
  | opt e => isGenuine e
  | plus e => isGenuine e
  | star e => isGenuine e
  | choice es => areGenuine es
  | seq es => areGenuine es
  | foreign _ => false

def areGenuine : List Element → Bool
  | [] => true
  | e :: es => isGenuine e && areGenuine es

end

mutual

/-- Without foreign values, structural equality is equality. -/
theorem eq_of_samePart {a b : Element} (ha : a.isGenuine) (h : samePart a b) : a = b := by
  match a, b with
  | atom a, b =>
    cases b with
    | atom b => exact congrArg atom (eq_of_beq h)
    | _ => cases h
  | ref a, b =>
    cases b with
    | ref b => exact congrArg ref (eq_of_beq h)
    | _ => cases h
  | opt a, b =>
    cases b with
    | opt b => exact congrArg opt (eq_of_samePart ha h)
    | _ => cases h
  | plus a, b =>
    cases b with
    | plus b => exact congrArg plus (eq_of_samePart ha h)
    | _ => cases h
  | star a, b =>
    cases b with
    | star b => exact congrArg star (eq_of_samePart ha h)
    | _ => cases h
  | choice as, b =>
    cases b with
    | choice bs => exact congrArg choice (eq_of_sameParts ha h)
    | _ => cases h
  | seq as, b =>
    cases b with
    | seq bs => exact congrArg seq (eq_of_sameParts ha h)
    | _ => cases h
  | foreign v, _ => cases ha

theorem eq_of_sameParts {as bs : List Element} (ha : areGenuine as) (h : sameParts as bs) :
    as = bs := by
  match as, bs with
  | [], [] => rfl
  | [], _ :: _ => cases h
  | _ :: _, [] => cases h
  | a :: as, b :: bs =>
    simp only [areGenuine, Bool.and_eq_true] at ha
    simp only [sameParts, Bool.and_eq_true] at h
    rw [eq_of_samePart ha.1 h.1, eq_of_sameParts ha.2 h.2]

end

end Element

/-- A result is a given list of rules without foreign values. -/
def isRules {ε : Type} (rules : List Rule) : Except ε (List Rule) → Bool
  | .ok found =>
    Element.areGenuine (rules.map Rule.right) && rules.map Rule.left == found.map Rule.left &&
      Element.sameParts (rules.map Rule.right) (found.map Rule.right)
  | .error _ => false

theorem eq_of_isRules {ε : Type} {rules : List Rule} {result : Except ε (List Rule)}
    (h : isRules rules result) : result = .ok rules := by
  cases result with
  | error => cases h
  | ok found =>
    simp only [isRules, Bool.and_eq_true, beq_iff_eq] at h
    obtain ⟨⟨hg, hl⟩, hs⟩ := h
    have hr := Element.eq_of_sameParts hg hs
    congr 1
    clear hg hs
    induction rules generalizing found with
    | nil => simpa using hl.symm
    | cons r rules ih =>
      cases found with
      | nil => simp at hl
      | cons s found =>
        simp only [List.map_cons, List.cons.injEq] at hl hr
        obtain ⟨left, right⟩ := r
        obtain ⟨left', right'⟩ := s
        cases hl.1
        cases hr.1
        rw [ih found hl.2 hr.2]

end GrammarDoc
