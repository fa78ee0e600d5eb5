import GrammarDoc.Proofs.Source.Spelling
import GrammarDoc.Rendering.Markdown

namespace GrammarDoc.Markdown

/-- Parentheses group, square brackets enclose what may be missing, and braces what may be
repeated. -/
inductive Bracket where
  | round
  | square
  | brace
deriving Repr, DecidableEq

inductive Mark where
  | symbol (e : Element)
  | bar
  | opens (b : Bracket)
  | closes (b : Bracket)
deriving Repr

/-- A literal in a code span, after the opening back quote. -/
def codeSpan? (cs : List Char) : Option (Element × List Char) :=
  match cs.takeWhile (· ≠ '`'), cs.dropWhile (· ≠ '`') with
  | '\'' :: quoted, _ :: after =>
    if quoted.getLast? = some '\'' then some (.atom (String.ofList quoted.dropLast), after)
    else none
  | _, _ => none

/-- A link to the anchor of the rule it names, after the opening mark of its emphasis. -/
def link? : List Char → Option (Element × List Char)
  | '[' :: cs =>
    let name := cs.takeWhile (· ≠ ']')
    let target := "](#grammar-rule-".toList ++ name ++ ")_".toList
    let found := cs.dropWhile (· ≠ ']')
    if target <+: found then some (.ref (String.ofList name), found.drop target.length) else none
  | _ => none

/-- The mark at the start of a text, and the text after it. White space is no mark. -/
def mark? : List Char → Option (Option Mark × List Char)
  | ' ' :: rest => some (none, rest)
  | '\n' :: rest => some (none, rest)
  | '`' :: rest => (codeSpan? rest).map fun p => (some (.symbol p.1), p.2)
  | '_' :: rest => (link? rest).map fun p => (some (.symbol p.1), p.2)
  | '|' :: rest => some (some .bar, rest)
  | '(' :: rest => some (some (.opens .round), rest)
  | ')' :: rest => some (some (.closes .round), rest)
  | '[' :: rest => some (some (.opens .square), rest)
  | ']' :: rest => some (some (.closes .square), rest)
  | '\x7b' :: rest => some (some (.opens .brace), rest)
  | '\x7d' :: rest => some (some (.closes .brace), rest)
  | _ => none

theorem codeSpan?_length_le {cs : List Char} {p : Element × List Char}
    (h : codeSpan? cs = some p) : p.2.length ≤ cs.length := by
  unfold codeSpan? at h
  split at h
  next quoted d after ht hd =>
    split at h
    · cases h
      have hl := (List.dropWhile_suffix (· ≠ '`') (l := cs)).length_le
      rw [hd, List.length_cons] at hl
      exact Nat.le_of_succ_le hl
    · cases h
  next => cases h

theorem link?_length_le {cs : List Char} {p : Element × List Char}
    (h : link? cs = some p) : p.2.length ≤ cs.length := by
  unfold link? at h
  split at h
  next ds =>
    simp only at h
    split at h
    · cases h
      have hl := (List.dropWhile_suffix (· ≠ ']') (l := ds)).length_le
      simp only [List.length_drop, List.length_cons]
      omega
    · cases h
  next => cases h

theorem mark?_shorter {cs : List Char} {p : Option Mark × List Char} (h : mark? cs = some p) :
    p.2.length < cs.length := by
  unfold mark? at h
  split at h
  case h_3 =>
    obtain ⟨q, hq, rfl⟩ := Option.map_eq_some_iff.mp h
    exact Nat.lt_succ_of_le (codeSpan?_length_le hq)
  case h_4 =>
    obtain ⟨q, hq, rfl⟩ := Option.map_eq_some_iff.mp h
    exact Nat.lt_succ_of_le (link?_length_le hq)
  all_goals cases h
  all_goals exact Nat.lt_succ_self _

def marks? (cs : List Char) : Option (List Mark) :=
  match cs with
  | [] => some []
  | c :: rest =>
    match h : mark? (c :: rest) with
    | none => none
    | some (m?, after) =>
      have : after.length < (c :: rest).length := mark?_shorter h
      (marks? after).map (m?.toList ++ ·)
termination_by cs.length
decreasing_by exact this

/-- Alternatives that are read one after the other; the last one is not complete yet. -/
structure Rows where
  earlier : List (List Element)
  row : List Element
deriving Repr

namespace Rows

def empty : Rows :=
  ⟨[], []⟩

def push (r : Rows) (e : Element) : Rows :=
  ⟨r.earlier, r.row ++ [e]⟩

def next (r : Rows) : Rows :=
  ⟨r.earlier ++ [r.row], []⟩

/-- What stands in a row is a sequence, but a single part stands for itself. -/
def sequence : List Element → Element
  | [e] => e
  | es => .seq es

def element (r : Rows) : Element :=
  if r.earlier = [] then sequence r.row else .choice ((r.earlier ++ [r.row]).map sequence)

end Rows

def Bracket.around : Bracket → Element → Element
  | round, e => e
  | square, e => .opt e
  | brace, e => .star e

/-- What is open when a mark is read, from the inside out. -/
abbrev Enclosing := List (Bracket × Rows)

def step : Rows × Enclosing → Mark → Option (Rows × Enclosing)
  | (r, outer), .symbol e => some (r.push e, outer)
  | (r, outer), .bar => some (r.next, outer)
  | (r, outer), .opens b => some (.empty, (b, r) :: outer)
  | (r, (b', r') :: outer), .closes b =>
    if b = b' then some (r'.push (b.around r.element), outer) else none
  | (_, []), .closes _ => none

def run : List Mark → Rows × Enclosing → Option (Rows × Enclosing)
  | [], s => some s
  | m :: ms, s => (step s m).bind (run ms)

/-- The conventional reading of an inline rendering: what stands side by side is a sequence, and a
bar binds weaker. All brackets have to be closed. -/
def read? (text : String) : Option Element := do
  let ms ← marks? text.toList
  let (r, outer) ← run ms (.empty, [])
  if outer.isEmpty then some r.element else none

theorem marks?_of_mark? {cs after : List Char} {m? : Option Mark}
    (h : mark? cs = some (m?, after)) : marks? cs = (marks? after).map (m?.toList ++ ·) := by
  cases cs with
  | nil => cases h
  | cons c rest =>
    rw [marks?]
    split
    next hn => cases hn.symm.trans h
    next hs =>
      cases hs.symm.trans h
      rfl

/-- A text gives some marks, whatever comes after it. -/
def Scans (cs : List Char) (ms : List Mark) : Prop :=
  ∀ rest, marks? (cs ++ rest) = (marks? rest).map (ms ++ ·)

variable {cs ds : List Char} {ms ns : List Mark}

theorem scans_nil : Scans [] [] := by
  intro rest
  exact (Option.map_id' ..).symm

theorem Scans.append (h : Scans cs ms) (h' : Scans ds ns) : Scans (cs ++ ds) (ms ++ ns) := by
  intro rest
  have hms : ((ms ++ ·) ∘ (ns ++ ·) : List Mark → List Mark) = (ms ++ ns ++ ·) := by
    funext later
    exact (List.append_assoc ..).symm
  rw [List.append_assoc, h, h', Option.map_map, hms]

theorem scans_of_mark? {m : Mark} (h : ∀ rest, mark? (cs ++ rest) = some (some m, rest)) :
    Scans cs [m] :=
  fun rest => marks?_of_mark? (h rest)

theorem scans_space {c : Char} (h : ∀ rest, mark? (c :: rest) = some (none, rest)) :
    Scans [c] [] :=
  fun rest => marks?_of_mark? (h rest)

theorem takeWhile_ne_append {c : Char} (h : c ∉ cs) (rest : List Char) :
    (cs ++ c :: rest).takeWhile (· ≠ c) = cs ∧
      (cs ++ c :: rest).dropWhile (· ≠ c) = c :: rest := by
  refine Source.takeWhile_of_stops (fun d hd => ?_) fun d hd => ?_
  · have hne : d ≠ c := fun he => h (he ▸ hd)
    simpa using hne
  · cases hd
    simp

theorem codeSpan?_literal {name : List Char} (h : '`' ∉ name) (rest : List Char) :
    codeSpan? ('\'' :: (name ++ '\'' :: '`' :: rest)) =
      some (.atom (String.ofList name), rest) := by
  have hbody : '`' ∉ '\'' :: (name ++ ['\'']) := by
    simp [h]
  have happ : '\'' :: (name ++ '\'' :: '`' :: rest) = '\'' :: (name ++ ['\'']) ++ '`' :: rest := by
    simp
  obtain ⟨ht, hd⟩ := takeWhile_ne_append hbody rest
  rw [happ, codeSpan?, ht, hd]
  simp

theorem scans_literal {name : String} (h : '`' ∉ name.toList) :
    Scans ("`'" ++ name ++ "'`").toList [.symbol (.atom name)] := by
  have hmark : ∀ rest, mark? (("`'" ++ name ++ "'`").toList ++ rest) =
      some (some (.symbol (.atom name)), rest) := by
    intro rest
    have hcs : ("`'" ++ name ++ "'`").toList ++ rest =
        '`' :: '\'' :: (name.toList ++ '\'' :: '`' :: rest) := by
      simp
    rw [hcs, mark?, codeSpan?_literal h, String.ofList_toList]
    rfl
  exact scans_of_mark? hmark

theorem link?_name {name : List Char} (h : ']' ∉ name) (rest : List Char) :
    link? ('[' :: (name ++ ("](#grammar-rule-".toList ++ name ++ ")_".toList) ++ rest)) =
      some (.ref (String.ofList name), rest) := by
  have htarget : "](#grammar-rule-".toList ++ name ++ ")_".toList ++ rest =
      ']' :: ("(#grammar-rule-".toList ++ name ++ ")_".toList ++ rest) := rfl
  obtain ⟨ht, hd⟩ := takeWhile_ne_append h ("(#grammar-rule-".toList ++ name ++ ")_".toList ++ rest)
  rw [← htarget] at ht hd
  rw [List.append_assoc, link?, ht, hd, if_pos (List.prefix_append _ _), List.drop_left]

theorem scans_link {name : String} (h : ']' ∉ name.toList) :
    Scans ("_[" ++ name ++ "](#" ++ anchor name ++ ")_").toList [.symbol (.ref name)] := by
  have hmark : ∀ rest, mark? (("_[" ++ name ++ "](#" ++ anchor name ++ ")_").toList ++ rest) =
      some (some (.symbol (.ref name)), rest) := by
    intro rest
    have hcs : ("_[" ++ name ++ "](#" ++ anchor name ++ ")_").toList ++ rest = '_' :: '[' ::
        (name.toList ++ ("](#grammar-rule-".toList ++ name.toList ++ ")_".toList) ++ rest) := by
      simp [anchor]
    rw [hcs, mark?, link?_name h, String.ofList_toList]
    rfl
  exact scans_of_mark? hmark

end GrammarDoc.Markdown
