import GrammarDoc.Proofs.Extraction.Language
import GrammarDoc.Proofs.Rendering.Alternatives
import GrammarDoc.Proofs.Rendering.Spelled

namespace GrammarDoc.Markdown

open Element (grouped)
open scoped Computability

/-- An element whose Markdown can be read: no literal holds a back quote, and no name, as no
identifier does, a bracket. -/
inductive Readable : Element → Prop
  | atom {name : String} : '`' ∉ name.toList → Readable (.atom name)
  | ref {name : String} : ']' ∉ name.toList → Readable (.ref name)
  | opt {e : Element} : Readable e → Readable (.opt e)
  | plus {e : Element} : Readable e → Readable (.plus e)
  | star {e : Element} : Readable e → Readable (.star e)
  | choice {es : List Element} :
      2 ≤ es.length → (∀ e ∈ es, Readable e) → Readable (.choice es)
  | seq {es : List Element} : 2 ≤ es.length → (∀ e ∈ es, Readable e) → Readable (.seq es)

/-- Something between brackets. -/
def between (b : Bracket) (ms : List Mark) : List Mark :=
  .opens b :: (ms ++ [.closes b])

mutual

/-- The marks of an element, with parentheses around it if it is a member. -/
def marks (member : Bool) : Element → List Mark
  | .atom name => [.symbol (.atom name)]
  | .ref name => [.symbol (.ref name)]
  | .opt e => between .square (marks false e)
  | .plus e =>
    grouped member (.opens .round) (.closes .round)
      (marks false e ++ between .brace (marks false e))
  | .star e => between .brace (marks false e)
  | .choice es =>
    grouped member (.opens .round) (.closes .round) ([.bar].intercalate (marksOfAll es))
  | .seq es => grouped member (.opens .round) (.closes .round) (marksOfAll es).flatten
  | .foreign _ => []

def marksOfAll : List Element → List (List Mark)
  | [] => []
  | e :: es => marks true e :: marksOfAll es

end

mutual

/-- The rows that are read from the Markdown of an element. The repetition of a plus joins the last
one of them. -/
def rows : Element → Rows
  | .atom name => Rows.empty.push (.atom name)
  | .ref name => Rows.empty.push (.ref name)
  | .opt e => Rows.empty.push (.opt (rows e).element)
  | .plus e => (rows e).push (.star (rows e).element)
  | .star e => Rows.empty.push (.star (rows e).element)
  | .choice es => .ofAlternatives (readingOfAll es)
  | .seq es => ⟨[], readingOfAll es⟩
  | .foreign _ => .empty

def readingOfAll : List Element → List Element
  | [] => []
  | e :: es => (rows e).element :: readingOfAll es

end

/-- What the Markdown of an element is read as. -/
def reading (e : Element) : Element :=
  (rows e).element

variable {e : Element} {es : List Element} {r : Rows} {outer : Enclosing}

theorem marksOfAll_eq_map (es : List Element) : marksOfAll es = es.map (marks true) := by
  induction es with
  | nil => rfl
  | cons e es ih => rw [marksOfAll, ih, List.map_cons]

theorem readingOfAll_eq_map (es : List Element) : readingOfAll es = es.map reading := by
  induction es with
  | nil => rfl
  | cons e es ih =>
    rw [readingOfAll, ih]
    rfl

section Writing

theorem scans_between {b : Bracket} {opening closing : Char} {cs : List Char} {ms : List Mark}
    (ho : ∀ rest, mark? (opening :: rest) = some (some (.opens b), rest))
    (hc : ∀ rest, mark? (closing :: rest) = some (some (.closes b), rest)) (h : Scans cs ms) :
    Scans (opening :: (cs ++ [closing])) (between b ms) := by
  have hopen : Scans [opening] [.opens b] := scans_of_mark? ho
  have hclose : Scans [closing] [.closes b] := scans_of_mark? hc
  exact hopen.append (h.append hclose)

theorem scans_grouped {cs : List Char} {ms : List Mark} (member : Bool) (h : Scans cs ms) :
    Scans (grouped member '(' ')' cs) (grouped member (.opens .round) (.closes .round) ms) := by
  cases member with
  | false => exact h
  | true => exact scans_between (fun _ => rfl) (fun _ => rfl) h

theorem scans_spaces {cs : List Char} (h : ∀ c ∈ cs, c = ' ' ∨ c = '\n') : Scans cs [] := by
  induction cs with
  | nil => exact scans_nil
  | cons c cs ih =>
    have hc : Scans [c] [] := by
      rcases h c List.mem_cons_self with rfl | rfl
      · exact scans_space fun _ => rfl
      · exact scans_space fun _ => rfl
    exact hc.append (ih fun d hd => h d (List.mem_cons_of_mem _ hd))

theorem scans_choiceSeparator (place : Place) :
    Scans (choiceSeparator place).toList [.bar] := by
  have hbar : Scans " | ".toList [.bar] := by
    have h : Scans ['|'] [.bar] := scans_of_mark? fun _ => rfl
    have hs : Scans [' '] [] := scans_spaces (by simp)
    exact hs.append (h.append hs)
  have hbreak : Scans hardBreak.toList [] := scans_spaces (by simp [hardBreak])
  rw [choiceSeparator]
  split
  · rw [String.toList_append]
    exact hbreak.append hbar
  · exact hbar

theorem scans_seqSeparator (place : Place) (size : Nat) :
    Scans (seqSeparator place size).toList [] := by
  rw [seqSeparator]
  split
  · exact scans_spaces (by simp [hardBreak])
  · exact scans_spaces (by simp)

theorem scans_intercalate {sep : List Char} {mark : List Mark} (hsep : Scans sep mark)
    {parts : List (List Char × List Mark)} (h : ∀ p ∈ parts, Scans p.1 p.2) :
    Scans (sep.intercalate (parts.map Prod.fst)) (mark.intercalate (parts.map Prod.snd)) := by
  induction parts with
  | nil => exact scans_nil
  | cons p parts ih =>
    have hp := h p List.mem_cons_self
    have ih := ih fun q hq => h q (List.mem_cons_of_mem _ hq)
    cases parts with
    | nil => simpa using hp
    | cons q qs =>
      simp only [List.map_cons] at ih ⊢
      rw [List.intercalate_cons_cons, List.intercalate_cons_cons]
      exact (hp.append hsep).append ih

/-- The written members of a choice or a sequence, each with its marks. -/
theorem exists_members (h : ∀ e ∈ es, ∃ text, write .member e = .ok text ∧
      Scans text.toList (marks true e)) :
    ∃ parts : List (List Char × List Mark),
      writeMembers es = .ok ((parts.map Prod.fst).map String.ofList) ∧
      parts.map Prod.snd = marksOfAll es ∧ ∀ p ∈ parts, Scans p.1 p.2 := by
  induction es with
  | nil => exact ⟨[], rfl, rfl, by simp⟩
  | cons e es ih =>
    obtain ⟨text, hw, hs⟩ := h e List.mem_cons_self
    obtain ⟨parts, hws, hm, hp⟩ := ih fun x hx => h x (List.mem_cons_of_mem _ hx)
    refine ⟨(text.toList, marks true e) :: parts, ?_, ?_, ?_⟩
    · rw [writeMembers, hw, hws, List.map_cons, List.map_cons, String.ofList_toList]
      rfl
    · rw [List.map_cons, hm, marksOfAll]
    · exact List.forall_mem_cons.mpr ⟨hs, hp⟩

theorem write_scans (h : Readable e) : ∀ place, ∃ text, write place e = .ok text ∧
    Scans text.toList (marks (place = .member) e) := by
  induction h with
  | @atom name h => exact fun place => ⟨_, rfl, scans_literal h⟩
  | @ref name h => exact fun place => ⟨_, rfl, scans_link h⟩
  | @opt e _ ih =>
    intro place
    obtain ⟨text, hw, hs⟩ := ih .bracketed
    refine ⟨"[" ++ text ++ "]", by rw [write, hw]; rfl, ?_⟩
    have hcs : ("[" ++ text ++ "]").toList = '[' :: (text.toList ++ [']']) := by simp
    rw [hcs]
    exact scans_between (fun _ => rfl) (fun _ => rfl) hs
  | @plus e _ ih =>
    intro place
    obtain ⟨text, hw, hs⟩ := ih .bracketed
    refine ⟨_, by rw [write, hw]; rfl, ?_⟩
    have hcs : (text ++ " \x7b" ++ text ++ "\x7d").toList =
        text.toList ++ ([' '] ++ '\x7b' :: (text.toList ++ ['\x7d'])) := by simp
    have hspace : Scans [' '] [] := scans_space fun _ => rfl
    have hbody : Scans ('\x7b' :: (text.toList ++ ['\x7d'])) (between .brace (marks false e)) :=
      scans_between (fun _ => rfl) (fun _ => rfl) hs
    rw [Element.parenthesized_eq, String.toList_ofList, hcs]
    exact scans_grouped _ (hs.append (hspace.append hbody))
  | @star e _ ih =>
    intro place
    obtain ⟨text, hw, hs⟩ := ih .bracketed
    refine ⟨"\x7b" ++ text ++ "\x7d", by rw [write, hw]; rfl, ?_⟩
    have hcs : ("\x7b" ++ text ++ "\x7d").toList = '\x7b' :: (text.toList ++ ['\x7d']) := by simp
    rw [hcs]
    exact scans_between (fun _ => rfl) (fun _ => rfl) hs
  | @choice es _ _ ih =>
    intro place
    obtain ⟨parts, hw, hm, hs⟩ := exists_members fun e he => ih e he .member
    refine ⟨_, by rw [write, hw]; rfl, ?_⟩
    rw [Element.parenthesized_eq, String.toList_ofList, Element.intercalate_eq,
      String.toList_ofList]
    have hscan := scans_intercalate (scans_choiceSeparator place) hs
    rw [hm] at hscan
    exact scans_grouped _ hscan
  | @seq es _ _ ih =>
    intro place
    obtain ⟨parts, hw, hm, hs⟩ := exists_members fun e he => ih e he .member
    refine ⟨_, by rw [write, hw]; rfl, ?_⟩
    rw [Element.parenthesized_eq, String.toList_ofList, Element.intercalate_eq,
      String.toList_ofList]
    have hscan := scans_intercalate (scans_seqSeparator place es.length) hs
    rw [hm, Element.nil_intercalate] at hscan
    exact scans_grouped _ hscan

end Writing

section Reading

variable {ms ns : List Mark} {s : Rows × Enclosing}

theorem run_eq_foldlM (ms : List Mark) (s : Rows × Enclosing) : run ms s = ms.foldlM step s := by
  induction ms generalizing s with
  | nil => rfl
  | cons m ms ih =>
    rw [run, List.foldlM_cons]
    exact congrArg _ (funext ih)

theorem run_append_of_some {t : Rows × Enclosing} (h : run ms s = some t) :
    run (ms ++ ns) s = run ns t := by
  rw [run_eq_foldlM] at h
  rw [run_eq_foldlM, run_eq_foldlM, List.foldlM_append, h]
  rfl

/-- What stands between brackets is one part of the row around it. -/
theorem run_between {b : Bracket} {r r' : Rows}
    (h : run ms (.empty, (b, r) :: outer) = some (r', (b, r) :: outer)) :
    run (between b ms) (r, outer) = some (r.push (b.around r'.element), outer) := by
  have hopen : run (between b ms) (r, outer) =
      run (ms ++ [.closes b]) (.empty, (b, r) :: outer) := rfl
  rw [hopen, run_append_of_some h, run, step, if_pos rfl]
  rfl

/-- A member joins the row in which it stands. -/
def Joins (e : Element) : Prop :=
  ∀ r outer, run (marks true e) (r, outer) = some (r.push (reading e), outer)

theorem Joins.adds (h : Joins e) : Rows.Adds step (marks true e) (reading e) := by
  intro r outer
  rw [← run_eq_foldlM]
  exact h r outer

theorem run_row (h : ∀ e ∈ es, Joins e) (r : Rows) (outer : Enclosing) :
    run (marksOfAll es).flatten (r, outer) =
      some (⟨r.earlier, r.row ++ readingOfAll es⟩, outer) := by
  rw [run_eq_foldlM, marksOfAll_eq_map, readingOfAll_eq_map]
  exact Rows.foldlM_row (fun e he => (h e he).adds) r outer

theorem run_alternatives (hn : es ≠ []) (h : ∀ e ∈ es, Joins e)
    (earlier : List (List Element)) (outer : Enclosing) :
    run ([.bar].intercalate (marksOfAll es)) (⟨earlier, []⟩, outer) =
      some (⟨earlier ++ (Rows.ofAlternatives (readingOfAll es)).earlier,
        (Rows.ofAlternatives (readingOfAll es)).row⟩, outer) := by
  rw [run_eq_foldlM, marksOfAll_eq_map, readingOfAll_eq_map]
  exact Rows.foldlM_alternatives (fun _ _ => rfl) hn (fun e he => (h e he).adds) earlier outer

/-- The marks of an element are read as its rows, and a member is one part of a row. -/
theorem run_marks (h : Readable e) :
    (∀ outer, run (marks false e) (.empty, outer) = some (rows e, outer)) ∧ Joins e := by
  induction h with
  | atom => exact ⟨fun _ => rfl, fun _ _ => rfl⟩
  | ref => exact ⟨fun _ => rfl, fun _ _ => rfl⟩
  | opt _ ih => exact ⟨fun outer => run_between (ih.1 _), fun r outer => run_between (ih.1 _)⟩
  | star _ ih => exact ⟨fun outer => run_between (ih.1 _), fun r outer => run_between (ih.1 _)⟩
  | @plus e _ ih =>
    have hrows : ∀ outer, run (marks false (.plus e)) (.empty, outer) =
        some (rows (.plus e), outer) := by
      intro outer
      have hbody := run_between (b := .brace) (r := rows e) (ih.1 ((.brace, rows e) :: outer))
      exact (run_append_of_some (ih.1 outer)).trans hbody
    exact ⟨hrows, fun r outer => run_between (hrows _)⟩
  | @choice es hl _ ih =>
    have hn : es ≠ [] := List.ne_nil_of_length_pos (by omega)
    have hrows : ∀ outer, run (marks false (.choice es)) (.empty, outer) =
        some (rows (.choice es), outer) :=
      run_alternatives hn (fun e he => (ih e he).2) []
    exact ⟨hrows, fun r outer => run_between (hrows _)⟩
  | @seq es _ _ ih =>
    have hrows : ∀ outer, run (marks false (.seq es)) (.empty, outer) =
        some (rows (.seq es), outer) :=
      run_row (fun e he => (ih e he).2) .empty
    exact ⟨hrows, fun r outer => run_between (hrows _)⟩

theorem exists_text_read (h : Readable e) (topLevel : Bool) :
    ∃ text, element topLevel e = .ok text ∧ read? text = some (reading e) := by
  have hplace : (if topLevel then Place.body else .bracketed) ≠ .member := by
    cases topLevel <;> decide
  obtain ⟨text, hw, hs⟩ := write_scans h (if topLevel then .body else .bracketed)
  rw [decide_eq_false hplace] at hs
  have hmarks : marks? text.toList = some (marks false e) := by
    have hscan := hs []
    have hnil : marks? [] = some [] := by rw [marks?]
    rw [List.append_nil, hnil, Option.map_some, List.append_nil] at hscan
    exact hscan
  refine ⟨text, hw, ?_⟩
  simp only [read?, hmarks, (run_marks h).1, Option.bind_eq_bind, Option.bind_some]
  rfl

end Reading

end GrammarDoc.Markdown
