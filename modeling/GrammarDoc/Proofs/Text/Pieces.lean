import Mathlib.Data.List.Infix
import GrammarDoc.Text.Joining

namespace GrammarDoc.Text

/-- The pieces of a text between the places where a separator stands. They are looked for from left
to right and do not overlap. -/
def piecesOf (sep : List Char) : List Char → List (List Char)
  | [] => [[]]
  | c :: cs =>
    if sep ≠ [] ∧ sep <+: c :: cs then [] :: piecesOf sep (cs.drop (sep.length - 1))
    else (piecesOf sep cs).modifyHead (List.cons c)
termination_by cs => cs.length
decreasing_by
  · exact Nat.lt_succ_of_le (List.drop_sublist _ cs).length_le
  · exact Nat.lt_succ_self _

/-- The pieces of a text between the places where a separator stands. -/
def pieces (sep s : String) : List String :=
  (piecesOf sep.toList s.toList).map String.ofList

/-- No separator starts within a text, even if one stands right behind it. -/
def Avoids (sep : List Char) : List Char → Prop
  | [] => True
  | c :: cs => ¬sep <+: (c :: cs) ++ sep.dropLast ∧ Avoids sep cs

variable {sep b cs rest : List Char} {c : Char}

/-- The next separator starts behind a text that avoids it, whatever comes after that one. -/
theorem not_prefix_of_avoids (h : Avoids sep (c :: cs)) : ¬sep <+: c :: (cs ++ (sep ++ rest)) := by
  intro hp
  have hlast : (c :: cs) ++ sep.dropLast <+: (c :: cs) ++ (sep ++ rest) :=
    (List.prefix_append_right_inj _).mpr ((List.dropLast_prefix sep).trans (List.prefix_append ..))
  have hl : sep.length ≤ ((c :: cs) ++ sep.dropLast).length := by
    simp only [List.length_append, List.length_cons, List.length_dropLast]
    omega
  exact h.1 (List.prefix_of_prefix_length_le hp hlast hl)

theorem piecesOf_cons (h : ¬sep <+: c :: cs) :
    piecesOf sep (c :: cs) = (piecesOf sep cs).modifyHead (List.cons c) := by
  rw [piecesOf, if_neg fun hs => h hs.2]

theorem piecesOf_separator (hs : sep ≠ []) :
    piecesOf sep (sep ++ rest) = [] :: piecesOf sep rest := by
  cases sep with
  | nil => exact absurd rfl hs
  | cons c cs =>
    have hp : c :: cs <+: c :: (cs ++ rest) := List.prefix_append (c :: cs) rest
    have hd : (cs ++ rest).drop ((c :: cs).length - 1) = rest := by simp
    rw [List.cons_append, piecesOf, if_pos ⟨hs, hp⟩, hd]

/-- A text that avoids the separator is the first piece if a separator follows. -/
theorem piecesOf_append (hs : sep ≠ []) (h : Avoids sep b) :
    piecesOf sep (b ++ (sep ++ rest)) = b :: piecesOf sep rest := by
  induction b with
  | nil => exact piecesOf_separator hs
  | cons c cs ih =>
    rw [List.cons_append, piecesOf_cons (not_prefix_of_avoids h), ih h.2]
    rfl

theorem piecesOf_of_avoids (h : Avoids sep b) : piecesOf sep b = [b] := by
  induction b with
  | nil => rw [piecesOf]
  | cons c cs ih =>
    have hp : ¬sep <+: c :: cs := fun hp => h.1 (hp.trans (List.prefix_append ..))
    rw [piecesOf_cons hp, ih h.2]
    rfl

/-- Texts that avoid the separator are the pieces of what is put together from them. -/
theorem piecesOf_intercalate {bs : List (List Char)} (hs : sep ≠ []) (hn : bs ≠ [])
    (h : ∀ b ∈ bs, Avoids sep b) : piecesOf sep (sep.intercalate bs) = bs := by
  induction bs with
  | nil => exact absurd rfl hn
  | cons b bs ih =>
    have hb := h b List.mem_cons_self
    cases bs with
    | nil => simpa using piecesOf_of_avoids hb
    | cons b' bs =>
      have hbs := ih (List.cons_ne_nil _ _) fun x hx => h x (List.mem_cons_of_mem _ hx)
      rw [List.intercalate_cons_cons, List.append_assoc, piecesOf_append hs hb, hbs]

theorem pieces_intercalate {s : String} {texts : List String} (hs : s ≠ "") (hn : texts ≠ [])
    (h : ∀ text ∈ texts, Avoids s.toList text.toList) :
    pieces s (s.intercalate texts) = texts := by
  have hsep : s.toList ≠ [] := by simpa using hs
  have hb : ∀ b ∈ texts.map String.toList, Avoids s.toList b := by simpa using h
  rw [pieces, String.toList_intercalate, piecesOf_intercalate hsep (by simpa using hn) hb,
    List.map_map]
  simp [Function.comp_def]

-- The leftmost place wins, so that the second piece starts with the third break.
example : pieces "\n\n" "a\n\n\nb" = ["a", "\nb"] := by cbv

/-- A character is avoided by a text without it. -/
theorem avoids_singleton (h : c ∉ b) : Avoids [c] b := by
  induction b with
  | nil => trivial
  | cons d b ih =>
    rw [List.mem_cons, not_or] at h
    refine ⟨fun hp => ?_, ih h.2⟩
    exact h.1 (List.cons_prefix_cons.mp hp).1

/-- No line break is doubled by a line and what avoids that behind it. -/
theorem avoids_append_of_not_mem (hb : '\n' ∉ b) (h : Avoids ['\n', '\n'] cs) :
    Avoids ['\n', '\n'] (b ++ cs) := by
  induction b with
  | nil => exact h
  | cons d b ih =>
    rw [List.mem_cons, not_or] at hb
    refine ⟨fun hp => ?_, ih hb.2⟩
    exact hb.1 (List.cons_prefix_cons.mp hp).1

theorem avoids_break (hc : c ≠ '\n') (h : Avoids ['\n', '\n'] (c :: cs)) :
    Avoids ['\n', '\n'] ('\n' :: c :: cs) := by
  refine ⟨fun hp => ?_, h⟩
  have hp := (List.cons_prefix_cons.mp hp).2
  exact hc (List.cons_prefix_cons.mp hp).1.symm

/-- A text on one line. -/
def IsLine (s : String) : Prop :=
  '\n' ∉ s.toList

instance : DecidablePred IsLine :=
  fun s => inferInstanceAs (Decidable ('\n' ∉ s.toList))

variable {s t : String} {texts : List String}

theorem isLine_append (hs : IsLine s) (ht : IsLine t) : IsLine (s ++ t) := by
  rw [IsLine, String.toList_append, List.mem_append, not_or]
  exact ⟨hs, ht⟩

theorem notMem_intercalate {parts : List (List Char)} (hs : c ∉ sep)
    (h : ∀ part ∈ parts, c ∉ part) : c ∉ sep.intercalate parts := by
  induction parts with
  | nil => exact List.not_mem_nil
  | cons part parts ih =>
    have ih := ih fun q hq => h q (List.mem_cons_of_mem _ hq)
    cases parts with
    | nil => simpa using h part
    | cons q qs =>
      rw [List.intercalate_cons_cons]
      simp [hs, ih, h part List.mem_cons_self]

theorem isLine_intercalate (hs : IsLine s) (h : ∀ t ∈ texts, IsLine t) :
    IsLine (s.intercalate texts) := by
  rw [IsLine, String.toList_intercalate]
  exact notMem_intercalate hs (List.forall_mem_map.mpr h)

theorem isLine_parenthesized (needed : Bool) (h : IsLine s) : IsLine (parenthesized needed s) := by
  cases needed with
  | false => exact h
  | true => exact isLine_append (isLine_append (by decide) h) (by decide)

theorem append_ne_empty_left (h : s ≠ "") : s ++ t ≠ "" :=
  fun he => h (String.append_eq_empty_iff.mp he).1

theorem append_ne_empty_right (h : t ≠ "") : s ++ t ≠ "" :=
  fun he => h (String.append_eq_empty_iff.mp he).2

/-- A text and its lines, none of which is empty. -/
inductive HasLines : String → List String → Prop
  | line {s : String} (hn : s ≠ "") (h : IsLine s) : HasLines s [s]
  | cons {s t : String} {lines : List String} (hn : s ≠ "") (h : IsLine s) (ht : HasLines t lines) :
    HasLines (s ++ ("\n" ++ t)) (s :: lines)

variable {lines lines' : List String}

theorem HasLines.append (hs : HasLines s lines) (ht : HasLines t lines') :
    HasLines (s ++ ("\n" ++ t)) (lines ++ lines') := by
  induction hs with
  | line hn h => exact .cons hn h ht
  | cons hn h _ ih =>
    rw [String.append_assoc, String.append_assoc]
    exact .cons hn h ih

theorem HasLines.ne_nil (h : HasLines s lines) : lines ≠ [] := by
  cases h <;> exact List.cons_ne_nil _ _

/-- Its lines are the pieces of a text between the line breaks. -/
theorem HasLines.pieces_eq (h : HasLines s lines) : pieces "\n" s = lines := by
  induction h with
  | @line s _ h =>
    have hp : piecesOf "\n".toList s.toList = [s.toList] := piecesOf_of_avoids (avoids_singleton h)
    rw [pieces, hp, List.map_singleton, String.ofList_toList]
  | @cons s t lines _ h _ ih =>
    have hs : (s ++ ("\n" ++ t)).toList = s.toList ++ ("\n".toList ++ t.toList) := by simp
    have hp : piecesOf "\n".toList (s.toList ++ ("\n".toList ++ t.toList)) =
        s.toList :: piecesOf "\n".toList t.toList :=
      piecesOf_append (List.cons_ne_nil _ _) (avoids_singleton h)
    rw [pieces, hs, hp, List.map_cons, ← pieces, ih, String.ofList_toList]

/-- A line does not start with a line break. -/
theorem exists_head (hn : s ≠ "") (h : IsLine s) : ∃ c rest, s.toList = c :: rest ∧ c ≠ '\n' := by
  have hne : s.toList ≠ [] := by simpa using hn
  obtain ⟨c, rest, hs⟩ := List.exists_cons_of_ne_nil hne
  refine ⟨c, rest, hs, fun hc => h ?_⟩
  rw [hs, hc]
  exact List.mem_cons_self

theorem HasLines.exists_head (h : HasLines s lines) :
    ∃ c rest, s.toList = c :: rest ∧ c ≠ '\n' := by
  cases h with
  | line hn h => exact Text.exists_head hn h
  | @cons s t _ hn h _ =>
    obtain ⟨c, rest, hs, hc⟩ := Text.exists_head hn h
    exact ⟨c, rest ++ '\n' :: t.toList, by simp [hs], hc⟩

/-- No line break is doubled in a text whose lines are not empty. -/
theorem HasLines.avoids (h : HasLines s lines) : Avoids "\n\n".toList s.toList := by
  induction h with
  | @line s _ h =>
    have hnil : Avoids ['\n', '\n'] [] := trivial
    simpa using avoids_append_of_not_mem h hnil
  | @cons s t _ _ h ht ih =>
    obtain ⟨c, rest, he, hc⟩ := ht.exists_head
    rw [he] at ih
    have hs : (s ++ ("\n" ++ t)).toList = s.toList ++ '\n' :: c :: rest := by simp [he]
    rw [hs]
    exact avoids_append_of_not_mem h (avoids_break hc ih)

end GrammarDoc.Text
