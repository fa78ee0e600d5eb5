import GrammarDoc.Proofs.Source.Blanking
import GrammarDoc.Proofs.Source.Spelling

namespace GrammarDoc

/-- A part of a text, with the offset of its first character and the offset just past its last
one. -/
structure Stretch (α : Type) where
  part : α
  first : Nat
  last : Nat
deriving Repr, DecidableEq

namespace Stretch

variable {α β : Type}

/-- Parts that follow each other from an offset on. -/
def row (text : α → List Char) (offset : Nat) : List α → List (Stretch α)
  | [] => []
  | x :: xs => ⟨x, offset, offset + (text x).length⟩ :: row text (offset + (text x).length) xs

/-- Where a part stands in a text, by its offsets. -/
def spanIn (cs : List Char) (s : Stretch α) : Text.Span :=
  ⟨⟨Text.lineAt cs s.first, Text.columnAt cs s.first⟩,
    ⟨Text.lineAt cs s.last, Text.columnAt cs s.last⟩⟩

/-- What a part is, if it is anything. -/
def map? (f : α → Option β) (s : Stretch α) : Option (Stretch β) :=
  (f s.part).map fun y => ⟨y, s.first, s.last⟩

theorem row_append (text : α → List Char) (offset : Nat) (xs ys : List α) :
    row text offset (xs ++ ys) =
      row text offset xs ++ row text (offset + (xs.flatMap text).length) ys := by
  induction xs generalizing offset with
  | nil => rfl
  | cons x xs ih =>
    have hl : offset + (text x).length + (xs.flatMap text).length =
        offset + ((x :: xs).flatMap text).length := by
      rw [List.flatMap_cons, List.length_append, Nat.add_assoc]
    rw [List.cons_append, row, ih, hl]
    rfl

theorem exists_of_row_eq_append {text : α → List Char} {offset : Nat} {xs : List α}
    {before after : List (Stretch α)} {s : Stretch α}
    (h : row text offset xs = before ++ s :: after) :
    ∃ ys zs, xs = ys ++ s.part :: zs ∧ before = row text offset ys ∧
      s.first = offset + (ys.flatMap text).length := by
  induction before generalizing offset xs with
  | nil =>
    cases xs with
    | nil => cases h
    | cons x xs =>
      obtain ⟨rfl, -⟩ := List.cons.inj h
      exact ⟨[], xs, rfl, rfl, rfl⟩
  | cons b before ih =>
    cases xs with
    | nil => cases h
    | cons x xs =>
      obtain ⟨rfl, hrow⟩ := List.cons.inj h
      obtain ⟨ys, zs, rfl, rfl, hfirst⟩ := ih hrow
      refine ⟨x :: ys, zs, rfl, rfl, ?_⟩
      rw [hfirst, List.flatMap_cons, List.length_append, Nat.add_assoc]

theorem filterMap_row_of_none {text : α → List Char} {f : α → Option β} {offset : Nat}
    {xs : List α} (h : ∀ x ∈ xs, f x = none) : (row text offset xs).filterMap (map? f) = [] := by
  induction xs generalizing offset with
  | nil => rfl
  | cons x xs ih =>
    have hx : map? f ⟨x, offset, offset + (text x).length⟩ = none := by
      simp [map?, h x List.mem_cons_self]
    rw [row, List.filterMap_cons_none hx]
    exact ih fun y hy => h y (List.mem_cons_of_mem _ hy)

theorem first_le_of_mem_row {text : α → List Char} {offset : Nat} {xs : List α} {s : Stretch α}
    (h : s ∈ row text offset xs) : s.first ≤ offset + (xs.flatMap text).length := by
  induction xs generalizing offset with
  | nil => cases h
  | cons x xs ih =>
    rw [List.flatMap_cons, List.length_append]
    rcases List.mem_cons.mp h with rfl | hs
    · exact Nat.le_add_right ..
    · have hfirst := ih hs
      omega

end Stretch

namespace Source

open Text (Position Span)

/-- The lexemes that a text starts with, and the text from the first place where none stands. -/
def lexemes (cs : List Char) : List Lexeme × List Char :=
  match h : lexeme? cs with
  | none => ([], cs)
  | some (lexeme, after) =>
    have : after.length < cs.length := lexeme?_shorter h
    (lexeme :: (lexemes after).1, (lexemes after).2)
termination_by cs.length
decreasing_by all_goals exact this

/-- The lexemes of a text after masking, with their offsets. -/
def lexed (cs : List Char) : List (Stretch Lexeme) :=
  Stretch.row Lexeme.text 0 (lexemes (maskChars cs)).1

/-- The offset in a text at which its masked form cannot be read any further. -/
def readTo (cs : List Char) : Nat :=
  ((lexemes (maskChars cs)).1.flatMap Lexeme.text).length

/-- The token of a lexeme. Its place is that of its offsets in a given text. -/
def tokenIn (cs : List Char) (s : Stretch Lexeme) : Option Token :=
  s.part.kind?.map fun kind => ⟨kind, String.ofList s.part.text, s.spanIn cs⟩

variable {cs ms after : List Char} {lexeme : Lexeme}

/-- Nothing is lost between the lexemes and the text after them. -/
theorem lexemes_text (cs : List Char) :
    (lexemes cs).1.flatMap Lexeme.text ++ (lexemes cs).2 = cs := by
  fun_induction lexemes cs with
  | case1 => rfl
  | case2 cs lexeme after h _ ih =>
    rw [List.flatMap_cons, List.append_assoc, ih]
    exact lexeme?_append h

/-- Where reading stops there is no lexeme. -/
theorem lexeme?_unread (cs : List Char) : lexeme? (lexemes cs).2 = none := by
  fun_induction lexemes cs with
  | case1 cs h => exact h
  | case2 _ _ _ _ _ ih => exact ih

theorem readFrom_of_lexemes (before cs : List Char) :
    readFrom (Position.start.after before) cs =
      ⟨(Stretch.row Lexeme.text before.length (lexemes cs).1).filterMap (tokenIn (before ++ cs)),
        if (lexemes cs).2 = [] then none else
          some (Position.start.after (before ++ (lexemes cs).1.flatMap Lexeme.text))⟩ := by
  fun_induction lexemes cs generalizing before with
  | case1 cs h =>
    cases cs with
    | nil =>
      rw [readFrom]
      rfl
    | cons c rest =>
      rw [readFrom]
      split
      next => simp [Stretch.row]
      next hs => cases hs.symm.trans h
  | case2 cs lexeme after h _ ih =>
    have happ : lexeme.text ++ after = cs := lexeme?_append h
    have hb : (before ++ lexeme.text) ++ after = before ++ cs := by rw [List.append_assoc, happ]
    have hplace : (Position.start.after before).after lexeme.text =
        Position.start.after (before ++ lexeme.text) := (Position.after_append ..).symm
    have ih := ih (before ++ lexeme.text)
    rw [hb, List.length_append, List.append_assoc] at ih
    have hfirst : Position.start.after before =
        ⟨Text.lineAt (before ++ cs) before.length, Text.columnAt (before ++ cs) before.length⟩ := by
      rw [← Position.start_after_take, List.take_left]
    have hlast : Position.start.after (before ++ lexeme.text) =
        ⟨Text.lineAt (before ++ cs) (before.length + lexeme.text.length),
          Text.columnAt (before ++ cs) (before.length + lexeme.text.length)⟩ := by
      rw [← Position.start_after_take, ← hb, ← List.length_append, List.take_left]
    rw [readFrom_of_lexeme? _ h, hplace, ih, Stretch.row, List.flatMap_cons]
    cases hk : lexeme.kind? with
    | none => rw [List.filterMap_cons_none (by simp [tokenIn, hk])]
    | some kind =>
      have htoken : tokenIn (before ++ cs)
          ⟨lexeme, before.length, before.length + lexeme.text.length⟩ =
          some ⟨kind, String.ofList lexeme.text,
            ⟨Position.start.after before, Position.start.after (before ++ lexeme.text)⟩⟩ := by
        rw [hfirst, hlast, tokenIn, hk]
        rfl
      rw [List.filterMap_cons_some htoken]

theorem place_maskChars (cs : List Char) (offset : Nat) :
    Text.lineAt (maskChars cs) offset = Text.lineAt cs offset ∧
      Text.columnAt (maskChars cs) offset = Text.columnAt cs offset := by
  have hm := after_masks Position.start (List.forall₂_take offset (masks_maskChars cs))
  rw [Position.start_after_take, Position.start_after_take] at hm
  exact ⟨congrArg Position.line hm, congrArg Position.column hm⟩

/-- The tokens of a masked text are its lexemes other than white space and comments, placed by their
offsets in the text itself. -/
theorem tokens_eq_lexed (cs : List Char) :
    (readTokens (maskChars cs)).tokens = (lexed cs).filterMap (tokenIn cs) := by
  have h := congrArg Reading.tokens (readFrom_of_lexemes [] (maskChars cs))
  have ht : tokenIn (maskChars cs) = tokenIn cs := by
    funext s
    simp only [tokenIn, Stretch.spanIn, (place_maskChars cs _).1, (place_maskChars cs _).2]
  rw [List.nil_append, ht] at h
  exact h

/-- Reading stops at an offset where no lexeme stands, unless it gets to the end. -/
theorem stop?_eq_readTo (cs : List Char) :
    (readTokens (maskChars cs)).stop? = if (lexemes (maskChars cs)).2 = [] then none else
      some ⟨Text.lineAt cs (readTo cs), Text.columnAt cs (readTo cs)⟩ := by
  have h := congrArg Reading.stop? (readFrom_of_lexemes [] (maskChars cs))
  have htake : (maskChars cs).take (readTo cs) =
      (lexemes (maskChars cs)).1.flatMap Lexeme.text := by
    conv_lhs => rw [← lexemes_text (maskChars cs)]
    exact List.take_left
  simp only [List.nil_append] at h
  rw [← htake, Position.start_after_take, (place_maskChars cs _).1,
    (place_maskChars cs _).2] at h
  exact h

/-- Every token stands at some offsets. -/
theorem exists_lexed_of_mem_tokens {t : Token} (h : t ∈ (readTokens (maskChars cs)).tokens) :
    ∃ s ∈ lexed cs, tokenIn cs s = some t := by
  rw [tokens_eq_lexed] at h
  exact List.mem_filterMap.mp h

end Source
end GrammarDoc
