import Mathlib.Algebra.Order.BigOperators.Group.List
import Mathlib.Order.CompletePartialOrder
import GrammarDoc.Proofs.Extraction.Language
import GrammarDoc.Proofs.Rendering.MarkdownMeaning

namespace GrammarDoc.Markdown

open scoped Computability

/-- A choice, or a plus of one: its Markdown has a bar outside of any bracket. -/
def spreads : Element → Bool
  | .choice _ => true
  | .plus e => spreads e
  | _ => false

mutual

/-- No plus repeats a choice, at any depth. -/
def repeatsNoChoice : Element → Bool
  | .opt e => repeatsNoChoice e
  | .plus e => !spreads e && repeatsNoChoice e
  | .star e => repeatsNoChoice e
  | .choice es => repeatNoChoice es
  | .seq es => repeatNoChoice es
  | _ => true

def repeatNoChoice : List Element → Bool
  | [] => true
  | e :: es => repeatsNoChoice e && repeatNoChoice es

end

/-- Rows are alternatives, each the concatenation of its parts. -/
def Rows.language (r : Rows) : Language Symbol :=
  (r.earlier.map fun row => (row.map Element.language).prod).sum +
    (r.row.map Element.language).prod

variable {e : Element} {es : List Element} {r : Rows}

theorem repeatsNoChoice_of_mem (h : repeatNoChoice es) : ∀ e ∈ es, repeatsNoChoice e := by
  induction es with
  | nil => exact fun e he => nomatch he
  | cons e es ih =>
    rw [repeatNoChoice, Bool.and_eq_true] at h
    exact List.forall_mem_cons.mpr ⟨h.1, ih h.2⟩

theorem language_sequence (es : List Element) :
    (Rows.sequence es).language = (es.map Element.language).prod := by
  unfold Rows.sequence
  split
  · simp
  · rw [Element.language, Element.languageOfRow_eq_prod]

theorem language_element (r : Rows) : r.element.language = r.language := by
  unfold Rows.element Rows.language
  split
  next hr => rw [hr, language_sequence, List.map_nil, List.sum_nil, zero_add]
  next =>
    have hmap : ∀ rows : List (List Element), (rows.map Rows.sequence).map Element.language =
        rows.map fun row => (row.map Element.language).prod := by
      intro rows
      rw [List.map_map]
      exact List.map_congr_left fun row _ => language_sequence row
    rw [Element.language, Element.languageOfAny_eq_sum, hmap, List.map_append, List.sum_append,
      List.map_singleton, List.sum_singleton]

theorem language_ofAlternatives (h : es ≠ []) :
    (Rows.ofAlternatives es).language = (es.map Element.language).sum := by
  induction es with
  | nil => exact absurd rfl h
  | cons e es ih =>
    cases es with
    | nil => simp [Rows.ofAlternatives, Rows.language]
    | cons e' es =>
      have ih := ih (List.cons_ne_nil _ _)
      have hcons : (Rows.ofAlternatives (e :: e' :: es)).language =
          e.language + (Rows.ofAlternatives (e' :: es)).language := by
        rw [Rows.ofAlternatives, Rows.language, List.map_cons, List.sum_cons, List.map_singleton,
          List.prod_singleton, add_assoc]
        · rfl
        · exact List.cons_ne_nil _ _
      rw [hcons, ih]
      exact (List.sum_cons ..).symm

theorem language_reading_choice (h : es ≠ []) :
    (reading (.choice es)).language = (es.map fun e => (reading e).language).sum := by
  have hn : readingOfAll es ≠ [] := by
    rw [readingOfAll_eq_map]
    simpa using h
  rw [reading, language_element, rows, language_ofAlternatives hn, readingOfAll_eq_map,
    List.map_map]
  rfl

theorem language_reading_seq (es : List Element) :
    (reading (.seq es)).language = (es.map fun e => (reading e).language).prod := by
  rw [reading, language_element, rows, Rows.language, List.map_nil, List.sum_nil, zero_add,
    readingOfAll_eq_map, List.map_map]
  rfl

theorem language_reading_plus (e : Element) :
    (reading (.plus e)).language =
      ((rows e).earlier.map fun row => (row.map Element.language).prod).sum +
        ((rows e).row.map Element.language).prod * (reading e).language∗ := by
  rw [reading, language_element, rows, Rows.language, Rows.push, List.map_append, List.prod_append,
    List.map_singleton, List.prod_singleton, Element.language]
  rfl

theorem earlier_eq_nil (h : Readable e) (hs : spreads e = false) : (rows e).earlier = [] := by
  induction h with
  | @plus e _ ih => exact ih hs
  | choice => cases hs
  | _ => rfl

/-- Only the last alternative under a plus is read as repeated, so words may be lost. -/
theorem language_reading_plus_le (e : Element) :
    (reading (.plus e)).language ≤ (reading e).language * (reading e).language∗ := by
  have hplus := language_reading_plus e
  have hrows : (reading e).language = (rows e).language := language_element _
  rw [Rows.language] at hrows
  generalize ((rows e).earlier.map fun row => (row.map Element.language).prod).sum = l at *
  generalize ((rows e).row.map Element.language).prod = m at *
  rw [hplus]
  calc l + m * (reading e).language∗
      ≤ l * (reading e).language∗ + m * (reading e).language∗ :=
        add_le_add_left (le_mul_of_one_le_right' one_le_kstar) _
    _ = (l + m) * (reading e).language∗ := (add_mul ..).symm
    _ = (reading e).language * (reading e).language∗ := by rw [← hrows]

theorem language_reading_plus_eq (h : Readable e) (hs : spreads e = false) :
    (reading (.plus e)).language = (reading e).language * (reading e).language∗ := by
  have hrows : (reading e).language = (rows e).language := language_element _
  rw [Rows.language, earlier_eq_nil h hs, List.map_nil, List.sum_nil, zero_add] at hrows
  rw [language_reading_plus, earlier_eq_nil h hs, List.map_nil, List.sum_nil, zero_add, ← hrows]

theorem language_reading_le (h : Readable e) : (reading e).language ≤ e.language := by
  induction h with
  | atom => exact le_refl _
  | ref => exact le_refl _
  | @opt e _ ih =>
    have hreading : (reading (.opt e)).language = 1 + (reading e).language := rfl
    rw [hreading, Element.language]
    exact add_le_add_right ih 1
  | @plus e _ ih =>
    rw [Element.language]
    exact (language_reading_plus_le e).trans (mul_le_mul' ih (kstar_mono ih))
  | @star e _ ih =>
    have hreading : (reading (.star e)).language = (reading e).language∗ := rfl
    rw [hreading, Element.language]
    exact kstar_mono ih
  | @choice es hl _ ih =>
    have hn : es ≠ [] := List.ne_nil_of_length_pos (by omega)
    rw [language_reading_choice hn, Element.language, Element.languageOfAny_eq_sum]
    exact List.sum_le_sum ih
  | @seq es _ _ ih =>
    rw [language_reading_seq, Element.language, Element.languageOfRow_eq_prod]
    exact List.prod_le_prod' ih

theorem language_reading_eq (h : Readable e) (hc : repeatsNoChoice e) :
    (reading e).language = e.language := by
  induction h with
  | atom => rfl
  | ref => rfl
  | @opt e _ ih =>
    have hreading : (reading (.opt e)).language = 1 + (reading e).language := rfl
    rw [hreading, Element.language, ih hc]
  | @plus e he ih =>
    rw [repeatsNoChoice, Bool.and_eq_true, Bool.not_eq_true'] at hc
    rw [language_reading_plus_eq he hc.1, Element.language, ih hc.2]
  | @star e _ ih =>
    have hreading : (reading (.star e)).language = (reading e).language∗ := rfl
    rw [hreading, Element.language, ih hc]
  | @choice es hl _ ih =>
    have hn : es ≠ [] := List.ne_nil_of_length_pos (by omega)
    have hmem := repeatsNoChoice_of_mem hc
    rw [language_reading_choice hn, Element.language, Element.languageOfAny_eq_sum]
    exact congrArg List.sum (List.map_congr_left fun e he => ih e he (hmem e he))
  | @seq es _ _ ih =>
    have hmem := repeatsNoChoice_of_mem hc
    rw [language_reading_seq, Element.language, Element.languageOfRow_eq_prod]
    exact congrArg List.prod (List.map_congr_left fun e he => ih e he (hmem e he))

/-- The Markdown of an element can be read, as a body and inline. Every word that is read is one of
the element, and every word of the element is read if no plus repeats a choice. -/
theorem element_reads_words (h : Readable e) (topLevel : Bool) :
    ∃ text, element topLevel e = .ok text ∧ read? text = some (reading e) ∧
      (reading e).language ≤ e.language ∧
      (repeatsNoChoice e → (reading e).language = e.language) := by
  obtain ⟨text, hw, hr⟩ := exists_text_read h topLevel
  exact ⟨text, hw, hr, language_reading_le h, language_reading_eq h⟩

theorem element_reads_words_grouped :
    let e := Element.seq [.plus (.seq [.atom ",", .ref "x"]), .star (.choice [.ref "y", .ref "z"])]
    Readable e ∧ repeatsNoChoice e ∧
      ∃ text read, element true e = .ok text ∧ read? text = some read ∧
        read.language = e.language := by
  intro e
  have hx : Readable (.ref "x") := .ref (by decide)
  have hy : Readable (.ref "y") := .ref (by decide)
  have hz : Readable (.ref "z") := .ref (by decide)
  have hcomma : Readable (.atom ",") := .atom (by decide)
  have hplus : Readable (.plus (.seq [.atom ",", .ref "x"])) :=
    .plus (.seq (by decide) (by simp [hcomma, hx]))
  have hstar : Readable (.star (.choice [.ref "y", .ref "z"])) :=
    .star (.choice (by decide) (by simp [hy, hz]))
  have he : Readable e := .seq (by decide) (by simp [hplus, hstar])
  obtain ⟨text, hw, hr, -, heq⟩ := element_reads_words he true
  exact ⟨he, rfl, text, _, hw, hr, heq rfl⟩

/-- A plus of a choice loses words: the second alternative is all that is repeated. -/
theorem element_loses_words :
    let e := Element.plus (.choice [.atom "a", .atom "b"])
    let text := "`'a'` | `'b'` \x7b`'a'` | `'b'`\x7d"
    let word := [Symbol.literal "a", Symbol.literal "a"]
    Readable e ∧ element false e = .ok text ∧
      ∃ read, read? text = some read ∧ word ∈ e.language ∧ word ∉ read.language := by
  intro e text word
  have ha : Readable (.atom "a") := .atom (by decide)
  have hb : Readable (.atom "b") := .atom (by decide)
  have he : Readable e := .plus (.choice (by decide) (by simp [ha, hb]))
  have htext : element false e = .ok text := rfl
  obtain ⟨_, hw, hr⟩ := exists_text_read he false
  cases hw.symm.trans htext
  refine ⟨he, htext, _, hr, ?_, ?_⟩
  · have hmem : [Symbol.literal "a"] ∈ (Element.choice [.atom "a", .atom "b"]).language :=
      .inl rfl
    have hle : (Element.choice [.atom "a", .atom "b"]).language ≤
        (Element.choice [.atom "a", .atom "b"]).language∗ := le_kstar
    exact Language.mem_mul.mpr ⟨_, hmem, _, hle hmem, rfl⟩
  · have hreading : reading e = .choice [.atom "a", .seq [.atom "b",
        .star (.choice [.atom "a", .atom "b"])]] := rfl
    rw [hreading]
    rintro (hone | hrow | hnone)
    · have hword : word = [.literal "a"] := hone
      exact absurd hword (by decide)
    · obtain ⟨first, hfirst, later, -, happ⟩ := Language.mem_mul.mp hrow
      cases hfirst
      have hhead : Symbol.literal "b" = .literal "a" := (List.cons.inj happ).1
      exact absurd hhead (by decide)
    · cases hnone

end GrammarDoc.Markdown
