import GrammarDoc.Proofs.Source.Blanking
import GrammarDoc.Proofs.Source.Spelling

namespace GrammarDoc.Source

variable {cs ms rest : List Char} {p : List Char × List Char}

theorem throughCommentEnd?_ne_nil (h : throughCommentEnd? cs = some p) : p.1 ≠ [] := by
  unfold throughCommentEnd? at h
  split at h
  · cases h
  · cases h
    simp
  · obtain ⟨q, -, rfl⟩ := Option.map_eq_some_iff.mp h
    simp

theorem throughCommentEnd?_append_right (h : throughCommentEnd? cs = some p) :
    throughCommentEnd? (p.1 ++ ms) = some (p.1, ms) := by
  fun_induction throughCommentEnd? cs generalizing p with
  | case1 => cases h
  | case2 rest =>
    cases h
    rfl
  | case3 c rest hn ih =>
    obtain ⟨q, hq, rfl⟩ := Option.map_eq_some_iff.mp h
    rw [List.cons_append, throughCommentEnd?, ih hq]
    · rfl
    · intro ds hc hd
      have happ := throughCommentEnd?_append hq
      obtain ⟨d, es, he⟩ := List.exists_cons_of_ne_nil (throughCommentEnd?_ne_nil hq)
      rw [he] at hd happ
      cases hd
      exact hn _ hc happ.symm

theorem lineRest_append_right (hm : ms.head? = (lineRest cs).2.head?) :
    lineRest ((lineRest cs).1 ++ ms) = ((lineRest cs).1, ms) := by
  have hr : ∀ d, ms.head? = some d → decide (d ≠ '\n') = false := by
    intro d hd
    have hs := List.head?_dropWhile_not (· ≠ '\n') cs
    rw [hm] at hd
    change (cs.dropWhile (· ≠ '\n')).head? = some d at hd
    rw [hd] at hs
    exact hs
  have ht : ∀ d ∈ cs.takeWhile (· ≠ '\n'), decide (d ≠ '\n') := by
    intro d hd
    exact List.mem_takeWhile_imp (p := (· ≠ '\n')) hd
  obtain ⟨htake, hdrop⟩ := takeWhile_of_stops ht hr
  exact Prod.ext htake hdrop

theorem throughCommentEnd?_of_not_infix {body : List Char} (h : ¬['*', '/'] <:+: body)
    (after : List Char) :
    throughCommentEnd? (body ++ '*' :: '/' :: after) = some (body ++ ['*', '/'], after) := by
  induction body with
  | nil => rfl
  | cons c body ih =>
    have ih := ih fun hi => h (hi.trans (List.suffix_cons c body).isInfix)
    rw [List.cons_append, throughCommentEnd?, ih]
    · rfl
    · rintro ds rfl hd
      cases body with
      | nil => cases hd
      | cons d body =>
        cases hd
        exact h ⟨[], body, rfl⟩

theorem lineRest_of_not_mem {body : List Char} (h : '\n' ∉ body) (after : List Char) :
    lineRest (body ++ '\n' :: after) = (body, '\n' :: after) := by
  have ht : ∀ d ∈ body, decide (d ≠ '\n') := by
    intro d hd
    simpa using fun he : d = '\n' => h (he ▸ hd)
  have hs : ∀ d, ('\n' :: after).head? = some d → decide (d ≠ '\n') = false := by simp
  obtain ⟨htake, hdrop⟩ := takeWhile_of_stops ht hs
  exact Prod.ext htake hdrop

theorem comment?_of_line {body : List Char} (hbody : '\n' ∉ body) :
    comment? ('/' :: '/' :: (body ++ '\n' :: rest)) = some ('/' :: '/' :: body, '\n' :: rest) := by
  have hline := lineRest_of_not_mem hbody rest
  simp only [comment?, hline]

theorem comment?_of_block {body : List Char} (hbody : ¬['*', '/'] <:+: body) :
    comment? ('/' :: '*' :: (body ++ '*' :: '/' :: rest)) =
      some ('/' :: '*' :: (body ++ ['*', '/']), rest) := by
  have hthrough := throughCommentEnd?_of_not_infix hbody rest
  simp only [comment?, hthrough, Option.getD_some]

/-- The lexer and the masker end a comment at the same place. -/
theorem commentExtent?_of_comment? {e : Extent} (h : comment? cs = some p)
    (hm : ms.head? = p.2.head?) (hp : p.1 ++ ms = '/' :: rest)
    (he : commentExtent? rest = some e) : '/' :: e.tail = p.1 ∧ e.after = ms := by
  unfold comment? at h
  split at h
  next line =>
    cases h
    cases hp
    cases he
    have hl := lineRest_append_right hm
    change '/' :: '/' :: (lineRest ((lineRest line).1 ++ ms)).1 = _ ∧
      (lineRest ((lineRest line).1 ++ ms)).2 = _
    rw [hl]
    exact ⟨rfl, rfl⟩
  next block =>
    cases h
    cases hb : throughCommentEnd? block with
    | none =>
      rw [hb] at hm hp
      cases List.head?_eq_none_iff.mp hm
      cases hp
      simp [commentExtent?, hb] at he
    | some q =>
      rw [hb] at hp
      cases hp
      have ht : throughCommentEnd? (q.1 ++ ms) = some (q.1, ms) :=
        throughCommentEnd?_append_right hb
      change (throughCommentEnd? (q.1 ++ ms)).map _ = some e at he
      rw [ht] at he
      cases he
      exact ⟨rfl, rfl⟩
  next => cases h

/-- A literal that the lexer accepts ends where the masker ends it. -/
theorem literalRest?_of_quotedRest (hm : ms.head? = (quotedRest '\'' cs).2.head?)
    (h : literalRest? ((quotedRest '\'' cs).1 ++ ms) = some p) :
    p = ((quotedRest '\'' cs).1, ms) := by
  fun_induction quotedRest '\'' cs generalizing p with
  | case1 =>
    cases List.head?_eq_none_iff.mp hm
    cases h
  | case2 =>
    rename_i c rest q ih
    rw [List.cons_append, List.cons_append, literalRest?] at h
    split at h
    · cases h
    · obtain ⟨r, hr, rfl⟩ := Option.map_eq_some_iff.mp h
      rw [ih hm hr]
  | case3 =>
    rw [List.cons_append, literalRest?] at h
    · simpa using h.symm
    · simp
  | case4 =>
    obtain ⟨ds, rfl⟩ := List.head?_eq_some_iff.mp hm
    rw [List.nil_append, literalRest?] at h
    · simp at h
    · simp
  | case5 =>
    rename_i c rest hn hq hl q ih
    rw [List.cons_append] at h
    rcases eq_or_ne c '\\' with rfl | hc
    · cases rest with
      | nil =>
        cases List.head?_eq_none_iff.mp hm
        cases h
      | cons d ds => exact absurd rfl (hn d ds rfl)
    · rw [literalRest?] at h
      · rw [if_neg hq] at h
        split at h
        · cases h
        · obtain ⟨r, hr, rfl⟩ := Option.map_eq_some_iff.mp h
          rw [ih hm hr]
      · intro d ds hc'
        exact absurd hc' hc

/-- A bracket block that the lexer accepts ends where the masker ends it. -/
theorem bracketBlockRest?_of_bracketRest (hm : ms.head? = (bracketRest cs).2.head?)
    (h : bracketBlockRest? ((bracketRest cs).1 ++ ms) = some p) :
    p = ((bracketRest cs).1, ms) := by
  fun_induction bracketRest cs generalizing p with
  | case1 =>
    cases List.head?_eq_none_iff.mp hm
    cases h
  | case2 =>
    rename_i c rest q ih
    rw [List.cons_append, List.cons_append, bracketBlockRest?] at h
    split at h
    · cases h
    · obtain ⟨r, hr, rfl⟩ := Option.map_eq_some_iff.mp h
      rw [ih hm hr]
  | case3 =>
    rw [List.cons_append, bracketBlockRest?] at h
    · simpa using h.symm
    · simp
  | case4 =>
    rename_i c rest hn hq q ih
    rw [List.cons_append] at h
    rcases eq_or_ne c '\\' with rfl | hc
    · cases rest with
      | nil =>
        cases List.head?_eq_none_iff.mp hm
        cases h
      | cons d ds => exact absurd rfl (hn d ds rfl)
    · rw [bracketBlockRest?] at h
      · rw [if_neg hq, if_neg hc] at h
        obtain ⟨r, hr, rfl⟩ := Option.map_eq_some_iff.mp h
        rw [ih hm hr]
      · intro d ds hc'
        exact absurd hc' hc

theorem flatRest?_map_blankOut (body ms : List Char) :
    flatRest? '\x7b' '\x7d' (body.map blankOut ++ '\x7d' :: ms) =
      some (body.map blankOut ++ ['\x7d'], ms) := by
  induction body with
  | nil => rfl
  | cons c body ih =>
    have hopen : blankOut c ≠ '\x7b' := blankOut_ne (by decide) c
    have hclose : blankOut c ≠ '\x7d' := blankOut_ne (by decide) c
    rw [List.map_cons, List.cons_append, flatRest?, if_neg hclose, if_neg hopen, ih]
    rfl

end GrammarDoc.Source
