import GrammarDoc.Proofs.Rendering.MarkdownReading

namespace GrammarDoc.Markdown.Rows

/-- Alternatives that are one part each. -/
def ofAlternatives : List Element → Rows
  | [] => .empty
  | [e] => ⟨[], [e]⟩
  | e :: es => ⟨[e] :: (ofAlternatives es).earlier, (ofAlternatives es).row⟩

variable {α σ : Type} {step : Rows × σ → α → Option (Rows × σ)} {es : List Element}

theorem element_row (h : 2 ≤ es.length) : element ⟨[], es⟩ = .seq es := by
  match es with
  | _ :: _ :: _ => rfl

theorem map_sequence_ofAlternatives (h : es ≠ []) :
    ((ofAlternatives es).earlier ++ [(ofAlternatives es).row]).map sequence = es := by
  induction es with
  | nil => exact absurd rfl h
  | cons e es ih =>
    cases es with
    | nil => rfl
    | cons e' es => exact congrArg (e :: ·) (ih (List.cons_ne_nil _ _))

theorem element_ofAlternatives (h : 2 ≤ es.length) :
    (ofAlternatives es).element = .choice es := by
  have hn : es ≠ [] := List.ne_nil_of_length_pos (by omega)
  have hearlier : (ofAlternatives es).earlier ≠ [] := by
    match es with
    | _ :: _ :: _ => exact List.cons_ne_nil _ _
  rw [element, if_neg hearlier, map_sequence_ofAlternatives hn]

/-- Some input adds one part to the row in which it stands, whatever else is open. -/
def Adds (step : Rows × σ → α → Option (Rows × σ)) (xs : List α) (e : Element) : Prop :=
  ∀ r s, xs.foldlM step (r, s) = some (r.push e, s)

variable {write : Element → List α} {read : Element → Element}

theorem foldlM_row (h : ∀ e ∈ es, Adds step (write e) (read e)) (r : Rows) (s : σ) :
    (es.map write).flatten.foldlM step (r, s) = some (⟨r.earlier, r.row ++ es.map read⟩, s) := by
  induction es generalizing r with
  | nil =>
    rw [List.map_nil, List.map_nil, List.append_nil]
    rfl
  | cons e es ih =>
    have he := h e List.mem_cons_self r s
    have hes := ih (fun x hx => h x (List.mem_cons_of_mem _ hx)) (r.push (read e))
    have hrow : (r.push (read e)).row ++ es.map read = r.row ++ (e :: es).map read :=
      List.append_assoc ..
    rw [List.map_cons, List.flatten_cons, List.foldlM_append, he]
    rw [hrow] at hes
    exact hes

/-- Parts with bars between them are read as alternatives of one part each. -/
theorem foldlM_alternatives {bar : α} (hbar : ∀ r s, step (r, s) bar = some (r.next, s))
    (hn : es ≠ []) (h : ∀ e ∈ es, Adds step (write e) (read e)) (earlier : List (List Element))
    (s : σ) :
    ([bar].intercalate (es.map write)).foldlM step (⟨earlier, []⟩, s) =
      some (⟨earlier ++ (ofAlternatives (es.map read)).earlier,
        (ofAlternatives (es.map read)).row⟩, s) := by
  induction es generalizing earlier with
  | nil => exact absurd rfl hn
  | cons e es ih =>
    have he := h e List.mem_cons_self ⟨earlier, []⟩ s
    cases es with
    | nil =>
      rw [List.map_singleton, List.map_singleton, List.intercalate_singleton, he, ofAlternatives,
        List.append_nil]
      rfl
    | cons e' es =>
      have hes := ih (List.cons_ne_nil _ _) (fun x hx => h x (List.mem_cons_of_mem _ hx))
        (earlier ++ [[read e]])
      have hnext : step (push ⟨earlier, []⟩ (read e), s) bar =
          some (⟨earlier ++ [[read e]], []⟩, s) := hbar _ s
      have happ : [bar].intercalate ((e :: e' :: es).map write) =
          write e ++ (bar :: [bar].intercalate ((e' :: es).map write)) := by
        rw [List.map_cons, List.map_cons, List.intercalate_cons_cons, List.append_assoc]
        rfl
      rw [happ, List.foldlM_append, he, Option.bind_eq_bind, Option.bind_some, List.foldlM_cons,
        hnext, Option.bind_eq_bind, Option.bind_some, hes, List.append_assoc]
      rfl

end GrammarDoc.Markdown.Rows
