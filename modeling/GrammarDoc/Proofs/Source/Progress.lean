import GrammarDoc.Proofs.Source.Bodies

namespace GrammarDoc

/-- A loop goes on from state to state until it has a result. -/
inductive Loop {σ ρ : Type} (step : σ → σ ⊕ ρ) : σ → List σ → ρ → Prop
  | ends {s : σ} {r : ρ} : step s = .inr r → Loop step s [s] r
  | goes {s t : σ} {path : List σ} {r : ρ} :
      step s = .inl t → Loop step t path r → Loop step s (s :: path) r

/-- A loop has a result. Its offset rises with every step, and no state is out of bounds. -/
def Finishes {σ ρ : Type} (step : σ → σ ⊕ ρ) (offset : σ → Nat) (bounds : σ → Prop) (s : σ)
    (r : ρ) : Prop :=
  ∃ path, Loop step s path r ∧ path.Pairwise (fun t u => offset t < offset u) ∧
    ∀ t ∈ path, bounds t

section Loops

variable {σ ρ : Type} {step : σ → σ ⊕ ρ} {offset : σ → Nat} {bounds : σ → Prop}
variable {s : σ} {path : List σ} {r : ρ}

/-- What one step does to the offset and the bounds, all steps do. -/
theorem Loop.rises (hstep : ∀ s t, bounds s → step s = .inl t → bounds t ∧ offset s < offset t)
    (hs : bounds s) (h : Loop step s path r) :
    path.Pairwise (fun t u => offset t < offset u) ∧
      ∀ t ∈ path, bounds t ∧ offset s ≤ offset t := by
  induction h with
  | ends => simp [hs]
  | goes hnext _ ih =>
    obtain ⟨ht, hlt⟩ := hstep _ _ hs hnext
    obtain ⟨hpair, hall⟩ := ih ht
    refine ⟨List.pairwise_cons.mpr ⟨fun u hu => ?_, hpair⟩, fun u hu => ?_⟩
    · exact Nat.lt_of_lt_of_le hlt (hall u hu).2
    · rcases List.mem_cons.mp hu with rfl | hu
      · exact ⟨hs, Nat.le_refl _⟩
      · obtain ⟨hb, hle⟩ := hall u hu
        exact ⟨hb, Nat.le_trans (Nat.le_of_lt hlt) hle⟩

theorem Loop.finishes
    (hstep : ∀ s t, bounds s → step s = .inl t → bounds t ∧ offset s < offset t)
    (hs : bounds s) (h : Loop step s path r) : Finishes step offset bounds s r := by
  obtain ⟨hpair, hall⟩ := h.rises hstep hs
  exact ⟨path, h, hpair, fun t ht => (hall t ht).1⟩

end Loops

namespace Source

/-- The offset just past the comment that starts at an offset, if one does. -/
def commentEnd? (cs : List Char) (i : Nat) : Option Nat :=
  (comment? (cs.drop i)).map fun p => i + p.1.length

/-- The offset at which a literal ends that a quote at an offset opens. -/
def literalEnd (cs : List Char) (quote : Char) (i : Nat) : Nat :=
  i + 1 + (quotedRest quote (cs.drop (i + 1))).1.length

/-- The offset at which a bracket block ends that is opened at an offset. -/
def bracketEnd (cs : List Char) (i : Nat) : Nat :=
  i + 1 + (bracketRest (cs.drop (i + 1))).1.length

/-- One step over text in which a backslash takes the next character with it, and may so go beyond
the end. Some characters stop the scan, before or after them. -/
def escapedStep (cs : List Char) (stop? : Char → Option Nat) (j : Nat) : Nat ⊕ Nat :=
  match cs[j]? with
  | none => .inr cs.length
  | some c =>
    if c = '\\' then .inl (j + 2)
    else
      match stop? c with
      | some n => .inr (j + n)
      | none => .inl (j + 1)

/-- A literal is closed by its quote, and cut off by a line feed. -/
def quoteStop? (quote c : Char) : Option Nat :=
  if c = quote then some 1 else if c = '\n' then some 0 else none

def bracketStop? (c : Char) : Option Nat :=
  if c = ']' then some 1 else none

/-- Where the search for a closing brace stands, and how many blocks are open there. -/
structure Depth where
  offset : Nat
  opened : Nat

/-- One step of the search for the brace that closes a block. -/
def blockStep (cs : List Char) (s : Depth) : Depth ⊕ Option Nat :=
  match cs[s.offset]? with
  | none => .inr none
  | some c =>
    match commentEnd? cs s.offset with
    | some last => .inl ⟨last, s.opened⟩
    | none =>
      if c = '"' ∨ c = '\'' then .inl ⟨literalEnd cs c s.offset, s.opened⟩
      else if c = '\x7b' then .inl ⟨s.offset + 1, s.opened + 1⟩
      else if c = '\x7d' then
        if s.opened = 1 then .inr (some (s.offset + 1)) else .inl ⟨s.offset + 1, s.opened - 1⟩
      else .inl ⟨s.offset + 1, s.opened⟩

/-- Where masking stands, and what it has made of the text. -/
structure Masking where
  offset : Nat
  chars : List Char

/-- Blanks out the characters between two offsets. -/
def blankBetween (first last : Nat) (cs : List Char) : List Char :=
  cs.take first ++ (cs.extract first last).map blankOut ++ cs.drop last

/-- One step of masking. A block that is never closed ends it. -/
def maskStep (cs : List Char) (s : Masking) : Masking ⊕ List Char :=
  match cs[s.offset]? with
  | none => .inr s.chars
  | some c =>
    match commentEnd? cs s.offset with
    | some last => .inl ⟨last, s.chars⟩
    | none =>
      if c = '\'' then .inl ⟨literalEnd cs c s.offset, s.chars⟩
      else if c = '[' then .inl ⟨bracketEnd cs s.offset, s.chars⟩
      else if c = '\x7b' then
        match blockEnd? cs s.offset with
        | none => .inr s.chars
        | some last => .inl ⟨last, blankBetween (s.offset + 1) (last - 1) s.chars⟩
      else .inl ⟨s.offset + 1, s.chars⟩

variable {cs rest text after : List Char} {c quote : Char} {i j last depth : Nat}

section Bounds

theorem commentEnd?_bounds (h : commentEnd? cs i = some last) : i < last ∧ last ≤ cs.length := by
  obtain ⟨p, hp, rfl⟩ := Option.map_eq_some_iff.mp h
  have happ := congrArg List.length (comment?_append hp)
  have hshort := comment?_shorter hp
  simp only [List.length_append, List.length_drop] at happ hshort
  omega

theorem literalEnd_bounds (h : i < cs.length) :
    i < literalEnd cs quote i ∧ literalEnd cs quote i ≤ cs.length := by
  have happ := congrArg List.length (quotedRest_append quote (cs.drop (i + 1)))
  simp only [List.length_append, List.length_drop] at happ
  unfold literalEnd
  omega

theorem bracketEnd_bounds (h : i < cs.length) :
    i < bracketEnd cs i ∧ bracketEnd cs i ≤ cs.length := by
  have happ := congrArg List.length (bracketRest_append (cs.drop (i + 1)))
  simp only [List.length_append, List.length_drop] at happ
  unfold bracketEnd
  omega

theorem blockEnd?_bounds (h : blockEnd? cs i = some last) :
    i + 2 ≤ last ∧ last ≤ cs.length ∧ cs[last - 1]? = some '\x7d' := by
  obtain ⟨p, hp, rfl⟩ := Option.map_eq_some_iff.mp h
  have happ := blockBody?_append hp
  have hlength := congrArg List.length happ
  simp only [List.length_append, List.length_cons, List.length_drop] at hlength
  have hlast : i + p.1.length + 2 - 1 = i + 1 + p.1.length := by omega
  refine ⟨by omega, by omega, ?_⟩
  rw [hlast, ← List.getElem?_drop, ← happ, List.getElem?_append_right (Nat.le_refl _),
    Nat.sub_self]
  rfl

/-- A backslash at the very end takes the scan one beyond it, and no further. -/
theorem escapedStep_bounds {stop? : Char → Option Nat} (h : escapedStep cs stop? i = .inl j) :
    j ≤ cs.length + 1 ∧ i < j := by
  unfold escapedStep at h
  split at h
  next => cases h
  next c hc =>
    have hlt := (List.getElem?_eq_some_iff.mp hc).1
    split at h
    next =>
      cases h
      omega
    next =>
      split at h <;> cases h
      omega

theorem blockStep_bounds {s t : Depth} (h : blockStep cs s = .inl t) :
    t.offset ≤ cs.length ∧ s.offset < t.offset := by
  unfold blockStep at h
  split at h
  next => cases h
  next c hc =>
    have hlt := (List.getElem?_eq_some_iff.mp hc).1
    have hone : ∀ opened, Sum.inl ⟨s.offset + 1, opened⟩ = (.inl t : Depth ⊕ Option Nat) →
        t.offset ≤ cs.length ∧ s.offset < t.offset := by
      intro opened ht
      cases ht
      exact ⟨hlt, Nat.lt_succ_self _⟩
    split at h
    next last hl =>
      cases h
      exact (commentEnd?_bounds hl).symm
    split at h
    next =>
      cases h
      exact (literalEnd_bounds hlt).symm
    -- What is left goes over one character, or ends.
    split at h
    next => exact hone _ h
    split at h
    next =>
      split at h
      next => cases h
      next => exact hone _ h
    next => exact hone _ h

theorem length_blankBetween {first : Nat} (h : first ≤ last) (hl : last ≤ cs.length) :
    (blankBetween first last cs).length = cs.length := by
  simp only [blankBetween, List.extract_eq_take_drop, List.length_append, List.length_map,
    List.length_take, List.length_drop]
  omega

theorem maskStep_bounds {s t : Masking}
    (hs : s.offset ≤ cs.length ∧ s.chars.length = cs.length) (h : maskStep cs s = .inl t) :
    (t.offset ≤ cs.length ∧ t.chars.length = cs.length) ∧ s.offset < t.offset := by
  have hchars := hs.2
  unfold maskStep at h
  split at h
  next => cases h
  next c hc =>
    have hlt := (List.getElem?_eq_some_iff.mp hc).1
    split at h
    next last hl =>
      obtain ⟨hrise, hle⟩ := commentEnd?_bounds hl
      cases h
      exact ⟨⟨hle, hchars⟩, hrise⟩
    split at h
    next =>
      obtain ⟨hrise, hle⟩ := @literalEnd_bounds cs c s.offset hlt
      cases h
      exact ⟨⟨hle, hchars⟩, hrise⟩
    split at h
    next =>
      obtain ⟨hrise, hle⟩ := bracketEnd_bounds hlt
      cases h
      exact ⟨⟨hle, hchars⟩, hrise⟩
    split at h
    next =>
      split at h
      next => cases h
      next last hl =>
        obtain ⟨hrise, hle, -⟩ := blockEnd?_bounds hl
        cases h
        have hlength : (blankBetween (s.offset + 1) (last - 1) s.chars).length =
            s.chars.length := length_blankBetween (by omega) (by omega)
        have hlt : s.offset < last := by omega
        exact ⟨⟨hle, hlength.trans hchars⟩, hlt⟩
    next =>
      cases h
      exact ⟨⟨hlt, hchars⟩, Nat.lt_succ_self _⟩

end Bounds

section Results

theorem getElem?_of_drop (h : cs.drop j = c :: rest) : cs[j]? = some c := by
  rw [← List.head?_drop, h]
  rfl

theorem drop_succ_of_drop (h : cs.drop j = c :: rest) : cs.drop (j + 1) = rest := by
  rw [← List.drop_drop, h, List.drop_one, List.tail_cons]

theorem drop_of_append (h : cs.drop j = text ++ after) : cs.drop (j + text.length) = after := by
  rw [← List.drop_drop, h, List.drop_left]

theorem add_length_le (hj : j ≤ cs.length) (h : cs.drop j = text ++ after) :
    j + text.length ≤ cs.length := by
  have hlength := congrArg List.length h
  simp only [List.length_drop, List.length_append] at hlength
  omega

theorem eq_length_of_drop (hj : j ≤ cs.length) (h : cs.drop j = []) : j = cs.length := by
  have hle := List.drop_eq_nil_iff.mp h
  omega

variable {stop? : Char → Option Nat}

theorem escapedStep_end (h : cs.length ≤ j) : escapedStep cs stop? j = .inr cs.length := by
  rw [escapedStep, List.getElem?_eq_none h]

theorem escapedStep_pair (h : cs.drop j = '\\' :: rest) :
    escapedStep cs stop? j = .inl (j + 2) := by
  rw [escapedStep, getElem?_of_drop h]
  rfl

theorem escapedStep_plain (h : cs.drop j = c :: rest) (hc : c ≠ '\\') :
    escapedStep cs stop? j = (stop? c).elim (.inl (j + 1)) fun n => .inr (j + n) := by
  rw [escapedStep, getElem?_of_drop h]
  dsimp only
  rw [if_neg hc]
  cases stop? c <;> rfl

/-- A backslash that nothing follows takes the scan beyond the end, and it stops there. -/
theorem loop_lone (hj : j ≤ cs.length) (h : cs.drop j = ['\\']) :
    Loop (escapedStep cs stop?) j [j, j + 2] (j + 1) := by
  have hlength := congrArg List.length h
  rw [List.length_drop, List.length_singleton] at hlength
  have hend : j + 1 = cs.length := by omega
  rw [hend]
  exact .goes (escapedStep_pair h) (.ends (escapedStep_end (by omega)))

/-- How much a scan takes: everything up to a stop, and a backslash with the character after it. -/
structure Takes (stop? : Char → Option Nat) (taken : List Char → Nat) : Prop where
  nil : taken [] = 0
  lone : taken ['\\'] = 1
  pair : ∀ c rest, taken ('\\' :: c :: rest) = taken rest + 2
  char : ∀ c rest, c ≠ '\\' → taken (c :: rest) = (stop? c).getD (taken rest + 1)

theorem Takes.loop {taken : List Char → Nat} (ht : Takes stop? taken) (hj : j ≤ cs.length)
    (h : cs.drop j = rest) : ∃ path, Loop (escapedStep cs stop?) j path (j + taken rest) := by
  induction hn : rest.length using Nat.strong_induction_on generalizing rest j with
  | h n ih =>
    -- Whatever a step goes over, the rest of the scan is about the text after it.
    have hgoes : ∀ text after, rest = text ++ after → text ≠ [] →
        escapedStep cs stop? j = .inl (j + text.length) → taken rest = taken after + text.length →
        ∃ path, Loop (escapedStep cs stop?) j path (j + taken rest) := by
      intro text after hrest htext hstep htaken
      have hdrop : cs.drop j = text ++ after := h.trans hrest
      have hshort : after.length < n := by
        have hpos := List.length_pos_iff.mpr htext
        rw [← hn, hrest, List.length_append]
        omega
      obtain ⟨path, hloop⟩ := ih _ hshort (add_length_le hj hdrop) (drop_of_append hdrop) rfl
      have hresult : j + taken rest = j + text.length + taken after := by omega
      rw [hresult]
      exact ⟨j :: path, .goes hstep hloop⟩
    match rest with
    | [] =>
      have hend := eq_length_of_drop hj h
      have hresult : j + taken [] = cs.length := by rw [ht.nil, hend, Nat.add_zero]
      rw [hresult]
      exact ⟨[j], .ends (escapedStep_end (by omega))⟩
    | c :: rest =>
      by_cases hc : c = '\\'
      · subst hc
        cases rest with
        | nil =>
          rw [ht.lone]
          exact ⟨_, loop_lone hj h⟩
        | cons d rest =>
          exact hgoes ['\\', d] rest rfl (by simp) (escapedStep_pair h) (ht.pair d rest)
      · have hstep := @escapedStep_plain cs rest c j stop? h hc
        have htaken := ht.char c rest hc
        cases hs : stop? c with
        | some k =>
          rw [hs] at hstep htaken
          rw [htaken]
          exact ⟨[j], .ends hstep⟩
        | none =>
          rw [hs] at hstep htaken
          exact hgoes [c] rest rfl (by simp) hstep htaken

theorem takes_quotedRest (hq : quote ≠ '\\') :
    Takes (quoteStop? quote) fun cs => (quotedRest quote cs).1.length where
  nil := rfl
  lone := by simp [quotedRest, hq.symm]
  pair c rest := by simp [quotedRest]
  char c rest hc := by
    rw [quotedRest, quoteStop?]
    · split
      next => rfl
      next => split <;> rfl
    · exact fun _ _ he => absurd he hc

theorem takes_bracketRest : Takes bracketStop? fun cs => (bracketRest cs).1.length where
  nil := rfl
  lone := by simp [bracketRest]
  pair c rest := by simp [bracketRest]
  char c rest hc := by
    rw [bracketRest, bracketStop?]
    · split <;> rfl
    · exact fun _ _ he => absurd he hc

theorem literalEnd_finishes (hq : quote ≠ '\\') (h : i < cs.length) :
    Finishes (escapedStep cs (quoteStop? quote)) id (· ≤ cs.length + 1) (i + 1)
      (literalEnd cs quote i) := by
  obtain ⟨path, hloop⟩ := (takes_quotedRest hq).loop (Nat.succ_le_of_lt h) rfl
  exact hloop.finishes (fun _ _ _ hstep => escapedStep_bounds hstep) (by omega)

theorem bracketEnd_finishes (h : i < cs.length) :
    Finishes (escapedStep cs bracketStop?) id (· ≤ cs.length + 1) (i + 1) (bracketEnd cs i) := by
  obtain ⟨path, hloop⟩ := takes_bracketRest.loop (Nat.succ_le_of_lt h) rfl
  exact hloop.finishes (fun _ _ _ hstep => escapedStep_bounds hstep) (by omega)

theorem commentEnd?_of_drop (h : cs.drop j = rest) :
    commentEnd? cs j = (comment? rest).map fun p => j + p.1.length := by
  rw [commentEnd?, h]

theorem literalEnd_of_drop (h : cs.drop j = c :: rest) :
    literalEnd cs quote j = j + (c :: (quotedRest quote rest).1).length := by
  rw [literalEnd, drop_succ_of_drop h, List.length_cons]
  omega

theorem bracketEnd_of_drop (h : cs.drop j = c :: rest) :
    bracketEnd cs j = j + (c :: (bracketRest rest).1).length := by
  rw [bracketEnd, drop_succ_of_drop h, List.length_cons]
  omega

theorem blockEnd?_of_drop (h : cs.drop j = c :: rest) :
    blockEnd? cs j = (blockBody? 0 rest).map fun p => j + p.1.length + 2 := by
  rw [blockEnd?, drop_succ_of_drop h]

theorem blockStep_comment {p : List Char × List Char} (h : cs.drop j = rest)
    (hc : comment? rest = some p) :
    blockStep cs ⟨j, depth⟩ = .inl ⟨j + p.1.length, depth⟩ := by
  cases rest with
  | nil => cases hc
  | cons c rest =>
    have hend : commentEnd? cs j = some (j + p.1.length) := by
      rw [commentEnd?_of_drop h, hc]
      rfl
    simp only [blockStep, getElem?_of_drop h, hend]

theorem blockStep_char (h : cs.drop j = c :: rest) (hc : comment? (c :: rest) = none) :
    blockStep cs ⟨j, depth⟩ =
      if c = '"' ∨ c = '\'' then .inl ⟨j + (c :: (quotedRest c rest).1).length, depth⟩
      else if c = '\x7b' then .inl ⟨j + 1, depth + 1⟩
      else if c = '\x7d' then
        if depth = 1 then .inr (some (j + 1)) else .inl ⟨j + 1, depth - 1⟩
      else .inl ⟨j + 1, depth⟩ := by
  have hend : commentEnd? cs j = none := by
    rw [commentEnd?_of_drop h, hc]
    rfl
  simp only [blockStep, getElem?_of_drop h, hend, literalEnd_of_drop h]

/-- The search for a closing brace goes over some text and ends in the rest. -/
theorem loop_goes {opened opened' : Nat} {p? : Option (List Char × List Char)}
    (hstep : blockStep cs ⟨j, opened⟩ = .inl ⟨j + text.length, opened'⟩)
    (h : ∃ path, Loop (blockStep cs) ⟨j + text.length, opened'⟩ path
      (p?.map fun p => j + text.length + p.1.length + 1)) :
    ∃ path, Loop (blockStep cs) ⟨j, opened⟩ path
      ((p?.map fun p => (text ++ p.1, p.2)).map fun p => j + p.1.length + 1) := by
  obtain ⟨path, hloop⟩ := h
  have hresult : (p?.map fun p => (text ++ p.1, p.2)).map (fun p => j + p.1.length + 1) =
      p?.map fun p => j + text.length + p.1.length + 1 := by
    cases p? with
    | none => rfl
    | some p =>
      simp only [Option.map_some, List.length_append, Option.some.injEq]
      omega
  rw [hresult]
  exact ⟨_, .goes hstep hloop⟩

/-- The search for a closing brace finds the end of a body. -/
theorem loop_blockBody? (hj : j ≤ cs.length) (h : cs.drop j = rest) :
    ∃ path, Loop (blockStep cs) ⟨j, depth + 1⟩ path
      ((blockBody? depth rest).map fun p => j + p.1.length + 1) := by
  fun_induction blockBody? depth rest generalizing j with
  | case1 depth rest text after hc _ ih =>
    have hdrop : cs.drop j = text ++ after := h.trans (comment?_append hc).symm
    exact loop_goes (blockStep_comment h hc) (ih (add_length_le hj hdrop) (drop_of_append hdrop))
  | case2 depth =>
    have hend := eq_length_of_drop hj h
    refine ⟨_, .ends ?_⟩
    simp only [blockStep, hend, List.getElem?_length]
    rfl
  | case3 depth c rest hc hq _ ih =>
    have hdrop : cs.drop j = (c :: (quotedRest c rest).1) ++ (quotedRest c rest).2 := by
      rw [h, List.cons_append, quotedRest_append]
    refine loop_goes ?_ (ih (add_length_le hj hdrop) (drop_of_append hdrop))
    rw [blockStep_char h hc, if_pos hq]
  | case4 depth rest hc hq ih =>
    have hdrop : cs.drop j = ['\x7b'] ++ rest := h
    refine loop_goes ?_ (ih (add_length_le hj hdrop) (drop_of_append hdrop))
    rw [blockStep_char h hc, if_neg hq, if_pos rfl]
    rfl
  | case5 rest hc hq ho =>
    refine ⟨_, .ends ?_⟩
    rw [blockStep_char h hc, if_neg hq, if_neg ho, if_pos rfl, if_pos rfl]
    rfl
  | case6 rest depth hc hq ho ih =>
    have hdrop : cs.drop j = ['\x7d'] ++ rest := h
    refine loop_goes ?_ (ih (add_length_le hj hdrop) (drop_of_append hdrop))
    rw [blockStep_char h hc, if_neg hq, if_neg ho, if_pos rfl, if_neg (by omega)]
    rfl
  | case7 depth c rest hc hq ho hcl ih =>
    have hdrop : cs.drop j = [c] ++ rest := h
    refine loop_goes ?_ (ih (add_length_le hj hdrop) (drop_of_append hdrop))
    rw [blockStep_char h hc, if_neg hq, if_neg ho, if_neg hcl]
    rfl

theorem blockEnd?_finishes (h : cs[i]? = some '\x7b') :
    Finishes (blockStep cs) Depth.offset (fun s => s.offset ≤ cs.length) ⟨i, 0⟩
      (blockEnd? cs i) := by
  have hlt := (List.getElem?_eq_some_iff.mp h).1
  have hdrop := drop_of_getElem? h
  -- The opening brace itself is the first step; from there on one block is open.
  have hopen : blockStep cs ⟨i, 0⟩ = .inl ⟨i + 1, 0 + 1⟩ := by
    rw [blockStep_char hdrop (comment?_eq_none (by decide)), if_neg (by decide), if_pos rfl]
  obtain ⟨path, hloop⟩ := loop_blockBody? (Nat.succ_le_of_lt hlt) rfl
  have hresult : blockEnd? cs i =
      (blockBody? 0 (cs.drop (i + 1))).map fun p => i + 1 + p.1.length + 1 := by
    refine congrArg (Option.map · _) (funext fun p => ?_)
    omega
  rw [hresult]
  exact (Loop.goes hopen hloop).finishes (fun _ _ _ hstep => blockStep_bounds hstep)
    (Nat.le_of_lt hlt)

theorem maskStep_comment {p : List Char × List Char} {ms : List Char} (h : cs.drop j = rest)
    (hc : comment? rest = some p) : maskStep cs ⟨j, ms⟩ = .inl ⟨j + p.1.length, ms⟩ := by
  cases rest with
  | nil => cases hc
  | cons c rest =>
    have hend : commentEnd? cs j = some (j + p.1.length) := by
      rw [commentEnd?_of_drop h, hc]
      rfl
    simp only [maskStep, getElem?_of_drop h, hend]

theorem maskStep_char {ms : List Char} (h : cs.drop j = c :: rest)
    (hc : comment? (c :: rest) = none) :
    maskStep cs ⟨j, ms⟩ =
      if c = '\'' then .inl ⟨j + (c :: (quotedRest c rest).1).length, ms⟩
      else if c = '[' then .inl ⟨j + (c :: (bracketRest rest).1).length, ms⟩
      else if c = '\x7b' then
        match blockBody? 0 rest with
        | none => .inr ms
        | some p => .inl ⟨j + p.1.length + 2, blankBetween (j + 1) (j + p.1.length + 1) ms⟩
      else .inl ⟨j + 1, ms⟩ := by
  have hend : commentEnd? cs j = none := by
    rw [commentEnd?_of_drop h, hc]
    rfl
  simp only [maskStep, getElem?_of_drop h, hend, literalEnd_of_drop h, bracketEnd_of_drop h,
    blockEnd?_of_drop h]
  cases blockBody? 0 rest <;> rfl

theorem blankBetween_body {before body after : List Char} (hj : before.length = j) :
    blankBetween (j + 1) (j + body.length + 1) (before ++ '\x7b' :: (body ++ '\x7d' :: after)) =
      before ++ ('\x7b' :: body.map blankOut ++ ['\x7d']) ++ after := by
  have htext : before ++ '\x7b' :: (body ++ '\x7d' :: after) =
      (before ++ ['\x7b']) ++ (body ++ '\x7d' :: after) := by simp
  have hfirst : j + 1 = (before ++ ['\x7b']).length := by simp [hj]
  have hlast : j + body.length + 1 = (before ++ ['\x7b']).length + body.length := by
    rw [← hfirst]
    omega
  rw [htext, blankBetween, hlast, hfirst, List.extract_eq_take_drop, List.take_left,
    List.drop_left, Nat.add_sub_cancel_left, List.take_left, ← List.drop_drop, List.drop_left,
    List.drop_left]
  simp

/-- How masking goes on after a piece. -/
theorem maskStep_of_cuts {before : List Char} {piece : Piece} (hcut : Cuts rest piece after)
    (h : cs.drop j = rest) (hj : before.length = j) :
    maskStep cs ⟨j, before ++ rest⟩ =
        .inl ⟨j + piece.text.length, before ++ piece.masked ++ after⟩ ∨
      after = [] ∧ piece.masked = rest ∧ maskStep cs ⟨j, before ++ rest⟩ = .inr (before ++ rest) := by
  cases hcut with
  | @comment _ p hc =>
    left
    rw [maskStep_comment h hc, List.append_assoc]
    change _ = Sum.inl (Masking.mk _ (before ++ (p.1 ++ p.2)))
    rw [comment?_append hc]
    rfl
  | @literal rest =>
    left
    have happ := quotedRest_append '\'' rest
    rw [maskStep_char h (comment?_eq_none (by decide)), if_pos rfl]
    simp [Piece.text, Piece.masked, happ]
  | @bracket rest =>
    left
    have happ := bracketRest_append rest
    rw [maskStep_char h (comment?_eq_none (by decide)), if_neg (by decide), if_pos rfl]
    simp [Piece.text, Piece.masked, happ]
  | @block rest body after hb =>
    left
    have hblank := @blankBetween_body j before body after hj
    rw [maskStep_char h (comment?_eq_none (by decide)), if_neg (by decide), if_neg (by decide),
      if_pos rfl, hb]
    dsimp only
    rw [← blockBody?_append hb, hblank]
    simp [Piece.text, Piece.masked, Nat.add_assoc]
  | @unclosed rest hb =>
    right
    refine ⟨rfl, rfl, ?_⟩
    rw [maskStep_char h (comment?_eq_none (by decide)), if_neg (by decide), if_neg (by decide),
      if_pos rfl, hb]
  | @char c rest hc hm =>
    left
    simp only [List.mem_cons, List.not_mem_nil, or_false, not_or] at hm
    obtain ⟨hquote, hbracket, hbrace⟩ := hm
    rw [maskStep_char h hc, if_neg hquote, if_neg hbracket, if_neg hbrace]
    simp [Piece.text, Piece.masked]

theorem loop_maskChars {before : List Char} (hj : before.length = j) (hle : j ≤ cs.length)
    (h : cs.drop j = rest) :
    ∃ path, Loop (maskStep cs) ⟨j, before ++ rest⟩ path (before ++ maskChars rest) := by
  induction rest using cuts_induction generalizing before j with
  | nil =>
    have hend := eq_length_of_drop hle h
    refine ⟨_, .ends ?_⟩
    simp only [maskStep, hend, List.getElem?_length, maskChars_nil]
  | cut rest piece after hcut ih =>
    rw [hcut.maskChars_eq]
    rcases maskStep_of_cuts hcut h hj with hstep | ⟨rfl, hmasked, hstep⟩
    · have hdrop : cs.drop j = piece.text ++ after := h.trans hcut.append_eq.symm
      have hlength : (before ++ piece.masked).length = j + piece.text.length := by
        rw [List.length_append, hj, (masks_piece piece).length_eq]
      obtain ⟨path, hloop⟩ := ih hlength (add_length_le hle hdrop) (drop_of_append hdrop)
      rw [← List.append_assoc]
      exact ⟨_, .goes hstep hloop⟩
    · rw [maskChars_nil, List.append_nil, hmasked]
      exact ⟨_, .ends hstep⟩

theorem mask_finishes (cs : List Char) :
    Finishes (maskStep cs) Masking.offset
      (fun s => s.offset ≤ cs.length ∧ s.chars.length = cs.length) ⟨0, cs⟩ (maskChars cs) := by
  obtain ⟨path, hloop⟩ := @loop_maskChars cs cs 0 [] rfl (Nat.zero_le cs.length) List.drop_zero
  exact hloop.finishes (fun _ _ hs hstep => maskStep_bounds hs hstep) ⟨Nat.zero_le _, rfl⟩

end Results

/-- Every scanner goes on, and no further than to the end of the text. Comments, literals, bracket
blocks and brace blocks end behind the offset where they start, and brace blocks with a brace. A
backslash at the very end takes a scan one beyond it at most, and not its result. So every loop
finishes with the result, on any text. -/
theorem scanners_advance (text : String) :
    let cs := text.toList
    (∀ i, i < cs.length →
      (∀ last, commentEnd? cs i = some last → i < last ∧ last ≤ cs.length) ∧
      (∀ quote ∈ ['"', '\''], cs[i]? = some quote →
        (i < literalEnd cs quote i ∧ literalEnd cs quote i ≤ cs.length) ∧
          Finishes (escapedStep cs (quoteStop? quote)) id (· ≤ cs.length + 1) (i + 1)
            (literalEnd cs quote i)) ∧
      (cs[i]? = some '[' → (i < bracketEnd cs i ∧ bracketEnd cs i ≤ cs.length) ∧
        Finishes (escapedStep cs bracketStop?) id (· ≤ cs.length + 1) (i + 1) (bracketEnd cs i)) ∧
      (cs[i]? = some '\x7b' →
        (∀ last, blockEnd? cs i = some last →
          i < last ∧ last ≤ cs.length ∧ cs[last - 1]? = some '\x7d') ∧
        Finishes (blockStep cs) Depth.offset (fun s => s.offset ≤ cs.length) ⟨i, 0⟩
          (blockEnd? cs i))) ∧
    Finishes (maskStep cs) Masking.offset
      (fun s => s.offset ≤ cs.length ∧ s.chars.length = cs.length) ⟨0, cs⟩ (mask text).toList := by
  intro cs
  refine ⟨fun i hi => ⟨fun last hl => commentEnd?_bounds hl, fun quote hq _ => ?_, fun _ => ?_,
    fun hopen => ⟨fun last hl => ?_, blockEnd?_finishes hopen⟩⟩, ?_⟩
  · have hescape : quote ≠ '\\' := by
      rintro rfl
      exact absurd hq (by decide)
    exact ⟨literalEnd_bounds hi, literalEnd_finishes hescape hi⟩
  · exact ⟨bracketEnd_bounds hi, bracketEnd_finishes hi⟩
  · obtain ⟨hrise, hle, hclose⟩ := blockEnd?_bounds hl
    exact ⟨by omega, hle, hclose⟩
  · have hmask : (mask text).toList = maskChars cs := String.toList_ofList
    rw [hmask]
    exact mask_finishes cs

end Source
end GrammarDoc
