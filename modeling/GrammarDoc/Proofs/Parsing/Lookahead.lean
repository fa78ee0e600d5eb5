import GrammarDoc.Proofs.Parsing.Layers

namespace GrammarDoc.Parsing

variable {κ τ ρ : Type}

/-- The kind of the next token; there is none at the end of the text. -/
def ahead (kind : τ → κ) (ts : List τ) : Option κ :=
  ts.head?.map kind

namespace Form

variable (blank : ρ → Bool) (first : ρ → List κ)

/-- The kinds of token that may come first in a form. -/
def starts : Form κ ρ → List κ
  | empty => []
  | shown k => [k]
  | hidden k => [k]
  | rule name => first name
  | seq f g => f.starts ++ if f.isBlank blank then g.starts else []
  | alt f g => f.starts ++ g.starts
  | many f => f.starts

/-- What may come next where a form stands, given what may come after the form. -/
def next (f : Form κ ρ) (after : List (Option κ)) : List (Option κ) :=
  (f.starts blank first).map some ++ if f.isBlank blank then after else []

/-- What may come after the first token of a form. -/
def seconds (second : ρ → List (Option κ) → List (Option κ)) :
    Form κ ρ → List (Option κ) → List (Option κ)
  | empty, _ => []
  | shown _, after => after
  | hidden _, after => after
  | rule name, after => second name after
  | seq f g, after => f.seconds second (g.next blank first after) ++
      if f.isBlank blank then g.seconds second after else []
  | alt f g, after => f.seconds second after ++ g.seconds second after
  | many f, after => f.seconds second ((f.starts blank first).map some ++ after)

end Form

namespace Grammar

variable (G : Grammar κ ρ) (blank : ρ → Bool)

/-- The kinds of token that may come first in a rule, entering no more than so many rules. -/
def firstTo : Nat → ρ → List κ
  | 0, _ => []
  | depth + 1, name => (G.form name).starts blank (firstTo depth)

def first (name : ρ) : List κ :=
  G.firstTo blank G.depth name

/-- What may come after the first token of a rule, entering no more than so many rules. -/
def secondTo : Nat → ρ → List (Option κ) → List (Option κ)
  | 0, _, _ => []
  | depth + 1, name, after =>
    (G.form name).seconds blank (G.first blank) (secondTo depth) after

def second (name : ρ) (after : List (Option κ)) : List (Option κ) :=
  G.secondTo blank G.depth name after

end Grammar

section Matching

variable {kind : τ → κ} {form : ρ → Form κ ρ} {blank : ρ → Bool} {first : ρ → List κ}
variable {f : Form κ ρ} {ds : List (Derivation τ ρ)} {token : τ} {ts rest : List τ}
variable {after : List (Option κ)}

theorem mem_starts_of_matches (hb : ∀ name, (form name).isBlank blank = true → blank name = true)
    (hfirst : ∀ corner ∈ f.corners blank, ∀ ds ts,
      Matches kind form (form corner) ds (token :: ts) → kind token ∈ first corner)
    (proper : f.isProper blank = true) (h : Matches kind form f ds (token :: ts)) :
    kind token ∈ f.starts blank first := by
  induction f generalizing ds ts with
  | empty => simp at h
  | shown k =>
    obtain ⟨_, rfl, -, he⟩ := matches_shown_iff.mp h
    cases he
    exact List.mem_singleton_self _
  | hidden k =>
    obtain ⟨_, rfl, -, he⟩ := matches_hidden_iff.mp h
    cases he
    exact List.mem_singleton_self _
  | rule name =>
    obtain ⟨es, -, hm⟩ := matches_rule_iff.mp h
    exact hfirst name (by simp [Form.corners]) es ts hm
  | seq f g ihf ihg =>
    obtain ⟨pf, pg⟩ := Bool.and_eq_true_iff.mp proper
    rcases matches_seq_cons hb h with ⟨ds₁, -, us, -, -, -, hf, -⟩ | ⟨-, ds₂, -, hblank, -, hg⟩
    · exact List.mem_append_left _
        (ihf (fun corner hc => hfirst corner (List.mem_append_left _ hc)) pf hf)
    · have hg := ihg (fun corner hc => hfirst corner (by simp [Form.corners, hblank, hc])) pg hg
      simp [Form.starts, hblank, hg]
  | alt f g ihf ihg =>
    obtain ⟨pf, pg⟩ := Bool.and_eq_true_iff.mp proper
    rcases matches_alt_iff.mp h with h | h
    · exact List.mem_append_left _
        (ihf (fun corner hc => hfirst corner (List.mem_append_left _ hc)) pf h)
    · exact List.mem_append_right _
        (ihg (fun corner hc => hfirst corner (List.mem_append_right _ hc)) pg h)
  | many f ih =>
    obtain ⟨ds₁, -, us, -, -, -, hf, -⟩ := matches_many_cons hb proper h
    exact ih hfirst (Bool.and_eq_true_iff.mp proper).1 hf

/-- What comes next where a form has been matched. -/
theorem ahead_mem_next (hb : ∀ name, (form name).isBlank blank = true → blank name = true)
    (hfirst : ∀ name ds token ts,
      Matches kind form (form name) ds (token :: ts) → kind token ∈ first name)
    (proper : f.isProper blank = true) (h : Matches kind form f ds ts)
    (hr : ahead kind rest ∈ after) : ahead kind (ts ++ rest) ∈ f.next blank first after := by
  cases ts with
  | nil => simp [Form.next, h.isBlank hb rfl, hr]
  | cons token ts =>
    have hm := mem_starts_of_matches hb (fun corner _ ds ts => hfirst corner ds token ts) proper h
    exact List.mem_append_left _ (List.mem_map.mpr ⟨_, hm, rfl⟩)

/-- What comes after the first token of a match. -/
theorem ahead_mem_seconds {second : ρ → List (Option κ) → List (Option κ)}
    (hb : ∀ name, (form name).isBlank blank = true → blank name = true)
    (hfirst : ∀ name ds token ts,
      Matches kind form (form name) ds (token :: ts) → kind token ∈ first name)
    (hsecond : ∀ corner ∈ f.corners blank, ∀ ds ts rest after,
      Matches kind form (form corner) ds (token :: ts) → ahead kind rest ∈ after →
      ahead kind (ts ++ rest) ∈ second corner after)
    (proper : f.isProper blank = true) (h : Matches kind form f ds (token :: ts))
    (hr : ahead kind rest ∈ after) :
    ahead kind (ts ++ rest) ∈ f.seconds blank first second after := by
  induction f generalizing ds ts rest after with
  | empty => simp at h
  | shown k =>
    obtain ⟨_, rfl, -, he⟩ := matches_shown_iff.mp h
    cases he
    exact hr
  | hidden k =>
    obtain ⟨_, rfl, -, he⟩ := matches_hidden_iff.mp h
    cases he
    exact hr
  | rule name =>
    obtain ⟨es, -, hm⟩ := matches_rule_iff.mp h
    exact hsecond name (by simp [Form.corners]) es ts rest after hm hr
  | seq f g ihf ihg =>
    obtain ⟨pf, pg⟩ := Bool.and_eq_true_iff.mp proper
    rcases matches_seq_cons hb h with ⟨ds₁, ds₂, us, ts₂, -, rfl, hf, hg⟩ | ⟨-, ds₂, -, hblank, -, hg⟩
    · rw [List.append_assoc]
      exact List.mem_append_left _
        (ihf (fun corner hc => hsecond corner (List.mem_append_left _ hc)) pf hf
          (ahead_mem_next hb hfirst pg hg hr))
    · have hg := ihg (fun corner hc => hsecond corner (by simp [Form.corners, hblank, hc])) pg hg hr
      simp [Form.seconds, hblank, hg]
  | alt f g ihf ihg =>
    obtain ⟨pf, pg⟩ := Bool.and_eq_true_iff.mp proper
    rcases matches_alt_iff.mp h with h | h
    · exact List.mem_append_left _
        (ihf (fun corner hc => hsecond corner (List.mem_append_left _ hc)) pf h hr)
    · exact List.mem_append_right _
        (ihg (fun corner hc => hsecond corner (List.mem_append_right _ hc)) pg h hr)
  | many f ih =>
    obtain ⟨ds₁, ds₂, us, ts₂, -, rfl, hf, hm⟩ := matches_many_cons hb proper h
    have hn := ahead_mem_next hb hfirst proper hm hr
    rw [List.append_assoc]
    exact ih hsecond (Bool.and_eq_true_iff.mp proper).1 hf hn

end Matching
end GrammarDoc.Parsing
