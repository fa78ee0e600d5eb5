import GrammarDoc.Proofs.Parsing.Exactness

namespace GrammarDoc.Parsing

variable {κ τ ρ : Type}

/-- Whether a form has a match if the known rules have one. -/
def Form.hasMatch (known : ρ → Bool) : Form κ ρ → Bool
  | empty => true
  | shown _ => true
  | hidden _ => true
  | rule name => known name
  | seq f g => f.hasMatch known && g.hasMatch known
  | alt f g => f.hasMatch known || g.hasMatch known
  | many _ => true

/-- Every rule has a match: `height` falls from a rule to those that a match of it needs. -/
structure Grammar.Productive (G : Grammar κ ρ) (height : ρ → Nat) : Prop where
  hasMatch : ∀ name, (G.form name).hasMatch (fun other => height other < height name) = true

/-- Some sentence starts with these tokens. -/
def Grammar.Viable (G : Grammar κ ρ) (kind : τ → κ) (ts : List τ) : Prop :=
  ∃ us d, Derivation.Derives kind G.form G.start (ts ++ us) d

variable {kind : τ → κ} {form : ρ → Form κ ρ} {G : Grammar κ ρ} {height : ρ → Nat}

theorem exists_matches_of_hasMatch {known : ρ → Bool} {f : Form κ ρ}
    (hkind : Function.Surjective kind)
    (hknown : ∀ name, known name → ∃ ds ts, Matches kind form (form name) ds ts)
    (h : f.hasMatch known) : ∃ ds ts, Matches kind form f ds ts := by
  induction f with
  | empty => exact ⟨[], [], .empty⟩
  | shown k =>
    obtain ⟨t, rfl⟩ := hkind k
    exact ⟨_, _, .shown t⟩
  | hidden k =>
    obtain ⟨t, rfl⟩ := hkind k
    exact ⟨_, _, .hidden t⟩
  | rule name =>
    obtain ⟨ds, ts, hm⟩ := hknown name h
    exact ⟨_, _, .rule hm⟩
  | seq f g ihf ihg =>
    obtain ⟨hf, hg⟩ := Bool.and_eq_true_iff.mp h
    obtain ⟨ds, ts, hf⟩ := ihf hf
    obtain ⟨es, us, hg⟩ := ihg hg
    exact ⟨_, _, .seq hf hg⟩
  | alt f g ihf ihg =>
    rcases Bool.or_eq_true_iff.mp h with h | h
    · obtain ⟨ds, ts, hf⟩ := ihf h
      exact ⟨_, _, .altLeft hf⟩
    · obtain ⟨ds, ts, hg⟩ := ihg h
      exact ⟨_, _, .altRight hg⟩
  | many f => exact ⟨[], [], .manyNil⟩

theorem viable_of_append {ts us : List τ} (h : G.Viable kind (ts ++ us)) : G.Viable kind ts := by
  obtain ⟨vs, d, hd⟩ := h
  rw [List.append_assoc] at hd
  exact ⟨us ++ vs, d, hd⟩

namespace Grammar.Productive

theorem exists_matches_form (hP : G.Productive height) (hkind : Function.Surjective kind)
    (name : ρ) : ∃ ds ts, Matches kind G.form (G.form name) ds ts := by
  induction hh : height name using Nat.strongRecOn generalizing name with
  | ind n ih =>
    refine exists_matches_of_hasMatch hkind (fun other ho => ?_) (hP.hasMatch name)
    exact ih (height other) (by simpa [hh] using ho) other rfl

theorem exists_matches (hP : G.Productive height) (hkind : Function.Surjective kind)
    (f : Form κ ρ) : ∃ ds ts, Matches kind G.form f ds ts := by
  have hf : f.hasMatch fun _ => true := by
    induction f with
    | seq f g ihf ihg => exact Bool.and_eq_true_iff.mpr ⟨ihf, ihg⟩
    | alt f g ihf _ => exact Bool.or_eq_true_iff.mpr (.inl ihf)
    | _ => rfl
  exact exists_matches_of_hasMatch hkind (fun name _ => hP.exists_matches_form hkind name) hf

/-- Whatever is under construction can be completed. -/
theorem exists_completes (hP : G.Productive height) (hkind : Function.Surjective kind)
    (c : Configuration κ τ ρ) (arrived : List (Derivation τ ρ)) :
    ∃ ts out, Configuration.Completes kind G.form c arrived ts out := by
  induction c generalizing arrived with
  | nil => exact ⟨[], arrived, rfl, rfl⟩
  | cons frame outer ih =>
    obtain ⟨ds, ts, hm⟩ := hP.exists_matches hkind frame.rest
    obtain ⟨us, out, hc⟩ := ih [.node frame.rule ((arrived ++ frame.done).reverse ++ ds)]
    exact ⟨ts ++ us, out, ds, ts, us, rfl, hm, hc⟩

end Grammar.Productive

section Run

variable [DecidableEq κ] {cs last : List (Configuration κ τ ρ)} {token : τ} {ts : List τ}

theorem run_ne_nil (hc : cs ≠ []) (h : G.run kind cs ts = .ok last) : last ≠ [] := by
  induction ts generalizing cs with
  | nil =>
    cases h
    exact hc
  | cons t ts ih =>
    unfold Grammar.run at h
    split at h
    next => cases h
    next hn => exact ih hn h

variable {blank : ρ → Bool} {rank : ρ → Nat}

theorem viable_of_run_ok (hG : G.Layered blank rank) (hP : G.Productive height)
    (hkind : Function.Surjective kind) (h : G.run kind G.initial ts = .ok last) :
    G.Viable kind ts := by
  obtain ⟨-, hrun⟩ := hG.run_ok hG.isProper_initial h
  have hne : last ≠ [] := run_ne_nil (by simp [Grammar.initial]) h
  obtain ⟨c, hc⟩ := List.exists_mem_of_ne_nil last hne
  obtain ⟨us, out, hcomp⟩ := hP.exists_completes hkind c []
  have hm := Grammar.Layered.completes_initial_iff.mp ((hrun us out).mpr ⟨c, hc, hcomp⟩)
  obtain ⟨ds, rfl, -⟩ := matches_rule_iff.mp hm
  exact ⟨us, _, derives_iff_matches.mpr hm⟩

theorem not_viable_of_run_error (hG : G.Layered blank rank)
    (h : G.run kind G.initial ts = .error token) :
    ∃ pre post before, ts = pre ++ token :: post ∧ G.run kind G.initial pre = .ok before ∧
      ¬G.Viable kind (pre ++ [token]) := by
  obtain ⟨pre, post, before, rfl, hrun, hno⟩ := hG.not_derives_of_run_error h
  refine ⟨pre, post, before, rfl, hrun, ?_⟩
  rintro ⟨us, d, hd⟩
  rw [List.append_assoc] at hd
  exact hno us d hd

/-- A run stops exactly at the first token that no sentence has there. -/
theorem run_error_iff (hG : G.Layered blank rank) (hP : G.Productive height)
    (hkind : Function.Surjective kind) :
    G.run kind G.initial ts = .error token ↔ ∃ pre post, ts = pre ++ token :: post ∧
      G.Viable kind pre ∧ ¬G.Viable kind (pre ++ [token]) := by
  constructor
  · intro h
    obtain ⟨pre, post, before, rfl, hrun, hno⟩ := not_viable_of_run_error hG h
    exact ⟨pre, post, rfl, viable_of_run_ok hG hP hkind hrun, hno⟩
  · rintro ⟨pre, post, rfl, hpre, hno⟩
    have hnot : ¬G.Viable kind (pre ++ token :: post) := by
      intro hv
      rw [List.append_cons] at hv
      exact hno (viable_of_append hv)
    cases h : G.run kind G.initial (pre ++ token :: post) with
    | ok last => exact absurd (viable_of_run_ok hG hP hkind h) hnot
    | error other =>
      obtain ⟨pre', post', before, he, hrun, hno'⟩ := not_viable_of_run_error hG h
      have hpre' := viable_of_run_ok hG hP hkind hrun
      -- Of two first tokens without a continuation, neither comes before the other.
      rcases List.append_eq_append_iff.mp he with ⟨as, rfl, ht⟩ | ⟨as, rfl, ht⟩
      · cases as with
        | nil =>
          cases ht
          rfl
        | cons a as =>
          cases ht
          rw [List.append_cons] at hpre'
          exact absurd (viable_of_append hpre') hno
      · cases as with
        | nil =>
          cases ht
          rfl
        | cons a as =>
          cases ht
          rw [List.append_cons] at hpre
          exact absurd (viable_of_append hpre) hno'

theorem run_ok_iff_viable (hG : G.Layered blank rank) (hP : G.Productive height)
    (hkind : Function.Surjective kind) :
    (∃ last, G.run kind G.initial ts = .ok last) ↔ G.Viable kind ts := by
  constructor
  · rintro ⟨last, h⟩
    exact viable_of_run_ok hG hP hkind h
  · intro hv
    cases h : G.run kind G.initial ts with
    | ok last => exact ⟨last, rfl⟩
    | error token =>
      obtain ⟨pre, post, _, rfl, -, hno⟩ := not_viable_of_run_error hG h
      rw [List.append_cons] at hv
      exact absurd (viable_of_append hv) hno

end Run
end GrammarDoc.Parsing
