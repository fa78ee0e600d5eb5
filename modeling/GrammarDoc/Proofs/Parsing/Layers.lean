import GrammarDoc.Parsing.Configuration
import GrammarDoc.Proofs.Parsing.Matching

namespace GrammarDoc.Parsing

variable {κ τ ρ : Type} {kind : τ → κ} {form : ρ → Form κ ρ} {blank : ρ → Bool}
variable {f g : Form κ ρ} {ds : List (Derivation τ ρ)} {ts : List τ}

namespace Form

/-- Whether a form may match no token, given which rules may. -/
def isBlank (blank : ρ → Bool) : Form κ ρ → Bool
  | empty => true
  | shown _ => false
  | hidden _ => false
  | rule name => blank name
  | seq f g => f.isBlank blank && g.isBlank blank
  | alt f g => f.isBlank blank || g.isBlank blank
  | many _ => true

/-- The rules that may be entered before the first token of a form is read. -/
def corners (blank : ρ → Bool) : Form κ ρ → List ρ
  | empty => []
  | shown _ => []
  | hidden _ => []
  | rule name => [name]
  | seq f g => f.corners blank ++ if f.isBlank blank then g.corners blank else []
  | alt f g => f.corners blank ++ g.corners blank
  | many f => f.corners blank

/-- Every repeated part takes a token. -/
def isProper (blank : ρ → Bool) : Form κ ρ → Bool
  | empty => true
  | shown _ => true
  | hidden _ => true
  | rule _ => true
  | seq f g => f.isProper blank && g.isProper blank
  | alt f g => f.isProper blank && g.isProper blank
  | many f => f.isProper blank && !f.isBlank blank

theorem isProper_andThen (hf : f.isProper blank = true) (hg : g.isProper blank = true) :
    (f.andThen g).isProper blank = true := by
  cases f with
  | empty => exact hg
  | _ => exact Bool.and_eq_true_iff.mpr ⟨hf, hg⟩

end Form

/-- No rule comes back to itself before a token is read: `blank` holds of the rules that may match
no token, and `rank` falls from a rule to those that can be entered first inside it. -/
structure Grammar.Layered (G : Grammar κ ρ) (blank : ρ → Bool) (rank : ρ → Nat) : Prop where
  blank_of_form : ∀ name, (G.form name).isBlank blank = true → blank name = true
  rank_corner : ∀ name, ∀ corner ∈ (G.form name).corners blank, rank corner < rank name
  rank_lt_depth : ∀ name, rank name < G.depth
  proper_form : ∀ name, (G.form name).isProper blank = true

theorem Matches.isBlank (hb : ∀ name, (form name).isBlank blank = true → blank name = true)
    (h : Matches kind form f ds ts) (ht : ts = []) : f.isBlank blank = true := by
  induction h with
  | empty => rfl
  | shown => simp at ht
  | hidden => simp at ht
  | rule _ ih => exact hb _ (ih ht)
  | seq _ _ ihf ihg =>
    obtain ⟨hf, hg⟩ := List.append_eq_nil_iff.mp ht
    simp [Form.isBlank, ihf hf, ihg hg]
  | altLeft _ ih => simp [Form.isBlank, ih ht]
  | altRight _ ih => simp [Form.isBlank, ih ht]
  | manyNil => rfl
  | manyCons => rfl

/-- The first token of a sequence is in its first part, or that part is empty. -/
theorem matches_seq_cons {token : τ}
    (hb : ∀ name, (form name).isBlank blank = true → blank name = true)
    (h : Matches kind form (.seq f g) ds (token :: ts)) :
    (∃ ds₁ ds₂ ts₁ ts₂, ds = ds₁ ++ ds₂ ∧ ts = ts₁ ++ ts₂ ∧
      Matches kind form f ds₁ (token :: ts₁) ∧ Matches kind form g ds₂ ts₂) ∨
    ∃ ds₁ ds₂, ds = ds₁ ++ ds₂ ∧ f.isBlank blank = true ∧ Matches kind form f ds₁ [] ∧
      Matches kind form g ds₂ (token :: ts) := by
  obtain ⟨ds₁, ds₂, ts₁, ts₂, rfl, ht, hf, hg⟩ := matches_seq_iff.mp h
  cases ts₁ with
  | cons t us =>
    cases ht
    exact .inl ⟨ds₁, ds₂, us, ts₂, rfl, rfl, hf, hg⟩
  | nil =>
    cases ht
    exact .inr ⟨ds₁, ds₂, rfl, hf.isBlank hb rfl, hf, hg⟩

/-- The first token of a repetition is in its first round. -/
theorem matches_many_cons {token : τ}
    (hb : ∀ name, (form name).isBlank blank = true → blank name = true)
    (proper : (Form.many f).isProper blank = true)
    (h : Matches kind form (.many f) ds (token :: ts)) :
    ∃ ds₁ ds₂ ts₁ ts₂, ds = ds₁ ++ ds₂ ∧ ts = ts₁ ++ ts₂ ∧
      Matches kind form f ds₁ (token :: ts₁) ∧ Matches kind form (.many f) ds₂ ts₂ := by
  rcases matches_many_iff.mp h with ⟨-, ht⟩ | ⟨ds₁, ds₂, ts₁, ts₂, rfl, ht, hf, hm⟩
  · simp at ht
  · cases ts₁ with
    | nil => simp [Form.isProper, hf.isBlank hb rfl] at proper
    | cons t us =>
      cases ht
      exact ⟨ds₁, ds₂, us, ts₂, rfl, rfl, hf, hm⟩

section Blank

variable {trees : ρ → List (Derivation τ ρ)}

theorem matches_of_mem_emptyMatches
    (sound : ∀ name, ∀ d ∈ trees name, Matches kind form (.rule name) [d] [])
    (h : ds ∈ emptyMatches trees f) : Matches kind form f ds [] := by
  induction f generalizing ds with
  | empty =>
    cases List.mem_singleton.mp h
    exact .empty
  | shown => simp [emptyMatches] at h
  | hidden => simp [emptyMatches] at h
  | rule name =>
    obtain ⟨d, hd, rfl⟩ := List.mem_map.mp h
    exact sound name d hd
  | seq f g ihf ihg =>
    obtain ⟨es, hes, h⟩ := List.mem_flatMap.mp h
    obtain ⟨us, hus, rfl⟩ := List.mem_map.mp h
    exact .seq (ihf hes) (ihg hus)
  | alt f g ihf ihg =>
    rcases List.mem_append.mp h with h | h
    · exact .altLeft (ihf h)
    · exact .altRight (ihg h)
  | many f =>
    cases List.mem_singleton.mp h
    exact .manyNil

theorem mem_emptyMatches_of_matches
    (hb : ∀ name, (form name).isBlank blank = true → blank name = true)
    (complete : ∀ corner ∈ f.corners blank, ∀ d,
      Matches kind form (.rule corner) [d] [] → d ∈ trees corner)
    (proper : f.isProper blank = true) (h : Matches kind form f ds []) :
    ds ∈ emptyMatches trees f := by
  induction f generalizing ds with
  | empty => simp_all [emptyMatches]
  | shown => simp at h
  | hidden => simp at h
  | rule name =>
    obtain ⟨es, rfl, hm⟩ := matches_rule_iff.mp h
    exact List.mem_map.mpr ⟨_, complete name (by simp [Form.corners]) _ h, rfl⟩
  | seq f g ihf ihg =>
    obtain ⟨ds₁, ds₂, ts₁, ts₂, rfl, ht, hf, hg⟩ := matches_seq_iff.mp h
    obtain ⟨rfl, rfl⟩ := List.append_eq_nil_iff.mp ht.symm
    have hblank := hf.isBlank hb rfl
    obtain ⟨pf, pg⟩ := Bool.and_eq_true_iff.mp proper
    have hc : ∀ corner ∈ g.corners blank, corner ∈ (Form.seq f g).corners blank := by
      intro corner hm
      simp [Form.corners, hblank, hm]
    refine List.mem_flatMap.mpr ⟨ds₁, ihf ?_ pf hf, List.mem_map.mpr ⟨ds₂, ihg ?_ pg hg, rfl⟩⟩
    · exact fun corner hm => complete corner (List.mem_append_left _ hm)
    · exact fun corner hm => complete corner (hc corner hm)
  | alt f g ihf ihg =>
    obtain ⟨pf, pg⟩ := Bool.and_eq_true_iff.mp proper
    rcases matches_alt_iff.mp h with h | h
    · exact List.mem_append_left _
        (ihf (fun corner hm => complete corner (List.mem_append_left _ hm)) pf h)
    · exact List.mem_append_right _
        (ihg (fun corner hm => complete corner (List.mem_append_right _ hm)) pg h)
  | many f =>
    rcases matches_many_iff.mp h with ⟨rfl, -⟩ | ⟨ds₁, ds₂, ts₁, ts₂, -, ht, hf, -⟩
    · simp [emptyMatches]
    · obtain ⟨rfl, -⟩ := List.append_eq_nil_iff.mp ht.symm
      have hblank := hf.isBlank hb rfl
      simp [Form.isProper, hblank] at proper

theorem matches_of_mem_emptyTrees {depth : Nat} {name : ρ} {d : Derivation τ ρ}
    (h : d ∈ emptyTrees form depth name) : Matches kind form (.rule name) [d] [] := by
  induction depth generalizing name d with
  | zero => simp [emptyTrees] at h
  | succ depth ih =>
    obtain ⟨es, hes, rfl⟩ := List.mem_map.mp h
    exact .rule (matches_of_mem_emptyMatches (fun name d hd => ih hd) hes)

end Blank

namespace Grammar.Layered

variable {G : Grammar κ ρ} {rank : ρ → Nat}

theorem mem_emptyTrees (hG : G.Layered blank rank) {depth : Nat} {name : ρ} {d : Derivation τ ρ}
    (hr : rank name < depth) (h : Matches kind G.form (.rule name) [d] []) :
    d ∈ emptyTrees G.form depth name := by
  induction depth generalizing name d with
  | zero => omega
  | succ depth ih =>
    obtain ⟨es, he, hm⟩ := matches_rule_iff.mp h
    cases he
    refine List.mem_map.mpr ⟨es, ?_, rfl⟩
    refine mem_emptyMatches_of_matches hG.blank_of_form ?_ (hG.proper_form name) hm
    intro corner hc d hd
    have := hG.rank_corner name corner hc
    exact ih (by omega) hd

theorem mem_blankTrees_iff (hG : G.Layered blank rank) {name : ρ} {d : Derivation τ ρ} :
    d ∈ G.blankTrees name ↔ Matches kind G.form (.rule name) [d] [] :=
  ⟨matches_of_mem_emptyTrees, hG.mem_emptyTrees (hG.rank_lt_depth name)⟩

/-- The empty matches of a proper form are all found. -/
theorem mem_blanks_iff (hG : G.Layered blank rank) (proper : f.isProper blank = true) :
    ds ∈ G.blanks f ↔ Matches kind G.form f ds [] := by
  constructor
  · exact matches_of_mem_emptyMatches fun name d => hG.mem_blankTrees_iff.mp
  · exact mem_emptyMatches_of_matches hG.blank_of_form
      (fun corner _ d => hG.mem_blankTrees_iff.mpr) proper

end Grammar.Layered
end GrammarDoc.Parsing
