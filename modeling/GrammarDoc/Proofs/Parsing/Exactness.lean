import GrammarDoc.Proofs.Parsing.Entries

namespace GrammarDoc.Parsing.Grammar

variable {κ τ ρ : Type} [DecidableEq κ] {kind : τ → κ} {blank : ρ → Bool} {rank : ρ → Nat}
variable {G : Grammar κ ρ} {token : τ} {f : Form κ ρ} {e : Entry κ τ ρ}
variable {ds out : List (Derivation τ ρ)} {ts : List τ}

theorem matches_of_mem_ruleEntries {depth : Nat} {name : ρ}
    (he : e ∈ ruleEntries kind G.form token G.blankTrees depth name)
    (h : e.Completes kind G.form ts ds) : Matches kind G.form (G.form name) ds (token :: ts) := by
  induction depth generalizing name e ds ts with
  | zero => simp [ruleEntries] at he
  | succ depth ih =>
    exact matches_of_mem_entries (fun name d hd => matches_of_mem_emptyTrees hd)
      (fun name e he ds ts hc => ih he hc) he h

theorem matches_of_mem_enter (he : e ∈ G.enter kind token f) (h : e.Completes kind G.form ts ds) :
    Matches kind G.form f ds (token :: ts) :=
  matches_of_mem_entries (fun _ _ hd => matches_of_mem_emptyTrees hd)
    (fun _ _ he _ _ hc => matches_of_mem_ruleEntries he hc) he h

namespace Layered

theorem exists_mem_ruleEntries (hG : G.Layered blank rank) {depth : Nat} {name : ρ}
    (hr : rank name < depth) (h : Matches kind G.form (G.form name) ds (token :: ts)) :
    ∃ e ∈ ruleEntries kind G.form token G.blankTrees depth name, e.Completes kind G.form ts ds := by
  induction depth generalizing name ds ts with
  | zero => omega
  | succ depth ih =>
    refine exists_mem_entries hG.blank_of_form ?_ ?_ (hG.proper_form name) h
    · exact fun corner _ d => hG.mem_blankTrees_iff.mpr
    · intro corner hc ds ts hm
      have := hG.rank_corner name corner hc
      exact ih (by omega) hm

/-- A form reads a token exactly by going through one of its entries. -/
theorem matches_cons_iff (hG : G.Layered blank rank) (proper : f.isProper blank = true) :
    Matches kind G.form f ds (token :: ts) ↔
      ∃ e ∈ G.enter kind token f, e.Completes kind G.form ts ds := by
  constructor
  · intro h
    refine exists_mem_entries hG.blank_of_form ?_ ?_ proper h
    · exact fun corner _ d => hG.mem_blankTrees_iff.mpr
    · exact fun corner _ ds ts hm => hG.exists_mem_ruleEntries (hG.rank_lt_depth corner) hm
  · rintro ⟨e, he, hc⟩
    exact matches_of_mem_enter he hc

theorem isProper_of_mem_ruleEntries (hG : G.Layered blank rank) {depth : Nat} {name : ρ}
    (he : e ∈ ruleEntries kind G.form token G.blankTrees depth name) :
    Configuration.IsProper blank e.inner ∧ e.rest.isProper blank = true := by
  induction depth generalizing name e with
  | zero => simp [ruleEntries] at he
  | succ depth ih =>
    exact isProper_of_mem_entries (fun name e he => ih he) (hG.proper_form name) he

theorem isProper_of_mem_enter (hG : G.Layered blank rank) (proper : f.isProper blank = true)
    (he : e ∈ G.enter kind token f) :
    Configuration.IsProper blank e.inner ∧ e.rest.isProper blank = true :=
  isProper_of_mem_entries (fun _ _ he => hG.isProper_of_mem_ruleEntries he) proper he

theorem isProper_of_mem_advance (hG : G.Layered blank rank) {c next : Configuration κ τ ρ}
    {arrived : Unit → List (Derivation τ ρ)} (proper : Configuration.IsProper blank c)
    (h : next ∈ G.advance kind token arrived c) : Configuration.IsProper blank next := by
  induction c generalizing arrived with
  | nil => simp [advance] at h
  | cons frame outer ih =>
    obtain ⟨pf, po⟩ := List.forall_mem_cons.mp proper
    rcases List.mem_append.mp h with h | h
    · obtain ⟨e, he, rfl⟩ := List.mem_map.mp h
      obtain ⟨hi, hr⟩ := hG.isProper_of_mem_enter pf he
      exact List.forall_mem_append.mpr ⟨hi, List.forall_mem_cons.mpr ⟨hr, po⟩⟩
    · obtain ⟨bs, -, h⟩ := List.mem_flatMap.mp h
      exact ih po h

/-- One token: a configuration becomes what its successors become. -/
theorem completes_cons_iff (hG : G.Layered blank rank) {c : Configuration κ τ ρ}
    (arrived : Unit → List (Derivation τ ρ)) (proper : Configuration.IsProper blank c) :
    Configuration.Completes kind G.form c (arrived ()) (token :: ts) out ↔
      ∃ next ∈ G.advance kind token arrived c,
        Configuration.Completes kind G.form next [] ts out := by
  induction c generalizing arrived with
  | nil => simp [Configuration.Completes, advance]
  | cons frame outer ih =>
    obtain ⟨pf, po⟩ := List.forall_mem_cons.mp proper
    constructor
    · rintro ⟨ds, ts₁, ts₂, ht, hm, hc⟩
      cases ts₁ with
      | nil =>
        cases ht
        obtain ⟨next, hn, hc⟩ := (ih (fun _ => [.node frame.rule _]) po).mp hc
        exact ⟨next, List.mem_append_right _ (List.mem_flatMap.mpr
          ⟨ds, (hG.mem_blanks_iff pf).mpr hm, hn⟩), hc⟩
      | cons t us =>
        cases ht
        obtain ⟨e, he, hec⟩ := (hG.matches_cons_iff pf).mp hm
        exact ⟨_, List.mem_append_left _ (List.mem_map.mpr ⟨e, he, rfl⟩),
          completes_entered.mpr ⟨ds, us, ts₂, rfl, hec, hc⟩⟩
    · rintro ⟨next, hn, hc⟩
      rcases List.mem_append.mp hn with hn | hn
      · obtain ⟨e, he, rfl⟩ := List.mem_map.mp hn
        obtain ⟨ds, us, vs, rfl, hec, hc⟩ := completes_entered.mp hc
        exact ⟨ds, token :: us, vs, rfl, matches_of_mem_enter he hec, hc⟩
      · obtain ⟨ds, hds, hn⟩ := List.mem_flatMap.mp hn
        exact ⟨ds, [], token :: ts, rfl, (hG.mem_blanks_iff pf).mp hds, (ih _ po).mpr ⟨next, hn, hc⟩⟩

omit [DecidableEq κ] in
/-- The end of the text: a configuration becomes what it is finished to. -/
theorem mem_finish_iff (hG : G.Layered blank rank) {c : Configuration κ τ ρ}
    {arrived : List (Derivation τ ρ)} {d : Derivation τ ρ}
    (proper : Configuration.IsProper blank c) :
    d ∈ G.finish arrived c ↔
      ∃ out, Configuration.Completes kind G.form c arrived [] out ∧ d ∈ out := by
  induction c generalizing arrived with
  | nil => simp [Configuration.Completes, finish]
  | cons frame outer ih =>
    obtain ⟨pf, po⟩ := List.forall_mem_cons.mp proper
    constructor
    · intro h
      obtain ⟨ds, hds, h⟩ := List.mem_flatMap.mp h
      obtain ⟨out, hc, hd⟩ := (ih po).mp h
      exact ⟨out, ⟨ds, [], [], rfl, (hG.mem_blanks_iff pf).mp hds, hc⟩, hd⟩
    · rintro ⟨out, ⟨ds, ts₁, ts₂, ht, hm, hc⟩, hd⟩
      obtain ⟨rfl, rfl⟩ := List.append_eq_nil_iff.mp ht.symm
      exact List.mem_flatMap.mpr ⟨ds, (hG.mem_blanks_iff pf).mpr hm, (ih po).mpr ⟨out, hc, hd⟩⟩

/-- One token, for all configurations side by side. -/
theorem completes_step_iff (hG : G.Layered blank rank) {cs : List (Configuration κ τ ρ)}
    (proper : ∀ c ∈ cs, Configuration.IsProper blank c) :
    (∃ c ∈ cs, Configuration.Completes kind G.form c [] (token :: ts) out) ↔
      ∃ next ∈ cs.flatMap (G.advance kind token fun _ => []),
        Configuration.Completes kind G.form next [] ts out := by
  constructor
  · rintro ⟨c, hc, h⟩
    obtain ⟨next, hn, h⟩ := (hG.completes_cons_iff (fun _ => []) (proper c hc)).mp h
    exact ⟨next, List.mem_flatMap.mpr ⟨c, hc, hn⟩, h⟩
  · rintro ⟨next, hn, h⟩
    obtain ⟨c, hc, hn⟩ := List.mem_flatMap.mp hn
    exact ⟨c, hc, (hG.completes_cons_iff (fun _ => []) (proper c hc)).mpr ⟨next, hn, h⟩⟩

theorem isProper_step (hG : G.Layered blank rank) {cs : List (Configuration κ τ ρ)}
    (proper : ∀ c ∈ cs, Configuration.IsProper blank c) :
    ∀ next ∈ cs.flatMap (G.advance kind token fun _ => []), Configuration.IsProper blank next := by
  intro next hn
  obtain ⟨c, hc, hn⟩ := List.mem_flatMap.mp hn
  exact hG.isProper_of_mem_advance (proper c hc) hn

/-- A run keeps what its configurations may become. -/
theorem run_ok (hG : G.Layered blank rank) {cs last : List (Configuration κ τ ρ)}
    (proper : ∀ c ∈ cs, Configuration.IsProper blank c) (h : G.run kind cs ts = .ok last) :
    (∀ c ∈ last, Configuration.IsProper blank c) ∧ ∀ us out,
      (∃ c ∈ cs, Configuration.Completes kind G.form c [] (ts ++ us) out) ↔
        ∃ c ∈ last, Configuration.Completes kind G.form c [] us out := by
  induction ts generalizing cs with
  | nil =>
    cases h
    exact ⟨proper, fun us out => Iff.rfl⟩
  | cons token ts ih =>
    unfold run at h
    split at h
    next => cases h
    next =>
      obtain ⟨hp, hi⟩ := ih (hG.isProper_step proper) h
      exact ⟨hp, fun us out => (hG.completes_step_iff proper).trans (hi us out)⟩

/-- A run stops at a token after which nothing can be completed. -/
theorem run_error (hG : G.Layered blank rank) {cs : List (Configuration κ τ ρ)}
    (proper : ∀ c ∈ cs, Configuration.IsProper blank c) (h : G.run kind cs ts = .error token) :
    ∃ pre post before, ts = pre ++ token :: post ∧ G.run kind cs pre = .ok before ∧
      ∀ c ∈ cs, ∀ us out, ¬Configuration.Completes kind G.form c [] (pre ++ token :: us) out := by
  induction ts generalizing cs with
  | nil => cases h
  | cons t ts ih =>
    unfold run at h
    split at h
    next hn =>
      cases h
      refine ⟨[], ts, cs, rfl, rfl, fun c hc us out hcomp => ?_⟩
      obtain ⟨next, hmem, -⟩ := (hG.completes_step_iff proper).mp ⟨c, hc, hcomp⟩
      simp [hn] at hmem
    next hn =>
      obtain ⟨pre, post, before, rfl, hrun, hno⟩ := ih (hG.isProper_step proper) h
      refine ⟨t :: pre, post, before, rfl, ?_, fun c hc us out hcomp => ?_⟩
      · unfold run
        split
        next he => exact absurd he hn
        next => exact hrun
      · obtain ⟨next, hmem, hcomp⟩ := (hG.completes_step_iff proper).mp ⟨c, hc, hcomp⟩
        exact hno next hmem us out hcomp

omit [DecidableEq κ] in
theorem isProper_initial (hG : G.Layered blank rank) :
    ∀ c ∈ (G.initial : List (Configuration κ τ ρ)), Configuration.IsProper blank c := by
  simpa [initial, Configuration.IsProper] using hG.proper_form G.start

omit [DecidableEq κ] in
theorem completes_initial_iff :
    (∃ c ∈ (G.initial : List (Configuration κ τ ρ)),
      Configuration.Completes kind G.form c [] ts out) ↔
      Matches kind G.form (.rule G.start) out ts := by
  simp only [initial, List.mem_singleton, exists_eq_left, Configuration.Completes, matches_rule_iff]
  constructor
  · rintro ⟨ds, ts₁, ts₂, rfl, hm, rfl, rfl⟩
    exact ⟨ds, by simp, by simpa using hm⟩
  · rintro ⟨ds, rfl, hm⟩
    exact ⟨ds, ts, [], by simp, hm, rfl, by simp⟩

/-- The trees at the end of a run are the derivations of its tokens. -/
theorem mem_finish_run_iff (hG : G.Layered blank rank) {last : List (Configuration κ τ ρ)}
    {d : Derivation τ ρ} (h : G.run kind G.initial ts = .ok last) :
    d ∈ last.flatMap (G.finish []) ↔ Derivation.Derives kind G.form G.start ts d := by
  obtain ⟨proper, hrun⟩ := hG.run_ok hG.isProper_initial h
  have hmatch (out : List (Derivation τ ρ)) : Matches kind G.form (.rule G.start) out ts ↔
      ∃ c ∈ last, Configuration.Completes kind G.form c [] [] out := by
    rw [← hrun [] out, List.append_nil, completes_initial_iff]
  rw [derives_iff_matches]
  constructor
  · intro hd
    obtain ⟨c, hc, hd⟩ := List.mem_flatMap.mp hd
    obtain ⟨out, hcomp, hd⟩ : ∃ out, Configuration.Completes kind G.form c [] [] out ∧ d ∈ out :=
      (hG.mem_finish_iff (proper c hc)).mp hd
    have hm := (hmatch out).mpr ⟨c, hc, hcomp⟩
    obtain ⟨ds, rfl, -⟩ := matches_rule_iff.mp hm
    cases List.mem_singleton.mp hd
    exact hm
  · intro hm
    obtain ⟨c, hc, hcomp⟩ := (hmatch [d]).mp hm
    exact List.mem_flatMap.mpr ⟨c, hc, (hG.mem_finish_iff (proper c hc)).mpr
      ⟨[d], hcomp, List.mem_singleton_self d⟩⟩

/-- Nothing that starts like the tokens up to the one where a run stops has a derivation. -/
theorem not_derives_of_run_error (hG : G.Layered blank rank)
    (h : G.run kind G.initial ts = .error token) :
    ∃ pre post before, ts = pre ++ token :: post ∧ G.run kind G.initial pre = .ok before ∧
      ∀ us d, ¬Derivation.Derives kind G.form G.start (pre ++ token :: us) d := by
  obtain ⟨pre, post, before, rfl, hrun, hno⟩ := hG.run_error hG.isProper_initial h
  refine ⟨pre, post, before, rfl, hrun, fun us d hd => ?_⟩
  obtain ⟨c, hc, hcomp⟩ := completes_initial_iff.mpr (derives_iff_matches.mp hd)
  exact hno c hc us [d] hcomp

end Layered
end GrammarDoc.Parsing.Grammar
