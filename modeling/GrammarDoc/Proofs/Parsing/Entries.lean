import GrammarDoc.Proofs.Parsing.Layers

namespace GrammarDoc.Parsing

variable {κ τ ρ : Type} {kind : τ → κ} {form : ρ → Form κ ρ} {blank : ρ → Bool}

/-- The trees that some nodes under construction may become, given what has just been finished below
them and the tokens that are left. -/
def Configuration.Completes (kind : τ → κ) (form : ρ → Form κ ρ) :
    Configuration κ τ ρ → List (Derivation τ ρ) → List τ → List (Derivation τ ρ) → Prop
  | [], arrived, ts, out => ts = [] ∧ out = arrived
  | frame :: outer, arrived, ts, out => ∃ ds ts₁ ts₂, ts = ts₁ ++ ts₂ ∧
      Matches kind form frame.rest ds ts₁ ∧
      Completes kind form outer [.node frame.rule ((arrived ++ frame.done).reverse ++ ds)] ts₂ out

/-- The rows of trees that an entry may become, given the tokens that are left. -/
def Entry.Completes (kind : τ → κ) (form : ρ → Form κ ρ) (e : Entry κ τ ρ) (ts : List τ)
    (ds : List (Derivation τ ρ)) : Prop :=
  ∃ arrived after ts₁ ts₂, ts = ts₁ ++ ts₂ ∧
    Configuration.Completes kind form e.inner [] ts₁ arrived ∧
    Matches kind form e.rest after ts₂ ∧ ds = (arrived ++ e.done).reverse ++ after

/-- What is left of every node under construction is proper. -/
def Configuration.IsProper (blank : ρ → Bool) (c : Configuration κ τ ρ) : Prop :=
  ∀ frame ∈ c, frame.rest.isProper blank = true

theorem completes_append {c c' : Configuration κ τ ρ} {arrived out : List (Derivation τ ρ)}
    {ts : List τ} :
    Configuration.Completes kind form (c ++ c') arrived ts out ↔ ∃ mid ts₁ ts₂, ts = ts₁ ++ ts₂ ∧
      Configuration.Completes kind form c arrived ts₁ mid ∧
      Configuration.Completes kind form c' mid ts₂ out := by
  induction c generalizing arrived ts with
  | nil =>
    constructor
    · exact fun h => ⟨arrived, [], ts, rfl, ⟨rfl, rfl⟩, h⟩
    · rintro ⟨mid, ts₁, ts₂, rfl, ⟨rfl, rfl⟩, h⟩
      exact h
  | cons frame outer ih =>
    constructor
    · rintro ⟨ds, ts₁, ts₂, rfl, hm, h⟩
      obtain ⟨mid, us₁, us₂, rfl, h₁, h₂⟩ := ih.mp h
      exact ⟨mid, ts₁ ++ us₁, us₂, by simp, ⟨ds, ts₁, us₁, rfl, hm, h₁⟩, h₂⟩
    · rintro ⟨mid, _, us₂, rfl, ⟨ds, ts₁, us₁, rfl, hm, h₁⟩, h₂⟩
      exact ⟨ds, ts₁, us₁ ++ us₂, by simp, hm, ih.mpr ⟨mid, us₁, us₂, rfl, h₁, h₂⟩⟩

section Entries

variable {token : τ} {f : Form κ ρ} {e : Entry κ τ ρ} {ds : List (Derivation τ ρ)} {ts : List τ}

theorem entry_completes_leaf {shown : Bool} :
    Entry.Completes kind form ⟨[], [.leaf token shown], .empty⟩ ts ds ↔
      ts = [] ∧ ds = [.leaf token shown] := by
  constructor
  · rintro ⟨arrived, after, ts₁, ts₂, rfl, ⟨rfl, rfl⟩, hm, rfl⟩
    obtain ⟨rfl, rfl⟩ := matches_empty_iff.mp hm
    exact ⟨rfl, rfl⟩
  · rintro ⟨rfl, rfl⟩
    exact ⟨[], [], [], [], rfl, ⟨rfl, rfl⟩, .empty, rfl⟩

theorem entry_completes_rule {name : ρ} :
    Entry.Completes kind form ⟨e.inner ++ [⟨name, e.done, e.rest⟩], [], .empty⟩ ts ds ↔
      ∃ es, e.Completes kind form ts es ∧ ds = [.node name es] := by
  constructor
  · rintro ⟨arrived, after, ts₁, ts₂, rfl, h, hm, rfl⟩
    obtain ⟨rfl, rfl⟩ := matches_empty_iff.mp hm
    obtain ⟨mid, us₁, us₂, rfl, hi, es, vs₁, vs₂, rfl, hr, rfl, rfl⟩ := completes_append.mp h
    exact ⟨_, ⟨mid, es, us₁, vs₁, by simp, hi, hr, rfl⟩, rfl⟩
  · rintro ⟨_, ⟨mid, es, us₁, us₂, rfl, hi, hr, rfl⟩, rfl⟩
    refine ⟨[.node name ((mid ++ e.done).reverse ++ es)], [], us₁ ++ us₂, [], by simp,
      completes_append.mpr ?_, .empty, by simp⟩
    exact ⟨mid, us₁, us₂, rfl, hi, es, us₂, [], by simp, hr, rfl, rfl⟩

theorem entry_completes_andThen {g : Form κ ρ} :
    Entry.Completes kind form ⟨e.inner, e.done, e.rest.andThen g⟩ ts ds ↔
      ∃ ds₁ ds₂ ts₁ ts₂, ds = ds₁ ++ ds₂ ∧ ts = ts₁ ++ ts₂ ∧ e.Completes kind form ts₁ ds₁ ∧
        Matches kind form g ds₂ ts₂ := by
  constructor
  · rintro ⟨arrived, after, ts₁, ts₂, rfl, hi, hm, rfl⟩
    obtain ⟨as, bs, us₁, us₂, rfl, rfl, hr, hg⟩ := matches_seq_iff.mp (matches_andThen_iff.mp hm)
    exact ⟨_, bs, ts₁ ++ us₁, us₂, by simp, by simp, ⟨arrived, as, ts₁, us₁, rfl, hi, hr, rfl⟩, hg⟩
  · rintro ⟨_, bs, _, us₂, rfl, rfl, ⟨arrived, as, ts₁, us₁, rfl, hi, hr, rfl⟩, hg⟩
    exact ⟨arrived, as ++ bs, ts₁, us₁ ++ us₂, by simp, hi,
      matches_andThen_iff.mpr (.seq hr hg), by simp⟩

/-- An entry with trees in front of it that cover no token. -/
theorem entry_completes_after {bs : List (Derivation τ ρ)} :
    Entry.Completes kind form ⟨e.inner, e.done ++ bs.reverse, e.rest⟩ ts ds ↔
      ∃ es, e.Completes kind form ts es ∧ ds = bs ++ es := by
  constructor
  · rintro ⟨arrived, after, ts₁, ts₂, rfl, hi, hm, rfl⟩
    exact ⟨_, ⟨arrived, after, ts₁, ts₂, rfl, hi, hm, rfl⟩, by simp⟩
  · rintro ⟨_, ⟨arrived, after, ts₁, ts₂, rfl, hi, hm, rfl⟩, rfl⟩
    exact ⟨arrived, after, ts₁, ts₂, rfl, hi, hm, by simp⟩

/-- A configuration whose innermost node has just been entered. -/
theorem completes_entered {name : ρ} {done : List (Derivation τ ρ)} {outer : Configuration κ τ ρ} :
    Configuration.Completes kind form (e.inner ++ ⟨name, e.done ++ done, e.rest⟩ :: outer) [] ts out ↔
      ∃ ds us vs, ts = us ++ vs ∧ e.Completes kind form us ds ∧
        Configuration.Completes kind form outer [.node name (done.reverse ++ ds)] vs out := by
  rw [completes_append]
  constructor
  · rintro ⟨mid, us, _, rfl, hi, after, vs, ws, rfl, hm, hc⟩
    exact ⟨_, us ++ vs, ws, by simp, ⟨mid, after, us, vs, rfl, hi, hm, rfl⟩, by simpa using hc⟩
  · rintro ⟨_, _, ws, rfl, ⟨mid, after, us, vs, rfl, hi, hm, rfl⟩, hc⟩
    exact ⟨mid, us, vs ++ ws, by simp, hi, after, vs, ws, rfl, hm, by simpa using hc⟩

variable [DecidableEq κ] {trees : ρ → List (Derivation τ ρ)} {enter : ρ → List (Entry κ τ ρ)}

/-- What an entry of a form becomes matches the form, token included. -/
theorem matches_of_mem_entries
    (soundTrees : ∀ name, ∀ d ∈ trees name, Matches kind form (.rule name) [d] [])
    (soundEnter : ∀ name, ∀ e ∈ enter name, ∀ ds ts, e.Completes kind form ts ds →
      Matches kind form (form name) ds (token :: ts))
    (he : e ∈ entries kind token trees enter f) (h : e.Completes kind form ts ds) :
    Matches kind form f ds (token :: ts) := by
  induction f generalizing e ds ts with
  | empty => simp [entries] at he
  | shown k =>
    simp only [entries] at he
    split at he
    next hk =>
      cases List.mem_singleton.mp he
      obtain ⟨rfl, rfl⟩ := entry_completes_leaf.mp h
      exact hk ▸ .shown token
    next => simp at he
  | hidden k =>
    simp only [entries] at he
    split at he
    next hk =>
      cases List.mem_singleton.mp he
      obtain ⟨rfl, rfl⟩ := entry_completes_leaf.mp h
      exact hk ▸ .hidden token
    next => simp at he
  | rule name =>
    obtain ⟨e', he', rfl⟩ := List.mem_map.mp he
    obtain ⟨es, h', rfl⟩ := entry_completes_rule.mp h
    exact .rule (soundEnter name e' he' es ts h')
  | seq f g ihf ihg =>
    rcases List.mem_append.mp he with he | he
    · obtain ⟨e', he', rfl⟩ := List.mem_map.mp he
      obtain ⟨ds₁, ds₂, ts₁, ts₂, rfl, rfl, h', hg⟩ := entry_completes_andThen.mp h
      exact .seq (ihf he' h') hg
    · obtain ⟨bs, hbs, he⟩ := List.mem_flatMap.mp he
      obtain ⟨e', he', rfl⟩ := List.mem_map.mp he
      obtain ⟨es, h', rfl⟩ := entry_completes_after.mp h
      exact .seq (matches_of_mem_emptyMatches soundTrees hbs) (ihg he' h')
  | alt f g ihf ihg =>
    rcases List.mem_append.mp he with he | he
    · exact .altLeft (ihf he h)
    · exact .altRight (ihg he h)
  | many f ih =>
    obtain ⟨e', he', rfl⟩ := List.mem_map.mp he
    obtain ⟨ds₁, ds₂, ts₁, ts₂, rfl, rfl, h', hm⟩ := entry_completes_andThen.mp h
    exact .manyCons (ih he' h') hm

/-- Every match that starts with the token goes through an entry. -/
theorem exists_mem_entries (hb : ∀ name, (form name).isBlank blank = true → blank name = true)
    (completeTrees : ∀ corner ∈ f.corners blank, ∀ d,
      Matches kind form (.rule corner) [d] [] → d ∈ trees corner)
    (completeEnter : ∀ corner ∈ f.corners blank, ∀ ds ts,
      Matches kind form (form corner) ds (token :: ts) →
      ∃ e ∈ enter corner, e.Completes kind form ts ds)
    (proper : f.isProper blank = true) (h : Matches kind form f ds (token :: ts)) :
    ∃ e ∈ entries kind token trees enter f, e.Completes kind form ts ds := by
  induction f generalizing ds ts with
  | empty => simp at h
  | shown k =>
    obtain ⟨_, hk, rfl, he⟩ := matches_shown_iff.mp h
    cases he
    exact ⟨_, by simp [entries, hk], entry_completes_leaf.mpr ⟨rfl, rfl⟩⟩
  | hidden k =>
    obtain ⟨_, hk, rfl, he⟩ := matches_hidden_iff.mp h
    cases he
    exact ⟨_, by simp [entries, hk], entry_completes_leaf.mpr ⟨rfl, rfl⟩⟩
  | rule name =>
    obtain ⟨es, rfl, hm⟩ := matches_rule_iff.mp h
    obtain ⟨e, he, hc⟩ := completeEnter name (by simp [Form.corners]) es ts hm
    exact ⟨_, List.mem_map.mpr ⟨e, he, rfl⟩, entry_completes_rule.mpr ⟨es, hc, rfl⟩⟩
  | seq f g ihf ihg =>
    obtain ⟨pf, pg⟩ := Bool.and_eq_true_iff.mp proper
    have inLeft : ∀ corner ∈ f.corners blank, corner ∈ (Form.seq f g).corners blank :=
      fun corner hc => List.mem_append_left _ hc
    rcases matches_seq_cons hb h with
      ⟨ds₁, ds₂, us, ts₂, rfl, rfl, hf, hg⟩ | ⟨ds₁, ds₂, rfl, hblank, hf, hg⟩
    · obtain ⟨e, he, hc⟩ := ihf (fun corner hm => completeTrees corner (inLeft corner hm))
        (fun corner hm => completeEnter corner (inLeft corner hm)) pf hf
      exact ⟨_, List.mem_append_left _ (List.mem_map.mpr ⟨e, he, rfl⟩),
        entry_completes_andThen.mpr ⟨ds₁, ds₂, us, ts₂, rfl, rfl, hc, hg⟩⟩
    · have inRight : ∀ corner ∈ g.corners blank, corner ∈ (Form.seq f g).corners blank := by
        intro corner hc
        simp [Form.corners, hblank, hc]
      obtain ⟨e, he, hc⟩ := ihg (fun corner hm => completeTrees corner (inRight corner hm))
        (fun corner hm => completeEnter corner (inRight corner hm)) pg hg
      have hbs : ds₁ ∈ emptyMatches trees f := mem_emptyMatches_of_matches hb
        (fun corner hm => completeTrees corner (inLeft corner hm)) pf hf
      exact ⟨_, List.mem_append_right _ (List.mem_flatMap.mpr
        ⟨ds₁, hbs, List.mem_map.mpr ⟨e, he, rfl⟩⟩), entry_completes_after.mpr ⟨ds₂, hc, rfl⟩⟩
  | alt f g ihf ihg =>
    obtain ⟨pf, pg⟩ := Bool.and_eq_true_iff.mp proper
    rcases matches_alt_iff.mp h with h | h
    · obtain ⟨e, he, hc⟩ := ihf
        (fun corner hm => completeTrees corner (List.mem_append_left _ hm))
        (fun corner hm => completeEnter corner (List.mem_append_left _ hm)) pf h
      exact ⟨e, List.mem_append_left _ he, hc⟩
    · obtain ⟨e, he, hc⟩ := ihg
        (fun corner hm => completeTrees corner (List.mem_append_right _ hm))
        (fun corner hm => completeEnter corner (List.mem_append_right _ hm)) pg h
      exact ⟨e, List.mem_append_right _ he, hc⟩
  | many f ih =>
    obtain ⟨ds₁, ds₂, us, ts₂, rfl, rfl, hf, hm⟩ := matches_many_cons hb proper h
    obtain ⟨e, he, hc⟩ := ih completeTrees completeEnter (Bool.and_eq_true_iff.mp proper).1 hf
    exact ⟨_, List.mem_map.mpr ⟨e, he, rfl⟩,
      entry_completes_andThen.mpr ⟨ds₁, ds₂, us, ts₂, rfl, rfl, hc, hm⟩⟩

theorem isProper_of_mem_entries
    (properEnter : ∀ name, ∀ e ∈ enter name,
      Configuration.IsProper blank e.inner ∧ e.rest.isProper blank = true)
    (proper : f.isProper blank = true) (he : e ∈ entries kind token trees enter f) :
    Configuration.IsProper blank e.inner ∧ e.rest.isProper blank = true := by
  induction f generalizing e with
  | empty => simp [entries] at he
  | shown k =>
    simp only [entries] at he
    split at he
    next =>
      cases List.mem_singleton.mp he
      exact ⟨by simp [Configuration.IsProper], rfl⟩
    next => simp at he
  | hidden k =>
    simp only [entries] at he
    split at he
    next =>
      cases List.mem_singleton.mp he
      exact ⟨by simp [Configuration.IsProper], rfl⟩
    next => simp at he
  | rule name =>
    obtain ⟨e', he', rfl⟩ := List.mem_map.mp he
    obtain ⟨hi, hr⟩ := properEnter name e' he'
    exact ⟨List.forall_mem_append.mpr ⟨hi, by simpa using hr⟩, rfl⟩
  | seq f g ihf ihg =>
    obtain ⟨pf, pg⟩ := Bool.and_eq_true_iff.mp proper
    rcases List.mem_append.mp he with he | he
    · obtain ⟨e', he', rfl⟩ := List.mem_map.mp he
      obtain ⟨hi, hr⟩ := ihf pf he'
      exact ⟨hi, Form.isProper_andThen hr pg⟩
    · obtain ⟨bs, -, he⟩ := List.mem_flatMap.mp he
      obtain ⟨e', he', rfl⟩ := List.mem_map.mp he
      have h := ihg pg he'
      exact h
  | alt f g ihf ihg =>
    obtain ⟨pf, pg⟩ := Bool.and_eq_true_iff.mp proper
    rcases List.mem_append.mp he with he | he
    · exact ihf pf he
    · exact ihg pg he
  | many f ih =>
    obtain ⟨e', he', rfl⟩ := List.mem_map.mp he
    obtain ⟨hi, hr⟩ := ih (Bool.and_eq_true_iff.mp proper).1 he'
    exact ⟨hi, Form.isProper_andThen hr proper⟩

end Entries
end GrammarDoc.Parsing
