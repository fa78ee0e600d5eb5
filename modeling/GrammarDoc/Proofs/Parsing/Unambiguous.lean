import GrammarDoc.Proofs.Parsing.Lookahead
import GrammarDoc.Proofs.Parsing.Ways

namespace GrammarDoc.Parsing

variable {κ τ ρ : Type}

namespace Grammar.Layered

variable {kind : τ → κ} {G : Grammar κ ρ} {blank : ρ → Bool} {rank : ρ → Nat}
variable {ds : List (Derivation τ ρ)} {token : τ} {ts rest : List τ}

theorem mem_firstTo (hG : G.Layered blank rank) {depth : Nat} {name : ρ}
    (hr : rank name < depth) (h : Matches kind G.form (G.form name) ds (token :: ts)) :
    kind token ∈ G.firstTo blank depth name := by
  induction depth generalizing name ds ts with
  | zero => omega
  | succ depth ih =>
    refine mem_starts_of_matches hG.blank_of_form ?_ (hG.proper_form name) h
    intro corner hc ds ts hm
    have := hG.rank_corner name corner hc
    exact ih (by omega) hm

theorem mem_first (hG : G.Layered blank rank) {name : ρ}
    (h : Matches kind G.form (G.form name) ds (token :: ts)) : kind token ∈ G.first blank name :=
  hG.mem_firstTo (hG.rank_lt_depth name) h

theorem ahead_mem_secondTo (hG : G.Layered blank rank) {depth : Nat} {name : ρ}
    {after : List (Option κ)} (hr : rank name < depth)
    (h : Matches kind G.form (G.form name) ds (token :: ts)) (ha : ahead kind rest ∈ after) :
    ahead kind (ts ++ rest) ∈ G.secondTo blank depth name after := by
  induction depth generalizing name ds ts rest after with
  | zero => omega
  | succ depth ih =>
    refine ahead_mem_seconds hG.blank_of_form (fun _ _ _ _ => hG.mem_first) ?_
      (hG.proper_form name) h ha
    intro corner hc ds ts rest after hm ha
    have := hG.rank_corner name corner hc
    exact ih (by omega) hm ha

theorem ahead_mem_second (hG : G.Layered blank rank) {name : ρ} {after : List (Option κ)}
    (h : Matches kind G.form (G.form name) ds (token :: ts)) (ha : ahead kind rest ∈ after) :
    ahead kind (ts ++ rest) ∈ G.second blank name after :=
  hG.ahead_mem_secondTo (hG.rank_lt_depth name) h ha

end Grammar.Layered

section Deciding

variable [DecidableEq κ] (G : Grammar κ ρ) (blank : ρ → Bool) (follow : ρ → List (Option κ))

/-- Two lists have no member in common. -/
def disjoint (xs ys : List (Option κ)) : Bool :=
  xs.all fun x => !ys.contains x

/-- The first token tells two forms apart, or else the second one does. -/
def Grammar.differ (after : List (Option κ)) (f g : Form κ ρ) : Bool :=
  disjoint (f.next blank (G.first blank) after) (g.next blank (G.first blank) after) ||
    (!f.isBlank blank && !g.isBlank blank &&
      disjoint (f.seconds blank (G.first blank) (G.second blank) after)
        (g.seconds blank (G.first blank) (G.second blank) after))

/-- A form is told apart from each part of a choice. -/
def Grammar.tellsApart (after : List (Option κ)) (f : Form κ ρ) : Form κ ρ → Bool
  | .alt g h => tellsApart after f g && tellsApart after f h
  | g => G.differ blank after f g

/-- Wherever a form leaves a choice, the next two tokens decide it, given what may come after the
form; `follow` says what may come after a rule. -/
def Grammar.decides : List (Option κ) → Form κ ρ → Bool
  | _, .empty => true
  | _, .shown _ => true
  | _, .hidden _ => true
  | after, .rule name => after.all fun x => (follow name).contains x
  | after, .seq f g =>
    decides (g.next blank (G.first blank) after) f && decides after g
  | after, .alt f g => decides after f && decides after g && G.tellsApart blank after f g
  | after, .many f =>
    decides ((Form.many f).next blank (G.first blank) after) f &&
      disjoint ((f.starts blank (G.first blank)).map some) after

end Deciding

section Unique

variable [DecidableEq κ] {kind : τ → κ} {G : Grammar κ ρ} {blank : ρ → Bool} {rank : ρ → Nat}
variable {follow : ρ → List (Option κ)} {after : List (Option κ)} {f g : Form κ ρ}
variable {w v : Way τ ρ} {ds es : List (Derivation τ ρ)} {ts us rest rest' : List τ}

theorem not_mem_of_disjoint {xs ys : List (Option κ)} (h : disjoint xs ys = true)
    {x : Option κ} (hx : x ∈ xs) : x ∉ ys := by
  have hn := List.all_eq_true.mp h x hx
  simpa using hn

omit [DecidableEq κ] in
theorem ahead_next (hG : G.Layered blank rank) (proper : f.isProper blank = true)
    (h : Matches kind G.form f ds ts) (hr : ahead kind rest ∈ after) :
    ahead kind (ts ++ rest) ∈ f.next blank (G.first blank) after :=
  ahead_mem_next hG.blank_of_form (fun _ _ _ _ => hG.mem_first) proper h hr

theorem append_ne_of_differ (hG : G.Layered blank rank)
    (pf : f.isProper blank = true) (pg : g.isProper blank = true)
    (apart : G.differ blank after f g = true)
    (hf : Matches kind G.form f ds ts) (hg : Matches kind G.form g es us)
    (hr : ahead kind rest ∈ after) (hr' : ahead kind rest' ∈ after) : ts ++ rest ≠ us ++ rest' := by
  intro he
  rcases Bool.or_eq_true_iff.mp apart with hd | hd
  · have hn := ahead_next hG pf hf hr
    rw [he] at hn
    exact not_mem_of_disjoint hd hn (ahead_next hG pg hg hr')
  · simp only [Bool.and_eq_true, Bool.not_eq_true'] at hd
    obtain ⟨⟨bf, bg⟩, hd⟩ := hd
    cases ts with
    | nil => simp [hf.isBlank hG.blank_of_form rfl] at bf
    | cons t ts =>
      cases us with
      | nil => simp [hg.isBlank hG.blank_of_form rfl] at bg
      | cons u us =>
        obtain ⟨rfl, htail⟩ : t = u ∧ ts ++ rest = us ++ rest' := by simpa using he
        have hs := ahead_mem_seconds hG.blank_of_form (fun _ _ _ _ => hG.mem_first)
          (fun _ _ _ _ _ _ => hG.ahead_mem_second) pf hf hr
        rw [htail] at hs
        exact not_mem_of_disjoint hd hs
          (ahead_mem_seconds hG.blank_of_form (fun _ _ _ _ => hG.mem_first)
            (fun _ _ _ _ _ _ => hG.ahead_mem_second) pg hg hr')

/-- Forms that are told apart never match the same text. -/
theorem append_ne_of_tellsApart (hG : G.Layered blank rank)
    (pf : f.isProper blank = true) (pg : g.isProper blank = true)
    (apart : G.tellsApart blank after f g = true)
    (hf : Matches kind G.form f ds ts) (hg : Matches kind G.form g es us)
    (hr : ahead kind rest ∈ after) (hr' : ahead kind rest' ∈ after) : ts ++ rest ≠ us ++ rest' := by
  induction g with
  | alt g h ihg ihh =>
    obtain ⟨pg, ph⟩ := Bool.and_eq_true_iff.mp pg
    obtain ⟨ag, ah⟩ := Bool.and_eq_true_iff.mp apart
    rcases matches_alt_iff.mp hg with hg | hg
    · exact ihg pg ag hg
    · exact ihh ph ah hg
  | _ => exact append_ne_of_differ hG pf pg apart hf hg hr hr'

omit [DecidableEq κ] in
/-- A round of a repetition starts with one of its own first tokens. -/
theorem ahead_round (hG : G.Layered blank rank) (proper : (Form.many f).isProper blank = true)
    (h : Matches kind G.form f ds ts) :
    ahead kind (ts ++ rest) ∈ (f.starts blank (G.first blank)).map some := by
  obtain ⟨pf, nonblank⟩ := Bool.and_eq_true_iff.mp proper
  cases ts with
  | nil => simp [h.isBlank hG.blank_of_form rfl] at nonblank
  | cons t ts =>
    exact List.mem_map.mpr ⟨kind t,
      mem_starts_of_matches hG.blank_of_form (fun _ _ _ _ => hG.mem_first) pf h, rfl⟩

/-- Where every choice is decided, a text is taken in one way only. The induction is on the first
way; a rule goes on with all that may follow it anywhere. -/
theorem takes_unique (hG : G.Layered blank rank)
    (hfollow : ∀ name, G.decides blank follow (follow name) (G.form name) = true)
    (hf : Takes kind G.form f w ts) (hg : Takes kind G.form f v us)
    (proper : f.isProper blank = true) (decided : G.decides blank follow after f = true)
    (he : ts ++ rest = us ++ rest')
    (hr : ahead kind rest ∈ after) (hr' : ahead kind rest' ∈ after) : w = v ∧ ts = us := by
  induction hf generalizing after v us rest rest' with
  | empty =>
    cases hg
    exact ⟨rfl, rfl⟩
  | shown token =>
    obtain ⟨_, rfl, rfl⟩ := way_of_takes_shown hg
    cases he
    exact ⟨rfl, rfl⟩
  | hidden token =>
    obtain ⟨_, rfl, rfl⟩ := way_of_takes_hidden hg
    cases he
    exact ⟨rfl, rfl⟩
  | @rule name w ts _ ih =>
    cases hg with
    | rule hin =>
      have sub : ∀ x ∈ after, x ∈ follow name := by
        intro x hx
        simpa using List.all_eq_true.mp decided x hx
      obtain ⟨rfl, rfl⟩ := ih hin (hG.proper_form name) (hfollow name) he (sub _ hr) (sub _ hr')
      exact ⟨rfl, rfl⟩
  | @seq f g w₁ w₂ ts₁ ts₂ _ hm ihf ihg =>
    obtain ⟨pf, pg⟩ := Bool.and_eq_true_iff.mp proper
    obtain ⟨df, dg⟩ := Bool.and_eq_true_iff.mp decided
    cases hg with
    | seq hg₁ hg₂ =>
      rw [List.append_assoc, List.append_assoc] at he
      have hn := ahead_next hG pg hm.matches hr
      have hn' := ahead_next hG pg hg₂.matches hr'
      obtain ⟨rfl, rfl⟩ := ihf hg₁ pf df he hn hn'
      obtain ⟨rfl, rfl⟩ := ihg hg₂ pg dg (List.append_cancel_left he) hr hr'
      exact ⟨rfl, rfl⟩
  | @altLeft f g w ts hm ih =>
    obtain ⟨pf, pg⟩ := Bool.and_eq_true_iff.mp proper
    simp only [Grammar.decides, Bool.and_eq_true] at decided
    obtain ⟨⟨df, -⟩, apart⟩ := decided
    cases hg with
    | altLeft hg =>
      obtain ⟨rfl, rfl⟩ := ih hg pf df he hr hr'
      exact ⟨rfl, rfl⟩
    | altRight hg =>
      exact absurd he (append_ne_of_tellsApart hG pf pg apart hm.matches hg.matches hr hr')
  | @altRight f g w ts hm ih =>
    obtain ⟨pf, pg⟩ := Bool.and_eq_true_iff.mp proper
    simp only [Grammar.decides, Bool.and_eq_true] at decided
    obtain ⟨⟨-, dg⟩, apart⟩ := decided
    cases hg with
    | altLeft hg =>
      exact absurd he.symm (append_ne_of_tellsApart hG pf pg apart hg.matches hm.matches hr' hr)
    | altRight hg =>
      obtain ⟨rfl, rfl⟩ := ih hg pg dg he hr hr'
      exact ⟨rfl, rfl⟩
  | @manyNil f =>
    obtain ⟨df, hd⟩ := Bool.and_eq_true_iff.mp decided
    cases hg with
    | manyNil => exact ⟨rfl, rfl⟩
    | manyCons hg _ =>
      rw [List.nil_append, List.append_assoc] at he
      exact absurd (he ▸ hr) (not_mem_of_disjoint hd (ahead_round hG proper hg.matches))
  | @manyCons f w₁ w₂ ts₁ ts₂ hm₁ hm₂ ihf ihm =>
    obtain ⟨df, hd⟩ := Bool.and_eq_true_iff.mp decided
    cases hg with
    | manyNil =>
      rw [List.nil_append, List.append_assoc] at he
      exact absurd (he ▸ hr') (not_mem_of_disjoint hd (ahead_round hG proper hm₁.matches))
    | manyCons hg₁ hg₂ =>
      rw [List.append_assoc, List.append_assoc] at he
      have pf := (Bool.and_eq_true_iff.mp proper).1
      have hn := ahead_next hG proper hm₂.matches hr
      have hn' := ahead_next hG proper hg₂.matches hr'
      obtain ⟨rfl, rfl⟩ := ihf hg₁ pf df he hn hn'
      obtain ⟨rfl, rfl⟩ := ihm hg₂ proper decided (List.append_cancel_left he) hr hr'
      exact ⟨rfl, rfl⟩

/-- A grammar that decides every choice takes a text in at most one way. -/
theorem way_unique (hG : G.Layered blank rank)
    (hfollow : ∀ name, G.decides blank follow (follow name) (G.form name) = true)
    (hstart : none ∈ follow G.start)
    (hw : Takes kind G.form (.rule G.start) w ts)
    (hv : Takes kind G.form (.rule G.start) v ts) : w = v := by
  cases hw with
  | rule hw =>
    cases hv with
    | rule hv =>
      obtain ⟨rfl, -⟩ := takes_unique hG hfollow hw hv (hG.proper_form _) (hfollow _)
        (rfl : ts ++ [] = ts ++ []) hstart hstart
      rfl

/-- A grammar that decides every choice derives a text in at most one way. -/
theorem derives_unique (hG : G.Layered blank rank)
    (hfollow : ∀ name, G.decides blank follow (follow name) (G.form name) = true)
    (hstart : none ∈ follow G.start) {d e : Derivation τ ρ}
    (hd : Derivation.Derives kind G.form G.start ts d)
    (he : Derivation.Derives kind G.form G.start ts e) : d = e := by
  obtain ⟨w, hw, hd⟩ := (derives_iff_matches.mp hd).exists_takes
  obtain ⟨v, hv, he⟩ := (derives_iff_matches.mp he).exists_takes
  obtain rfl := way_unique hG hfollow hstart hw hv
  exact List.singleton_inj.mp (hd.symm.trans he)

end Unique
end GrammarDoc.Parsing
