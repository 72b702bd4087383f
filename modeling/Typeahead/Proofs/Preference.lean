import Mathlib
import Typeahead.Proofs.Answer
import Typeahead.Proofs.Narrowing

/-!
A case preference only removes. It drops characters of sets and never adds any, so a walk under a preference
enters some of the points that a walk without one enters, fails only where that fails, and finds nothing
else. Whether a completion is valid has nothing to do with the preference.
-/
namespace Typeahead.Completion

variable {chars : Automaton} {preference : Preference} {path : List Nat} {points next : List Point}
  {ws : List Text} {p : Point} {m : Move} {c : CodePoint} {w : Text} {s : Nat}

/-! ### Walks under a preference -/

theorem reads_both_of_reads (h : reads preference m c = true) : reads .both m c = true := by
  rw [reads_both]
  simp only [reads, Bool.and_eq_true] at h
  exact h.1

theorem Spells.both (h : Spells chars preference path s w) : Spells chars .both path s w := by
  induction h with
  | final hs hf => exact .final hs hf
  | silent hs hm _ ih => exact .silent hs hm ih
  | char hs hm hc _ ih => exact .char hs hm (reads_both_of_reads hc) ih

/-- Whether a move can be followed does not depend on the preference. -/
theorem exists_follow_of_both {l : List Point} (h : follow chars .both p m = .ok l)
    (preference : Preference) : ∃ l', follow chars preference p m = .ok l' := by
  cases m with
  | epsilon t => exact ⟨_, rfl⟩
  | atomic label t => exact ⟨l, h⟩
  | set intervals t =>
    simp only [follow] at h ⊢
    split at h
    · obtain ⟨cs, hcs, -⟩ := Outcome.bind_eq_ok.1 h
      rw [hcs]
      exact ⟨_, rfl⟩
    · exact ⟨_, rfl⟩
  | foreign name t => cases h

theorem expand_of_both (h : expand chars .both p = .ok next) (preference : Preference) :
    ∃ next', expand chars preference p = .ok next' ∧ next' ⊆ next := by
  obtain ⟨lists, hl, -⟩ := Outcome.bind_eq_ok.1 h
  obtain ⟨lists', hl'⟩ := Outcome.exists_mapM_eq_ok (f := follow chars preference p) fun m hm => by
    obtain ⟨l, -, hfollow⟩ := (Outcome.mem_of_mapM_eq_ok hl).1 m hm
    exact exists_follow_of_both hfollow preference
  have h' : expand chars preference p = .ok lists'.flatten := by
    rw [expand, hl']
    rfl
  refine ⟨_, h', fun q hq => ?_⟩
  rcases (mem_expand_iff h').1 hq with hsilent | ⟨m, hm, c, hc, hread⟩
  · exact (mem_expand_iff h).2 (Or.inl hsilent)
  · exact (mem_expand_iff h).2 (Or.inr ⟨m, hm, c, reads_both_of_reads hc, hread⟩)

theorem exists_enumerate_of_subset {points' : List Point}
    (h : enumerate chars preference path points = .ok ws) (hsub : points' ⊆ points) :
    ∃ ws', enumerate chars preference path points' = .ok ws' := by
  obtain ⟨hpoints, -⟩ := enumerate_eq_ok_iff.1 h
  exact ⟨_, enumerate_eq_ok_iff.2 ⟨fun p hp => hpoints p (hsub hp), rfl⟩⟩

/-- A walk that does not fail without a preference does not fail under one. -/
theorem exists_enumerate_of_both (h : enumerate chars .both path points = .ok ws)
    (preference : Preference) : ∃ ws', enumerate chars preference path points = .ok ws' := by
  fun_induction enumerate chars .both path points generalizing ws with
  | case1 path => exact ⟨[], by rw [enumerate]⟩
  | case2 path p points hp ih =>
    rw [enumerate_of_mem (by simpa using hp)]
    exact ih h
  | case3 path p points hp fault he => cases h
  | case4 path p points hp next he ihin ihrest =>
    obtain ⟨inner, hin, h⟩ := Outcome.bind_eq_ok.1 h
    obtain ⟨others, ho, -⟩ := Outcome.bind_eq_ok.1 h
    obtain ⟨next', he', hsub⟩ := expand_of_both he preference
    obtain ⟨inner', hin'⟩ := ihin hin
    obtain ⟨inner'', hin''⟩ := exists_enumerate_of_subset hin' hsub
    obtain ⟨others', ho'⟩ := ihrest ho
    rw [enumerate_of_ok (by simpa using hp) he', hin'', ho']
    exact ⟨_, rfl⟩

theorem exists_words_of_both {task : Task} {kinds : List Int}
    (h : words { task with preference := .both } kinds = .ok ws) :
    ∃ ws', words task kinds = .ok ws' := by
  induction kinds generalizing ws with
  | nil => exact ⟨[], rfl⟩
  | cons kind kinds ih =>
    simp only [words] at h ⊢
    cases hentry : task.entry kind with
    | none =>
      simp only [hentry] at h
      exact ih h
    | some entry =>
      simp only [hentry] at h
      obtain ⟨first, hfirst, h⟩ := Outcome.bind_eq_ok.1 h
      obtain ⟨others, ho, -⟩ := Outcome.bind_eq_ok.1 h
      obtain ⟨first', hfirst'⟩ := exists_enumerate_of_both hfirst task.preference
      obtain ⟨others', ho'⟩ := ih ho
      simp only [hfirst', ho']
      exact ⟨_, rfl⟩

/-- The words of some kinds under a preference are words without one. -/
theorem words_subset {task : Task} {kinds : List Int} {ws' : List Text}
    (h : words { task with preference := .both } kinds = .ok ws) (h' : words task kinds = .ok ws') :
    ws' ⊆ ws := by
  intro w hw
  obtain ⟨hne, hagree, kind, hkind, entry, hentry, hspells⟩ := (mem_words_iff h').1 hw
  exact (mem_words_iff h).2 ⟨hne, hagree, kind, hkind, entry, hentry, hspells.both⟩

end Typeahead.Completion

namespace Typeahead.Suggester

variable {s : Suggester} {text label : Text} {t : Tokenization} {l : List Text}

/-! ### Suggestions under a preference -/

/-- What is offered under a preference is offered without one. -/
theorem offers_of_both {request : Request} {f : Nat} {ws : List Text}
    (hb : Preference.ofLabel s.label = .both) (h : s.offers request f = .ok ws) (label : Text) :
    ∃ ws', { s with label }.offers request f = .ok ws' ∧ ws' ⊆ ws := by
  obtain ⟨kinds, hk, hwords⟩ := Outcome.bind_eq_ok.1 h
  have htask : s.task request = { { s with label }.task request with preference := .both } := by
    simp only [task, hb]
  rw [htask] at hwords
  obtain ⟨ws', hws'⟩ := Completion.exists_words_of_both hwords
  exact ⟨ws', Outcome.bind_eq_ok.2 ⟨kinds, hk, hws'⟩, Completion.words_subset hwords hws'⟩

theorem offered_subset (hb : Preference.ofLabel s.label = .both) {request : Request} {f : Nat}
    (h : s.offers request f = .ok (s.offered request f)) (label : Text) :
    { s with label }.offers request f = .ok ({ s with label }.offered request f) ∧
      { s with label }.offered request f ⊆ s.offered request f := by
  obtain ⟨ws', hws', hsub⟩ := offers_of_both hb h label
  rw [offered_of_offers hws']
  exact ⟨hws', hsub⟩

/-- Nothing stands in the way of an answer under a preference that does not without one. -/
theorem Answerable.withLabel (hb : Preference.ofLabel s.label = .both) (h : s.Answerable text t)
    (label : Text) : { s with label }.Answerable text t where
  walked := h.walked
  offers f hf := (offered_subset hb (h.offers f hf) label).1
  decides f hf w hw := h.decides f hf w ((offered_subset hb (h.offers f hf) label).2 hw)

/-- If there are suggestions without a case preference then there are suggestions under every preference,
and these are among those. -/
theorem preference_only_removes (hb : Preference.ofLabel s.label = .both)
    (hd : s.recognizer.tokens.DistinctIds) (h : (s.suggest text).outcome = .ok l) (label : Text) :
    ∃ l', ({ s with label }.suggest text).outcome = .ok l' ∧ l' ⊆ l := by
  obtain ⟨t, ht, -⟩ := suggest_eq_ok h
  have hanswer := answerable_of_suggest hd ht h
  obtain ⟨l', hl'⟩ := (hanswer.withLabel hb label).exists_suggest ht
  refine ⟨l', hl', fun c hc => ?_⟩
  obtain ⟨f, hf, w, hw, htail, hadmits⟩ := (mem_suggest_iff (s := { s with label }) ht hl').1 hc
  exact (mem_suggest_iff ht h).2
    ⟨f, hf, w, (offered_subset hb (hanswer.offers f hf) label).2 hw, htail, hadmits⟩

/-- One rule, for `x` in either case. -/
def eitherCase : Suggester :=
  plain ⟨#[⟨0, [.set [⟨88, 89⟩, ⟨120, 121⟩] 1]⟩, ⟨1, []⟩]⟩ ⟨#[⟨0, [.atomic 1 1]⟩, ⟨1, []⟩]⟩
    [⟨1, "X", 0, 0⟩]

theorem lower_removes_capital :
    (eitherCase.suggest []).outcome = .ok [['X'], ['x']] ∧
      ∃ l : List Text, ({ eitherCase with label := "LOWER" }.suggest []).outcome = .ok l ∧
        l ⊆ [['X'], ['x']] := by
  have h : (eitherCase.suggest []).outcome = .ok [['X'], ['x']] := by
    cbv
  have hd : eitherCase.recognizer.tokens.DistinctIds :=
    Automaton.distinctIds_of_closed (by decide) (by decide)
  exact ⟨h, preference_only_removes (by decide) hd h _⟩

end Typeahead.Suggester
