import Typeahead.Proofs.Admission
import Typeahead.Proofs.Expected

/-!
When a suggester has an answer. The frontier search has to end well, what is offered at each frontier state
has to be known, and it has to be possible to decide of every completion offered there whether it is valid.
Under distinct identifiers this is needed, too: a completion that was not looked at again was collected
before, and then its kind can be tested at every frontier state.
-/
namespace Typeahead

/-- Only tokens that have a kind are accepted. -/
theorem Automaton.kind_of_accepts {a : Automaton} {s : Nat} {kind : Option Int}
    (h : a.accepts s kind = .ok true) : ∃ k, kind = some k := by
  cases kind with
  | some k => exact ⟨k, rfl⟩
  | none =>
    suffices hno : ∀ followed stack, a.acceptsFrom none followed stack ≠ .ok true from
      absurd h (hno _ _)
    intro followed stack
    fun_induction acceptsFrom a none followed stack with
    | case1 => simp
    | case2 => simp
    | case3 followed s stack m hfind hob =>
      have := List.find?_some hfind
      simp [settles, hob, Move.takes] at this
    | case4 followed s stack hfind next ih => exact ih

namespace Suggester

variable {s : Suggester} {request : Request} {memory memory' : Memory} {f : Nat} {c text : Text}
  {t : Tokenization}

/-- It can be decided whether a completion is valid at a frontier state: the token that it adds can be
found out, and the kind of that token can be tested. -/
def Decides (s : Suggester) (request : Request) (f : Nat) (c : Text) : Prop :=
  ∃ token, s.addedToken request c = .ok token ∧
    ∀ t, token = some t → ∃ b, s.recognizer.tokens.accepts f t.kind = .ok b

/-- Nothing stands in the way of an answer for a text that is divided into tokens. -/
structure Answerable (s : Suggester) (text : Text) (t : Tokenization) : Prop where
  walked : (s.frontier t.tokens).fault = none
  offers : ∀ f ∈ (s.frontier t.tokens).search.found,
    s.offers (.of text t) f = .ok (s.offered (.of text t) f)
  decides : ∀ f ∈ (s.frontier t.tokens).search.found, ∀ w ∈ s.offered (.of text t) f,
    s.Decides (.of text t) f (Completion.tail t.rest w)

/-! ### That there is an answer -/

theorem exists_remember (hm : memory.Faithful s request) {token : Option Token}
    (h : s.addedToken request c = .ok token) :
    ∃ memory', s.remember request memory c = .ok (token, memory') := by
  cases hc : memory.added[c]? with
  | none =>
    refine ⟨{ memory with added := memory.added.insert c token }, ?_⟩
    rw [remember, hc, h]
    rfl
  | some token' =>
    rw [hm c token' hc] at h
    cases h
    exact ⟨memory, by rw [remember, hc]⟩

theorem exists_consider (hm : memory.Faithful s request) (h : s.Decides request f c) :
    ∃ memory', (s.consider request f memory c).outcome = .ok memory' := by
  obtain ⟨token, htoken, htest⟩ := h
  obtain ⟨memory', hr⟩ := exists_remember hm htoken
  rw [consider]
  split
  · exact ⟨memory, rfl⟩
  · rw [Traced.outcome_bind, Traced.outcome_lift]
    apply Outcome.exists_bind_eq_ok hr
    cases token with
    | none => exact ⟨_, rfl⟩
    | some t =>
      obtain ⟨b, hb⟩ := htest t rfl
      simp only [Traced.outcome_bind, Traced.outcome_lift]
      apply Outcome.exists_bind_eq_ok hb
      cases b <;> exact ⟨_, rfl⟩

theorem exists_considerAll {cs : List Text} (hm : memory.Faithful s request)
    (h : ∀ c ∈ cs, s.Decides request f c) :
    ∃ memory', (s.considerAll request f memory cs).outcome = .ok memory' := by
  induction cs generalizing memory with
  | nil => exact ⟨memory, rfl⟩
  | cons c cs ih =>
    obtain ⟨memory', hc⟩ := exists_consider hm (h c List.mem_cons_self)
    rw [considerAll, Traced.outcome_bind]
    exact Outcome.exists_bind_eq_ok hc
      (ih (consider_eq_ok hm hc).1 fun d hd => h d (List.mem_cons_of_mem c hd))

theorem exists_suggestFrom (hm : memory.Faithful s request)
    (ho : s.offers request f = .ok (s.offered request f))
    (h : ∀ w ∈ s.offered request f, s.Decides request f (Completion.tail request.rest w)) :
    ∃ memory', (s.suggestFrom request memory f).outcome = .ok memory' := by
  rw [outcome_suggestFrom ho]
  apply exists_considerAll hm
  intro c hc
  obtain ⟨w, hw, rfl⟩ := List.mem_map.1 (List.mem_eraseDups.1 hc)
  exact h w hw

theorem exists_foldlM_suggestFrom {fs : List Nat} (hm : memory.Faithful s request)
    (ho : ∀ f ∈ fs, s.offers request f = .ok (s.offered request f))
    (h : ∀ f ∈ fs, ∀ w ∈ s.offered request f,
      s.Decides request f (Completion.tail request.rest w)) :
    ∃ memory', (fs.foldlM (s.suggestFrom request) memory).outcome = .ok memory' := by
  induction fs generalizing memory with
  | nil => exact ⟨memory, rfl⟩
  | cons f fs ih =>
    obtain ⟨memory', hf⟩ :=
      exists_suggestFrom hm (ho f List.mem_cons_self) (h f List.mem_cons_self)
    rw [List.foldlM_cons, Traced.outcome_bind]
    exact Outcome.exists_bind_eq_ok hf (ih (suggestFrom_eq_ok hm hf).2.1
      (fun g hg => ho g (List.mem_cons_of_mem f hg)) fun g hg => h g (List.mem_cons_of_mem f hg))

theorem Answerable.exists_suggest (h : s.Answerable text t) (ht : s.tokenize text = .ok t) :
    ∃ l, (s.suggest text).outcome = .ok l := by
  obtain ⟨memory, hvisit⟩ :=
    exists_foldlM_suggestFrom (faithful_empty s (.of text t)) h.offers h.decides
  exact ⟨_, suggest_eq_ok_iff.2 ⟨t, memory, ht, h.walked, hvisit, rfl⟩⟩

/-! ### What an answer needs -/

/-- A completion that was considered is collected, or its validity was decided. -/
theorem collected_or_decides (hm : memory.Faithful s request)
    (h : (s.consider request f memory c).outcome = .ok memory') :
    c ∈ memory'.collected.toList ∨ s.Decides request f c := by
  simp only [consider] at h
  split at h
  · rename_i hc
    cases h
    exact Or.inl (Roster.contains_iff.1 hc)
  · simp only [Traced.outcome_bind, Traced.outcome_lift] at h
    obtain ⟨⟨token, memory₁⟩, hr, h⟩ := Outcome.bind_eq_ok.1 h
    obtain ⟨htoken, -, -⟩ := remember_eq_ok hm hr
    refine Or.inr ⟨token, htoken, fun t ht => ?_⟩
    subst ht
    simp only [Traced.outcome_bind, Traced.outcome_lift] at h
    obtain ⟨b, hb, -⟩ := Outcome.bind_eq_ok.1 h
    exact ⟨b, hb⟩

theorem considerAll_decides {cs : List Text} (hm : memory.Faithful s request)
    (h : (s.considerAll request f memory cs).outcome = .ok memory') (hc : c ∈ cs) :
    c ∈ memory'.collected.toList ∨ s.Decides request f c := by
  induction cs generalizing memory with
  | nil => simp at hc
  | cons d cs ih =>
    simp only [considerAll, Traced.outcome_bind] at h
    obtain ⟨memory₁, hd, hrest⟩ := Outcome.bind_eq_ok.1 h
    have hm₁ := (consider_eq_ok hm hd).1
    rcases List.mem_cons.1 hc with rfl | hc
    · refine (collected_or_decides hm hd).imp_left fun hmem => ?_
      rw [(considerAll_eq_ok hm₁ hrest).2]
      exact Roster.mem_toList_insertAll.2 (Or.inl hmem)
    · exact ih hm₁ hrest hc

theorem suggestFrom_decides (hm : memory.Faithful s request)
    (h : (s.suggestFrom request memory f).outcome = .ok memory') {w : Text}
    (hw : w ∈ s.offered request f) :
    Completion.tail request.rest w ∈ memory'.collected.toList ∨
      s.Decides request f (Completion.tail request.rest w) := by
  rw [outcome_suggestFrom (offers_of_suggestFrom h)] at h
  exact considerAll_decides hm h (List.mem_eraseDups.2 (List.mem_map_of_mem hw))

theorem foldlM_suggestFrom_decides {fs : List Nat} (hm : memory.Faithful s request)
    (h : (fs.foldlM (s.suggestFrom request) memory).outcome = .ok memory') (hf : f ∈ fs) {w : Text}
    (hw : w ∈ s.offered request f) :
    Completion.tail request.rest w ∈ memory'.collected.toList ∨
      s.Decides request f (Completion.tail request.rest w) := by
  induction fs generalizing memory with
  | nil => simp at hf
  | cons g fs ih =>
    rw [List.foldlM_cons, Traced.outcome_bind] at h
    obtain ⟨memory₁, hg, hrest⟩ := Outcome.bind_eq_ok.1 h
    obtain ⟨-, hm₁, -⟩ := suggestFrom_eq_ok hm hg
    rcases List.mem_cons.1 hf with rfl | hf
    · refine (suggestFrom_decides hm hg hw).imp_left fun hmem => ?_
      rw [(foldlM_suggestFrom_eq_ok hm₁ hrest).2]
      exact Roster.mem_toList_insertAll.2 (Or.inl hmem)
    · exact ih hm₁ hrest hf

/-- Whatever is offered where there is an answer is suggested, or its validity was decided. -/
theorem suggested_or_decides {l : List Text} (ht : s.tokenize text = .ok t)
    (h : (s.suggest text).outcome = .ok l) (hf : f ∈ (s.frontier t.tokens).search.found) {w : Text}
    (hw : w ∈ s.offered (.of text t) f) :
    Completion.tail t.rest w ∈ l ∨ s.Decides (.of text t) f (Completion.tail t.rest w) := by
  obtain ⟨t', memory, ht', -, hvisit, rfl⟩ := suggest_eq_ok_iff.1 h
  cases ht.symm.trans ht'
  exact foldlM_suggestFrom_decides (faithful_empty s _) hvisit hf hw

/-- Under distinct identifiers an answer tells that nothing stood in its way. -/
theorem answerable_of_suggest (hd : s.recognizer.tokens.DistinctIds) {l : List Text}
    (ht : s.tokenize text = .ok t) (h : (s.suggest text).outcome = .ok l) :
    s.Answerable text t := by
  obtain ⟨hwalked, hoffers, -⟩ := suggest_of_tokenize ht h
  refine ⟨hwalked, hoffers, fun f hf w hw => ?_⟩
  rcases suggested_or_decides ht h hf hw with hmem | hdecides
  · -- Some frontier state has accepted a token with a kind, and every kind can be tested at `f`.
    obtain ⟨f₀, -, w₀, -, -, hadmits⟩ := (mem_suggest_iff ht h).1 hmem
    obtain ⟨token, htoken, haccepts⟩ := admits_iff.1 hadmits
    obtain ⟨k, hk⟩ := Automaton.kind_of_accepts haccepts
    obtain ⟨kinds, hkinds, -⟩ := Outcome.bind_eq_ok.1 (hoffers f hf)
    refine ⟨some token, htoken, fun t ht => ?_⟩
    cases ht
    rw [hk]
    exact (Automaton.understood_of_expected hd hkinds).exists_accepts k
  · exact hdecides

end Suggester
end Typeahead
