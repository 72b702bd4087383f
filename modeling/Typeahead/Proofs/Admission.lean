import Typeahead.Proofs.Enumeration
import Typeahead.Proofs.Occurrence
import Typeahead.Suggest

/-!
What a suggester returns, without its memory. Remembered scans are the scans themselves, so the
suggestions are, frontier state by frontier state, the completions found there that are admitted
there, each at its first occurrence.
-/
namespace Typeahead.Suggester

variable {s : Suggester} {request : Request} {memory memory' : Memory} {f : Nat} {c text : Text}

/-- The tokens that are completed at a frontier state, in order and with repetitions. -/
def offers (s : Suggester) (request : Request) (f : Nat) : Except Fault (List Text) := do
  Completion.words (s.task request) (← s.recognizer.tokens.expected f)

/-- A completion is valid at a frontier state: it adds a token, of a kind that is accepted there. -/
def admits (s : Suggester) (request : Request) (f : Nat) (c : Text) : Bool :=
  match s.addedToken request c with
  | .ok (some token) => (s.recognizer.tokens.accepts f token.kind).toOption == some true
  | _ => false

theorem admits_iff : s.admits request f c = true ↔ ∃ token,
    s.addedToken request c = .ok (some token) ∧
      s.recognizer.tokens.accepts f token.kind = .ok true := by
  simp only [admits]
  split
  · rename_i token h
    cases ha : s.recognizer.tokens.accepts f token.kind with
    | error fault => simp [h, ha, Except.toOption]
    | ok b => simp [h, ha, Except.toOption]
  · rename_i h
    simp only [Bool.false_eq_true, false_iff]
    rintro ⟨token, htoken, -⟩
    exact h token htoken

/-- Every remembered scan is what scanning gives. -/
def Memory.Faithful (s : Suggester) (request : Request) (memory : Memory) : Prop :=
  ∀ c token, memory.added[c]? = some token → s.addedToken request c = .ok token

theorem remember_eq_ok {token : Option Token} (hm : memory.Faithful s request)
    (h : s.remember request memory c = .ok (token, memory')) :
    s.addedToken request c = .ok token ∧ memory'.Faithful s request ∧
      memory'.collected = memory.collected := by
  simp only [remember] at h
  split at h
  · rename_i token' hc
    cases h
    exact ⟨hm c token hc, hm, rfl⟩
  · obtain ⟨token', htoken, h⟩ := Outcome.bind_eq_ok.1 h
    cases h
    refine ⟨htoken, fun d token' hd => ?_, rfl⟩
    rw [Std.HashMap.getElem?_insert] at hd
    split at hd
    · rename_i hcd
      cases hd
      exact (beq_iff_eq.1 hcd) ▸ htoken
    · exact hm d token' hd

/-- A completion is collected exactly if it is admitted. -/
theorem consider_eq_ok (hm : memory.Faithful s request)
    (h : (s.consider request f memory c).outcome = .ok memory') :
    memory'.Faithful s request ∧ memory'.collected =
      memory.collected.insertAll ([c].filter (s.admits request f)) := by
  have hskip : memory.collected.contains c = true →
      memory.collected.insertAll ([c].filter (s.admits request f)) = memory.collected := by
    intro hc
    cases ha : s.admits request f c <;> simp [ha, Roster.insertAll, Roster.insert, hc]
  simp only [consider] at h
  split at h
  · rename_i hc
    cases h
    exact ⟨hm, (hskip hc).symm⟩
  · simp only [Traced.outcome_bind, Traced.outcome_lift] at h
    obtain ⟨⟨token, memory₁⟩, hr, h⟩ := Outcome.bind_eq_ok.1 h
    obtain ⟨htoken, hm₁, hcol⟩ := remember_eq_ok hm hr
    cases token with
    | none =>
      cases h
      have ha : s.admits request f c = false := by simp [admits, htoken]
      exact ⟨hm₁, by simp [ha, hcol, Roster.insertAll]⟩
    | some token =>
      simp only [Traced.outcome_bind, Traced.outcome_lift] at h
      obtain ⟨b, hb, h⟩ := Outcome.bind_eq_ok.1 h
      have ha : s.admits request f c = b := by simp [admits, htoken, hb, Except.toOption]
      cases b with
      | true =>
        cases h
        exact ⟨hm₁, by simp [ha, hcol, Roster.insertAll]⟩
      | false =>
        cases h
        exact ⟨hm₁, by simp [ha, hcol, Roster.insertAll]⟩

theorem considerAll_eq_ok {cs : List Text} (hm : memory.Faithful s request)
    (h : (s.considerAll request f memory cs).outcome = .ok memory') :
    memory'.Faithful s request ∧ memory'.collected =
      memory.collected.insertAll (cs.filter (s.admits request f)) := by
  induction cs generalizing memory with
  | nil =>
    cases h
    exact ⟨hm, rfl⟩
  | cons c cs ih =>
    simp only [considerAll, Traced.outcome_bind] at h
    obtain ⟨memory₁, hc, h⟩ := Outcome.bind_eq_ok.1 h
    obtain ⟨hm₁, hcol₁⟩ := consider_eq_ok hm hc
    obtain ⟨hm', hcol'⟩ := ih hm₁ h
    refine ⟨hm', ?_⟩
    rw [hcol', hcol₁, Roster.insertAll, Roster.insertAll, ← List.foldl_append, ← List.filter_append]
    rfl

/-! ### From frontier to frontier -/

/-- The tokens that are completed at a frontier state; none where that fails. -/
def offered (s : Suggester) (request : Request) (f : Nat) : List Text :=
  (s.offers request f).toOption.getD []

theorem offered_of_offers {ws : List Text} (h : s.offers request f = .ok ws) :
    s.offered request f = ws := by
  simp [offered, h, Except.toOption]

/-- The completions found at a frontier state that are valid there. -/
def valid (s : Suggester) (request : Request) (f : Nat) : List Text :=
  ((s.offered request f).map (Completion.tail request.rest)).filter (s.admits request f)

/-- What is completed at a frontier state are the tails of what is offered there. -/
theorem outcome_completions {kinds : List Int} {ws : List Text}
    (h : Completion.words (s.task request) kinds = .ok ws) :
    (s.completions request kinds).outcome =
      .ok (ws.map (Completion.tail request.rest)).eraseDups := by
  rw [completions, Completion.outcome_complete_empty, h]
  rfl

/-- The visit of a frontier state considers what is completed there. -/
theorem outcome_suggestFrom (h : s.offers request f = .ok (s.offered request f)) :
    (s.suggestFrom request memory f).outcome = (s.considerAll request f memory
      ((s.offered request f).map (Completion.tail request.rest)).eraseDups).outcome := by
  obtain ⟨kinds, hk, hwords⟩ := Outcome.bind_eq_ok.1 h
  simp only [suggestFrom, Traced.outcome_bind, Traced.outcome_lift, Traced.outcome_tell, hk]
  simp only [bind, Except.bind, outcome_completions hwords]

/-- A frontier state can be visited only if it is known what is offered there. -/
theorem offers_of_suggestFrom (h : (s.suggestFrom request memory f).outcome = .ok memory') :
    s.offers request f = .ok (s.offered request f) := by
  simp only [suggestFrom, Traced.outcome_bind, Traced.outcome_lift, Traced.outcome_tell,
    completions] at h
  obtain ⟨-, -, h⟩ := Outcome.bind_eq_ok.1 h
  obtain ⟨kinds, hk, h⟩ := Outcome.bind_eq_ok.1 h
  obtain ⟨-, -, h⟩ := Outcome.bind_eq_ok.1 h
  obtain ⟨found, hf, -⟩ := Outcome.bind_eq_ok.1 h
  rw [Completion.outcome_complete_empty] at hf
  obtain ⟨ws, hws, -⟩ := Outcome.map_eq_ok.1 hf
  have ho : s.offers request f = .ok ws := by
    simp only [offers, hk]
    exact hws
  rw [offered_of_offers ho, ho]

theorem suggestFrom_eq_ok (hm : memory.Faithful s request)
    (h : (s.suggestFrom request memory f).outcome = .ok memory') :
    s.offers request f = .ok (s.offered request f) ∧ memory'.Faithful s request ∧
      memory'.collected = memory.collected.insertAll
        (((s.offered request f).map (Completion.tail request.rest)).eraseDups.filter
          (s.admits request f)) := by
  have ho := offers_of_suggestFrom h
  rw [outcome_suggestFrom ho] at h
  exact ⟨ho, considerAll_eq_ok hm h⟩

theorem foldlM_suggestFrom_eq_ok {fs : List Nat} (hm : memory.Faithful s request)
    (h : (fs.foldlM (s.suggestFrom request) memory).outcome = .ok memory') :
    (∀ f ∈ fs, s.offers request f = .ok (s.offered request f)) ∧
      memory'.collected = memory.collected.insertAll (fs.flatMap fun f =>
        ((s.offered request f).map (Completion.tail request.rest)).eraseDups.filter
          (s.admits request f)) := by
  induction fs generalizing memory with
  | nil =>
    cases h
    exact ⟨by simp, rfl⟩
  | cons f fs ih =>
    rw [List.foldlM_cons, Traced.outcome_bind] at h
    obtain ⟨memory₁, hf, h⟩ := Outcome.bind_eq_ok.1 h
    obtain ⟨ho, hm₁, hcol₁⟩ := suggestFrom_eq_ok hm hf
    obtain ⟨hos, hcol⟩ := ih hm₁ h
    refine ⟨by simpa using ⟨ho, hos⟩, ?_⟩
    rw [hcol, hcol₁, Roster.insertAll, Roster.insertAll, ← List.foldl_append]
    rfl

/-- The search for the states in which the token automaton may be after the given tokens. -/
def frontier (s : Suggester) (ts : List Token) : Frontier.Ended :=
  Frontier.all s.recognizer.tokens (ts.map (·.kind)) s.recognizer.initial

/-- The request to complete a text that was divided into tokens. -/
def Request.of (text : Text) (t : Tokenization) : Request := ⟨text, t.tokens, t.rest⟩

@[simp] theorem rest_of (t : Tokenization) : (Request.of text t).rest = t.rest := rfl

/-- Nothing is remembered at first. -/
theorem faithful_empty (s : Suggester) (request : Request) : Memory.Faithful s request {} :=
  fun c token hc => by simp at hc

/-- A text has suggestions if it can be divided, the frontier search ends well and so does the visit of all
states that it finds. -/
theorem suggest_eq_ok_iff {l : List Text} : (s.suggest text).outcome = .ok l ↔
    ∃ t memory, s.tokenize text = .ok t ∧ (s.frontier t.tokens).fault = none ∧
      ((s.frontier t.tokens).search.found.foldlM (s.suggestFrom (.of text t)) {}).outcome =
        .ok memory ∧ memory.collected.toList = l := by
  simp only [suggest, Traced.outcome_bind, Traced.outcome_lift, Traced.outcome_tell,
    Frontier.visitEach_eq, Traced.outcome_pure]
  constructor
  · intro h
    obtain ⟨t, ht, h⟩ := Outcome.bind_eq_ok.1 h
    obtain ⟨-, -, h⟩ := Outcome.bind_eq_ok.1 h
    obtain ⟨memory', h, hl⟩ := Outcome.bind_eq_ok.1 h
    obtain ⟨memory, hvisit, hend⟩ := Outcome.bind_eq_ok.1 h
    cases hl
    simp only [Frontier.Ended.finish] at hend
    split at hend
    · simp at hend
    · cases hend
      exact ⟨t, _, ht, ‹_›, hvisit, rfl⟩
  · rintro ⟨t, memory, ht, hfault, hvisit, rfl⟩
    have hfinish : ((s.frontier t.tokens).finish memory).outcome = .ok memory := by
      rw [Frontier.Ended.finish, hfault]
      rfl
    refine Outcome.bind_eq_ok.2 ⟨t, ht, Outcome.bind_eq_ok.2 ⟨(), rfl, ?_⟩⟩
    exact Outcome.bind_eq_ok.2 ⟨memory, Outcome.bind_eq_ok.2 ⟨memory, hvisit, hfinish⟩, rfl⟩

/-- Suggestions are the valid completions of all frontier states, without repetitions. -/
theorem suggest_eq_ok {l : List Text} (h : (s.suggest text).outcome = .ok l) :
    ∃ t, s.tokenize text = .ok t ∧ (s.frontier t.tokens).fault = none ∧
      (∀ f ∈ (s.frontier t.tokens).search.found,
        s.offers (.of text t) f = .ok (s.offered (.of text t) f)) ∧
      l = ((s.frontier t.tokens).search.found.flatMap (s.valid (.of text t))).eraseDups := by
  obtain ⟨t, memory, ht, hfault, hvisit, rfl⟩ := suggest_eq_ok_iff.1 h
  obtain ⟨hoffers, hcol⟩ := foldlM_suggestFrom_eq_ok (faithful_empty s _) hvisit
  refine ⟨t, ht, hfault, hoffers, ?_⟩
  rw [hcol, Roster.toList_insertAll_empty]
  exact Alike.flatMap_congr fun f _ => (alike_eraseDups _).filter _

theorem suggest_of_tokenize {l : List Text} {t : Tokenization} (ht : s.tokenize text = .ok t)
    (h : (s.suggest text).outcome = .ok l) : (s.frontier t.tokens).fault = none ∧
      (∀ f ∈ (s.frontier t.tokens).search.found,
        s.offers (.of text t) f = .ok (s.offered (.of text t) f)) ∧
      l = ((s.frontier t.tokens).search.found.flatMap (s.valid (.of text t))).eraseDups := by
  obtain ⟨t', ht', h⟩ := suggest_eq_ok h
  cases ht.symm.trans ht'
  exact h

theorem mem_suggest_iff {l : List Text} {t : Tokenization} (ht : s.tokenize text = .ok t)
    (h : (s.suggest text).outcome = .ok l) : c ∈ l ↔
      ∃ f ∈ (s.frontier t.tokens).search.found, ∃ w ∈ s.offered (.of text t) f,
        Completion.tail t.rest w = c ∧ s.admits (.of text t) f c = true := by
  obtain ⟨-, -, rfl⟩ := suggest_of_tokenize ht h
  simp only [List.mem_eraseDups, List.mem_flatMap, valid, List.mem_filter, List.mem_map, rest_of]
  constructor
  · rintro ⟨f, hf, ⟨w, hw, rfl⟩, ha⟩
    exact ⟨f, hf, w, hw, rfl, ha⟩
  · rintro ⟨f, hf, w, hw, rfl, ha⟩
    exact ⟨f, hf, ⟨w, hw, rfl⟩, ha⟩

/-! ### Suggesters for rules -/

/-- The suggester for rules that starts at the first state and drops no case. -/
def plain (chars tokens : Automaton) (rules : List Rule) : Suggester where
  recognizer :=
    { name := "AutomatonRecognizer"
      chars, tokens
      initial := 0
      entry := Recognizer.ruleEntry rules
      scan := fun text => (ruleScanner chars rules).scan ⟨text, 0, none⟩ }
  settings := {}
  label := "BOTH"

theorem ofRules_plain {chars tokens : Automaton} {rules : List Rule} (hrules : rules ≠ [])
    (htokens : tokens.size ≠ 0) :
    Recognizer.ofRules chars tokens rules none = .ok (plain chars tokens rules).recognizer := by
  have hempty : rules.isEmpty = false := by simpa using hrules
  simp only [Recognizer.ofRules, hempty, htokens]
  rfl

end Typeahead.Suggester
