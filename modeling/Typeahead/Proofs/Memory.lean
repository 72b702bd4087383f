import Typeahead.Proofs.Answer
import Typeahead.Proofs.Legality

/-!
Suggestions without a memory. Every completion found at a frontier state is scanned anew and tested at that
state, whether it was scanned or suggested before or not, and of all that passes the first occurrences are
kept. A suggester, which remembers scans and passes over what it has collected, gives the same list.
-/
namespace Typeahead

/-- The states that a search has found, unless there was a fault. -/
def Frontier.Ended.outcome (e : Frontier.Ended) : Except Fault (List Nat) :=
  match e.fault with
  | some fault => .error fault
  | none => .ok e.search.found

theorem Frontier.Ended.outcome_eq_ok_iff {e : Frontier.Ended} {fs : List Nat} :
    e.outcome = .ok fs ↔ e.fault = none ∧ e.search.found = fs := by
  unfold outcome
  split <;> simp_all

namespace Suggester

variable {s : Suggester} {request : Request} {f : Nat} {c text : Text} {l : List Text}
  {t : Tokenization}

/-- Tests a completion by a scan of its own: more tokens are seen than without it, and the kind of the last
one is accepted at the frontier state. -/
def fits (s : Suggester) (request : Request) (f : Nat) (c : Text) : Except Fault Bool := do
  let t ← s.tokenize (request.text ++ c)
  match t.tokens.getLast? with
  | none => return false
  | some last =>
    if request.tokens.length < t.tokens.length then s.recognizer.tokens.accepts f last.kind
    else return false

/-- The completions found at a frontier state that fit there. -/
def fitting (s : Suggester) (request : Request) (f : Nat) : Except Fault (List Text) := do
  let kinds ← s.recognizer.tokens.expected f
  let found ← (Completion.complete (s.task request) {} kinds).outcome
  found.filterM (s.fits request f)

/-- The suggestions for a text, made without a memory. -/
def unremembered (s : Suggester) (text : Text) : Except Fault (List Text) := do
  let t ← s.tokenize text
  let fs ← (s.frontier t.tokens).outcome
  let lists ← fs.mapM (s.fitting (.of text t))
  return lists.flatten.eraseDups

/-! ### One completion -/

theorem addedToken_of_tokenize (ht : s.tokenize (request.text ++ c) = .ok t) :
    s.addedToken request c =
      .ok (if request.tokens.length < t.tokens.length then t.tokens.getLast? else none) := by
  rw [addedToken, ht]
  rfl

/-- A test ends well exactly if it can be decided whether the completion is valid. -/
theorem exists_fits_iff : (∃ b, s.fits request f c = .ok b) ↔ s.Decides request f c := by
  cases ht : s.tokenize (request.text ++ c) with
  | error fault => simp [fits, Decides, addedToken, ht, bind, Except.bind]
  | ok t =>
    simp only [fits, ht, Decides, addedToken_of_tokenize ht, Except.ok.injEq, exists_eq_left', bind,
      Except.bind]
    cases hlast : t.tokens.getLast? with
    | none => simp [pure, Except.pure]
    | some last =>
      by_cases hlt : request.tokens.length < t.tokens.length
      · simp [hlt]
      · simp [hlt, pure, Except.pure]

theorem admits_of_fits {b : Bool} (h : s.fits request f c = .ok b) : b = s.admits request f c := by
  obtain ⟨t, ht, h⟩ := Outcome.bind_eq_ok.1 h
  have hadded := addedToken_of_tokenize ht
  cases hlast : t.tokens.getLast? with
  | none =>
    simp only [hlast] at h
    cases h
    simp [admits, hadded, hlast]
  | some last =>
    simp only [hlast] at h
    split at h
    · rename_i hlt
      simp [admits, hadded, hlast, hlt, h, Except.toOption]
    · rename_i hlt
      cases h
      simp [admits, hadded, hlt]

/-! ### One frontier state -/

/-- The completions found at a frontier state, each once, that are admitted there. -/
def admitted (s : Suggester) (request : Request) (f : Nat) : List Text :=
  ((s.offered request f).map (Completion.tail request.rest)).eraseDups.filter (s.admits request f)

theorem alike_admitted : Alike (s.admitted request f) (s.valid request f) :=
  (alike_eraseDups _).filter _

theorem outcome_complete_eq_ok_iff {kinds : List Int} :
    (Completion.complete (s.task request) {} kinds).outcome = .ok l ↔
      ∃ ws, Completion.words (s.task request) kinds = .ok ws ∧
        (ws.map (Completion.tail request.rest)).eraseDups = l := by
  rw [Completion.outcome_complete_empty, Outcome.map_eq_ok]
  rfl

/-- What fits at a frontier state can be found out if it is known what is offered there and every test ends
well, and then it is what is admitted of it. -/
theorem fitting_eq_ok_iff : s.fitting request f = .ok l ↔
    (s.offers request f = .ok (s.offered request f) ∧
      ∀ w ∈ s.offered request f, s.Decides request f (Completion.tail request.rest w)) ∧
    l = s.admitted request f := by
  have htests : ∀ ws : List Text,
      ((ws.map (Completion.tail request.rest)).eraseDups.filterM (s.fits request f) = .ok l ↔
        (∀ w ∈ ws, s.Decides request f (Completion.tail request.rest w)) ∧
          l = (ws.map (Completion.tail request.rest)).eraseDups.filter (s.admits request f)) := by
    intro ws
    rw [Outcome.filterM_eq_ok_iff fun c _ b h => admits_of_fits h]
    simp only [exists_fits_iff, List.mem_eraseDups, List.forall_mem_map]
  rw [and_assoc]
  constructor
  · intro h
    obtain ⟨kinds, hkinds, h⟩ := Outcome.bind_eq_ok.1 h
    obtain ⟨found, hcomplete, h⟩ := Outcome.bind_eq_ok.1 h
    obtain ⟨ws, hws, rfl⟩ := outcome_complete_eq_ok_iff.1 hcomplete
    have ho : s.offers request f = .ok ws := Outcome.bind_eq_ok.2 ⟨kinds, hkinds, hws⟩
    rw [admitted, offered_of_offers ho]
    exact ⟨ho, (htests ws).1 h⟩
  · rintro ⟨ho, h⟩
    obtain ⟨kinds, hkinds, hws⟩ := Outcome.bind_eq_ok.1 ho
    have hcomplete := outcome_complete_eq_ok_iff.2 ⟨_, hws, rfl⟩
    exact Outcome.bind_eq_ok.2 ⟨kinds, hkinds, Outcome.bind_eq_ok.2 ⟨_, hcomplete, (htests _).2 h⟩⟩

/-! ### All frontier states -/

theorem mapM_fitting_eq_ok_iff {fs : List Nat} {lists : List (List Text)} :
    fs.mapM (s.fitting (.of text t)) = .ok lists ↔
      (∀ f ∈ fs, s.offers (.of text t) f = .ok (s.offered (.of text t) f) ∧
        ∀ w ∈ s.offered (.of text t) f, s.Decides (.of text t) f (Completion.tail t.rest w)) ∧
      lists = fs.map (s.admitted (.of text t)) := by
  rw [Outcome.mapM_eq_ok_iff fun f _ r h => (fitting_eq_ok_iff.1 h).2]
  simp only [fitting_eq_ok_iff, exists_and_left, exists_eq, and_true, rest_of]

/-- Without a memory there are suggestions exactly if nothing stands in the way of an answer. -/
theorem unremembered_eq_ok_iff : s.unremembered text = .ok l ↔
    ∃ t, s.tokenize text = .ok t ∧ s.Answerable text t ∧
      l = ((s.frontier t.tokens).search.found.flatMap (s.valid (.of text t))).eraseDups := by
  have halike : ∀ (t : Tokenization) (fs : List Nat),
      (fs.map (s.admitted (.of text t))).flatten.eraseDups =
        (fs.flatMap (s.valid (.of text t))).eraseDups := by
    intro t fs
    rw [← List.flatMap_def]
    exact Alike.flatMap_congr fun f _ => alike_admitted
  constructor
  · intro h
    obtain ⟨t, ht, h⟩ := Outcome.bind_eq_ok.1 h
    obtain ⟨fs, hfs, h⟩ := Outcome.bind_eq_ok.1 h
    obtain ⟨lists, hl, h⟩ := Outcome.bind_eq_ok.1 h
    cases h
    obtain ⟨hwalked, rfl⟩ := Frontier.Ended.outcome_eq_ok_iff.1 hfs
    obtain ⟨hvisit, rfl⟩ := mapM_fitting_eq_ok_iff.1 hl
    refine ⟨t, ht, ⟨hwalked, fun f hf => (hvisit f hf).1, fun f hf => (hvisit f hf).2⟩, ?_⟩
    exact halike t _
  · rintro ⟨t, ht, ha, rfl⟩
    have hfs := Frontier.Ended.outcome_eq_ok_iff.2 ⟨ha.walked, rfl⟩
    have hl := mapM_fitting_eq_ok_iff.2 ⟨fun f hf => ⟨ha.offers f hf, ha.decides f hf⟩, rfl⟩
    rw [← halike]
    exact Outcome.bind_eq_ok.2 ⟨t, ht, Outcome.bind_eq_ok.2 ⟨_, hfs, Outcome.bind_eq_ok.2 ⟨_, hl, rfl⟩⟩⟩

/-- What is remembered changes nothing: where no traversal fails without a memory, a suggester gives the same
list. Suggestions do not repeat and are not empty. Under distinct identifiers nothing fails without a memory
that a suggester does not meet. -/
theorem suggest_eq_unremembered (s : Suggester) (text : Text) (l : List Text) :
    (s.unremembered text = .ok l → (s.suggest text).outcome = .ok l) ∧
    ((s.suggest text).outcome = .ok l → l.Nodup ∧ [] ∉ l ∧
      (s.recognizer.tokens.DistinctIds → s.unremembered text = .ok l)) := by
  constructor
  · intro h
    obtain ⟨t, ht, ha, rfl⟩ := unremembered_eq_ok_iff.1 h
    obtain ⟨l', hl'⟩ := ha.exists_suggest ht
    obtain ⟨-, -, rfl⟩ := suggest_of_tokenize ht hl'
    exact hl'
  · intro h
    obtain ⟨t, ht, -, -, hl⟩ := suggest_eq_ok h
    refine ⟨hl ▸ nodup_eraseDups _, fun hnil => ?_, fun hd => ?_⟩
    · obtain ⟨_, _, _, _, hg⟩ := grows_of_mem_suggest h hnil
      exact hg.ne_nil rfl
    · exact unremembered_eq_ok_iff.2 ⟨t, ht, answerable_of_suggest hd ht h, hl⟩

/-- Rules for `a`, for `b` and for `b` or `c`. After `a` there are two frontier states, of which the first
expects the last rule and the second the one before it. -/
def overlapping : Suggester :=
  plain
    ⟨#[⟨0, [.atomic 97 1]⟩, ⟨1, []⟩, ⟨2, [.atomic 98 3]⟩, ⟨3, []⟩, ⟨4, [.set [⟨98, 100⟩] 5]⟩, ⟨5, []⟩]⟩
    ⟨#[⟨0, [.atomic 1 1, .atomic 1 2]⟩, ⟨1, [.atomic 3 3]⟩, ⟨2, [.atomic 2 3]⟩, ⟨3, []⟩]⟩
    [⟨1, "A", 0, 0⟩, ⟨2, "B", 2, 0⟩, ⟨3, "BC", 4, 0⟩]

/-- After `a`, the completion `b` is refused at the first frontier state and accepted at the second. -/
theorem b_suggested_after_c :
    overlapping.unremembered ['a'] = .ok [['c'], ['b']] ∧
      (overlapping.suggest ['a']).outcome = .ok [['c'], ['b']] := by
  have h : overlapping.unremembered ['a'] = .ok [['c'], ['b']] := by
    cbv
  exact ⟨h, (suggest_eq_unremembered overlapping ['a'] _).1 h⟩

end Suggester
end Typeahead
