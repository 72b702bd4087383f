import Mathlib
import Typeahead.Proofs.Admission
import Typeahead.Proofs.Words

/-!
Typing on narrows the suggestions. What is typed of a token is replayed, what is not is generated, and
both walks come to the same tokens in the same order. So the suggestions for a text with some characters
added are those that go on with these characters, as long as the characters belong to an unfinished token.
-/
namespace Typeahead.Completion

variable {chars : Automaton} {preference : Preference} {path : List Nat} {points points' : List Point}
  {ws ws' : List Text} {p q : Point} {typed more v w : Text} {c : CodePoint}

/-! ### Walks from alike points -/

theorem enumerate_of_mem (h : p.state ∈ path) :
    enumerate chars preference path (p :: points) = enumerate chars preference path points := by
  rw [enumerate, dif_pos (by simpa using h)]

theorem enumerate_of_error {fault : Fault} (h : p.state ∉ path)
    (he : expand chars preference p = .error fault) :
    enumerate chars preference path (p :: points) = .error fault := by
  rw [enumerate, dif_neg (by simpa using h)]
  split <;> simp_all

theorem enumerate_of_ok {next : List Point} (h : p.state ∉ path)
    (he : expand chars preference p = .ok next) :
    enumerate chars preference path (p :: points) = do
      let inner ← enumerate chars preference (p.state :: path) next
      let others ← enumerate chars preference path points
      return tokenAt chars p ++ inner ++ others := by
  rw [enumerate, dif_neg (by simpa using h)]
  split <;> simp_all

/-- Points are worked off one by one. -/
theorem enumerate_cons (p : Point) (points : List Point) :
    enumerate chars preference path (p :: points) = do
      let first ← enumerate chars preference path [p]
      let others ← enumerate chars preference path points
      return first ++ others := by
  have hnil : enumerate chars preference path [] = .ok [] := by rw [enumerate]
  by_cases hp : p.state ∈ path
  · rw [enumerate_of_mem hp, enumerate_of_mem hp, hnil]
    cases enumerate chars preference path points <;> rfl
  · cases he : expand chars preference p with
    | error fault =>
      rw [enumerate_of_error hp he, enumerate_of_error hp he]
      rfl
    | ok next =>
      rw [enumerate_of_ok hp he, enumerate_of_ok hp he, hnil]
      cases enumerate chars preference (p.state :: path) next with
      | error fault => rfl
      | ok inner =>
        cases enumerate chars preference path points <;>
          simp [bind, Except.bind, pure, Except.pure]

/-- The tokens that are read from one point; none where that fails. -/
def tokensFrom (chars : Automaton) (preference : Preference) (path : List Nat) (p : Point) :
    List Text :=
  (enumerate chars preference path [p]).toOption.getD []

theorem enumerate_eq_ok_iff : enumerate chars preference path points = .ok ws ↔
    (∀ p ∈ points, enumerate chars preference path [p] =
      .ok (tokensFrom chars preference path p)) ∧
      ws = points.flatMap (tokensFrom chars preference path) := by
  induction points generalizing ws with
  | nil =>
    rw [enumerate]
    simp [eq_comm]
  | cons p points ih =>
    rw [enumerate_cons]
    cases hp : enumerate chars preference path [p] with
    | error fault => simp [hp, bind, Except.bind]
    | ok first =>
      have hfirst : tokensFrom chars preference path p = first := by
        simp [tokensFrom, hp, Except.toOption]
      simp only [Outcome.bind_eq_ok, ih, pure, Except.pure, Except.ok.injEq, List.forall_mem_cons,
        List.flatMap_cons, hfirst, hp, true_and]
      constructor
      · rintro ⟨_, rfl, _, ⟨hpoints, rfl⟩, rfl⟩
        exact ⟨hpoints, rfl⟩
      · rintro ⟨hpoints, rfl⟩
        exact ⟨first, rfl, _, ⟨hpoints, rfl⟩, rfl⟩

/-- Walks from alike points find alike tokens. -/
theorem enumerate_alike (h : enumerate chars preference path points = .ok ws)
    (ha : Alike points points') :
    ∃ ws', enumerate chars preference path points' = .ok ws' ∧ Alike ws ws' := by
  obtain ⟨hpoints, rfl⟩ := enumerate_eq_ok_iff.1 h
  refine ⟨_, enumerate_eq_ok_iff.2 ⟨fun p hp => hpoints p (ha.mem_iff.2 hp), rfl⟩, ?_⟩
  exact ha.flatMap _

/-! ### Aiming at more text -/

/-- The point as if more text were typed. -/
def Point.aim (p : Point) (typed : Text) : Point :=
  { p with remaining := typed.drop p.soFar.length }

@[simp] theorem state_aim : (p.aim typed).state = p.state := rfl

theorem agree_append_append {u : Text} : Agree (u ++ v) (u ++ w) ↔ Agree v w := by
  simp [Agree, List.prefix_append_right_inj]

/-- One character more still agrees if it is the next one, or if there is no next one. -/
theorem agree_append_singleton {u : Text} (h : Agree typed u) :
    Agree typed (u ++ [c]) ↔
      typed.drop u.length = [] ∨ ∃ rest, typed.drop u.length = c :: rest := by
  rcases h with ⟨v, rfl⟩ | ⟨v, rfl⟩
  · refine iff_of_true (Or.inl ?_) (Or.inl ?_)
    · simp
    · simp
  · rw [agree_append_append, agree_cons_iff, List.drop_left]
    simp

/-- The points that agree with `typed`, as if it were typed. -/
def narrow (typed : Text) (points : List Point) : List Point :=
  (points.filter fun p => Agree typed p.soFar).map (·.aim typed)

theorem narrow_cons_of_agree (h : Agree typed p.soFar) :
    narrow typed (p :: points) = p.aim typed :: narrow typed points := by
  simp [narrow, h]

theorem narrow_cons_of_not_agree (h : ¬ Agree typed p.soFar) :
    narrow typed (p :: points) = narrow typed points := by
  simp [narrow, h]

theorem narrow_append : narrow typed (points ++ points') =
    narrow typed points ++ narrow typed points' := by
  simp [narrow]

theorem narrow_filterMap {α : Type} (f : α → Option Point) (l : List α) :
    narrow typed (l.filterMap f) =
      l.filterMap fun x => ((f x).filter fun p => Agree typed p.soFar).map (·.aim typed) := by
  simp [narrow, List.filter_filterMap, List.map_filterMap]

theorem narrow_toList (o : Option Point) :
    narrow typed o.toList =
      ((o.filter fun p => Agree typed p.soFar).map (·.aim typed)).toList := by
  cases o with
  | none => rfl
  | some p => by_cases h : Agree typed p.soFar <;> simp [narrow, Option.filter, h]

variable {t : Nat}

/-- To read a character and then to aim at more text is to aim first. -/
theorem narrow_read (hp : p.aim typed = p) (ha : Agree (typed ++ more) p.soFar) :
    ((p.read t c).filter fun q => Agree (typed ++ more) q.soFar).map (·.aim (typed ++ more)) =
      (p.aim (typed ++ more)).read t c := by
  have hrem : p.remaining = typed.drop p.soFar.length := congrArg Point.remaining hp.symm
  apply Option.ext
  intro q
  simp only [Option.map_eq_some_iff, Option.filter_eq_some_iff, read_eq_some_iff, decide_eq_true_eq,
    Point.aim]
  constructor
  · rintro ⟨_, ⟨⟨-, rfl⟩, hagree⟩, rfl⟩
    exact ⟨(agree_append_singleton ha).1 hagree, by simp⟩
  · rintro ⟨hnext, rfl⟩
    refine ⟨_, ⟨⟨?_, rfl⟩, (agree_append_singleton ha).2 hnext⟩, by simp⟩
    rw [hrem]
    rw [List.drop_append] at hnext
    cases hd : typed.drop p.soFar.length with
    | nil => exact Or.inl rfl
    | cons d rest =>
      rw [hd] at hnext
      obtain rfl : d = c := by simpa using hnext
      exact Or.inr ⟨rest, rfl⟩

/-- Only the character that is typed next can be read, and it may be generated repeatedly. -/
theorem alike_filterMap_read {rest : Text} (h : p.remaining = c :: rest) (cs : List CodePoint) :
    Alike (cs.filterMap (p.read t)) (if c ∈ cs then (p.read t c).toList else []) := by
  apply alike_filterMap_of_unique
  intro d hd
  simp [Point.read, h, hd.symm]

/-- Where a move leads from a point is, aimed at more text, where it leads from the aimed point. -/
theorem alike_follow {m : Move} {l l' : List Point} (hp : p.aim typed = p)
    (ha : Agree (typed ++ more) p.soFar) (h : follow chars preference p m = .ok l)
    (h' : follow chars preference (p.aim (typed ++ more)) m = .ok l') :
    Alike (narrow (typed ++ more) l) l' := by
  have hrem : p.remaining = typed.drop p.soFar.length := congrArg Point.remaining hp.symm
  cases m with
  | epsilon t =>
    cases h
    cases h'
    simp [narrow, ha, Point.aim, Alike]
  | atomic label t =>
    obtain ⟨cs, hcs, h⟩ := Outcome.bind_eq_ok.1 h
    obtain ⟨cs', hcs', h'⟩ := Outcome.bind_eq_ok.1 h'
    cases hcs.symm.trans hcs'
    cases h
    cases h'
    simp only [narrow_filterMap, narrow_read hp ha]
    exact .refl _
  | set intervals t =>
    simp only [follow] at h h'
    cases hr : p.remaining with
    | nil =>
      simp only [hr] at h
      obtain ⟨cs, hcs, h⟩ := Outcome.bind_eq_ok.1 h
      cases h
      simp only [narrow_filterMap, narrow_read hp ha]
      cases hr' : (p.aim (typed ++ more)).remaining with
      | nil =>
        simp only [hr', hcs] at h'
        cases h'
        exact .refl _
      | cons head rest =>
        simp only [hr'] at h'
        cases h'
        refine (alike_filterMap_read hr' _).trans ?_
        simp [mem_characters_iff hcs, Alike]
    | cons head rest =>
      have hr' : ∃ rest', (p.aim (typed ++ more)).remaining = head :: rest' := by
        rw [hrem] at hr
        simp [Point.aim, List.drop_append, hr]
      obtain ⟨rest', hr'⟩ := hr'
      simp only [hr] at h
      simp only [hr'] at h'
      cases h
      cases h'
      rw [← narrow_read hp ha]
      split
      · rw [narrow_toList]
        exact .refl _
      · exact .refl _
  | foreign name t => simp [follow] at h

theorem alike_expand {next next' : List Point} (hp : p.aim typed = p)
    (ha : Agree (typed ++ more) p.soFar) (h : expand chars preference p = .ok next)
    (h' : expand chars preference (p.aim (typed ++ more)) = .ok next') :
    Alike (narrow (typed ++ more) next) next' := by
  suffices hmoves : ∀ {moves : List Move} {lists lists' : List (List Point)},
      moves.mapM (follow chars preference p) = .ok lists →
      moves.mapM (follow chars preference (p.aim (typed ++ more))) = .ok lists' →
      Alike (narrow (typed ++ more) lists.flatten) lists'.flatten by
    obtain ⟨lists, hl, h⟩ := Outcome.bind_eq_ok.1 h
    obtain ⟨lists', hl', h'⟩ := Outcome.bind_eq_ok.1 h'
    cases h
    cases h'
    exact hmoves hl hl'
  intro moves
  induction moves with
  | nil =>
    intro lists lists' hl hl'
    cases hl
    cases hl'
    exact .refl _
  | cons m moves ih =>
    intro lists lists' hl hl'
    obtain ⟨first, others, hm, ho, rfl⟩ := Outcome.mapM_cons_eq_ok hl
    obtain ⟨first', others', hm', ho', rfl⟩ := Outcome.mapM_cons_eq_ok hl'
    rw [List.flatten_cons, List.flatten_cons, narrow_append]
    exact (alike_follow hp ha hm hm').append (ih ho ho')

theorem aim_of_mem_expand {next : List Point} (hp : p.aim typed = p)
    (he : expand chars preference p = .ok next) (hq : q ∈ next) : q.aim typed = q := by
  have hrem : p.remaining = typed.drop p.soFar.length := congrArg Point.remaining hp.symm
  rcases (mem_expand_iff he).1 hq with ⟨-, hq⟩ | ⟨m, -, c, -, hread⟩
  · rw [hq]
    simp [Point.aim, hrem]
  · obtain ⟨-, rfl⟩ := read_eq_some_iff.1 hread
    simp [Point.aim, hrem]

/-- What goes on as `typed` is found only from points that agree with it. -/
theorem agree_of_foundFrom (h : FoundFrom chars preference path p w) (hw : typed <+: w) :
    Agree typed p.soFar := by
  obtain ⟨-, v, -, rfl, -⟩ := h
  exact List.prefix_or_prefix_of_prefix hw (List.prefix_append _ _)

/-- A walk aimed at more text finds the same tokens, in the same order, of those that start so. -/
theorem alike_enumerate (h : enumerate chars preference path points = .ok ws)
    (hp : ∀ p ∈ points, p.aim typed = p)
    (h' : enumerate chars preference path (narrow (typed ++ more) points) = .ok ws') :
    Alike (ws.filter (typed ++ more <+: ·)) (ws'.filter (typed ++ more <+: ·)) := by
  fun_induction enumerate chars preference path points generalizing ws ws' with
  | case1 path =>
    cases h
    rw [narrow, List.filter_nil, List.map_nil, enumerate] at h'
    cases h'
    exact .refl _
  | case2 path p points hmem ih =>
    have hmem' : (p.aim (typed ++ more)).state ∈ path := by simpa using hmem
    refine ih h (fun q hq => hp q (List.mem_cons_of_mem p hq)) ?_
    by_cases ha : Agree (typed ++ more) p.soFar
    · rwa [narrow_cons_of_agree ha, enumerate_of_mem hmem'] at h'
    · rwa [narrow_cons_of_not_agree ha] at h'
  | case3 path p points hmem fault he => simp at h
  | case4 path p points hmem next he ihin ihrest =>
    have hmem' : (p.aim (typed ++ more)).state ∉ path := by simpa using hmem
    obtain ⟨inner, hin, h⟩ := Outcome.bind_eq_ok.1 h
    obtain ⟨others, ho, h⟩ := Outcome.bind_eq_ok.1 h
    cases h
    have hrest := fun q hq => hp q (List.mem_cons_of_mem p hq)
    have haim := hp p List.mem_cons_self
    by_cases ha : Agree (typed ++ more) p.soFar
    · rw [narrow_cons_of_agree ha] at h'
      cases he' : expand chars preference (p.aim (typed ++ more)) with
      | error fault =>
        rw [enumerate_of_error hmem' he'] at h'
        cases h'
      | ok next' =>
        rw [enumerate_of_ok hmem' he'] at h'
        obtain ⟨inner', hin', h'⟩ := Outcome.bind_eq_ok.1 h'
        obtain ⟨others', ho', h'⟩ := Outcome.bind_eq_ok.1 h'
        cases h'
        obtain ⟨inner'', hin'', halike⟩ := enumerate_alike hin' (alike_expand haim ha he he').symm
        have hinner := ihin hin (fun q hq => aim_of_mem_expand haim he hq) hin''
        simp only [List.filter_append]
        refine (Alike.append (.append (.refl _) ?_) (ihrest ho hrest ho'))
        exact hinner.trans (halike.filter _).symm
    · -- Nothing that starts as the longer text comes from such a point.
      rw [narrow_cons_of_not_agree ha] at h'
      have hnone : (tokenAt chars p ++ inner).filter (typed ++ more <+: ·) = [] := by
        apply List.filter_eq_nil_iff.2
        intro w hw hpre
        rw [List.mem_append, mem_enumerate_iff hin] at hw
        have hfound := (foundFrom_iff (by simpa using hmem) he).2 hw
        exact ha (agree_of_foundFrom hfound (by simpa using hpre))
      rw [List.filter_append, hnone, List.nil_append]
      exact ihrest ho hrest h'

theorem alike_words {task : Task} {kinds : List Int} (h : words task kinds = .ok ws)
    (h' : words { task with typed := task.typed ++ more } kinds = .ok ws') :
    Alike (ws.filter (task.typed ++ more <+: ·)) (ws'.filter (task.typed ++ more <+: ·)) := by
  induction kinds generalizing ws ws' with
  | nil =>
    cases h
    cases h'
    exact .refl _
  | cons kind kinds ih =>
    simp only [words] at h h'
    cases hentry : task.entry kind with
    | none =>
      simp only [hentry] at h h'
      exact ih h h'
    | some entry =>
      simp only [hentry] at h h'
      obtain ⟨first, hfirst, h⟩ := Outcome.bind_eq_ok.1 h
      obtain ⟨others, ho, h⟩ := Outcome.bind_eq_ok.1 h
      obtain ⟨first', hfirst', h'⟩ := Outcome.bind_eq_ok.1 h'
      obtain ⟨others', ho', h'⟩ := Outcome.bind_eq_ok.1 h'
      cases h
      cases h'
      rw [List.filter_append, List.filter_append]
      refine (alike_enumerate hfirst (by simp [Point.aim]) ?_).append (ih ho ho')
      simpa [narrow, Point.aim] using hfirst'

end Typeahead.Completion

namespace Typeahead.Suggester

variable {s : Suggester} {text c : Text} {t t' : Tokenization} {f : Nat}

/-- Nothing is never valid: it adds no token. -/
theorem admits_nil (ht : s.tokenize text = .ok t) : s.admits (.of text t) f [] = false := by
  simp [admits, addedToken, Request.of, ht, bind, Except.bind, pure, Except.pure]

/-- A completion of the longer text is valid if it is valid together with what was added. -/
theorem admits_append (hlen : t'.tokens.length = t.tokens.length) (v : Text) :
    s.admits (.of (text ++ c) t') f v = s.admits (.of text t) f (c ++ v) := by
  have hadded : s.addedToken (.of (text ++ c) t') v = s.addedToken (.of text t) (c ++ v) := by
    have htext : (Request.of (text ++ c) t').text ++ v = (Request.of text t).text ++ (c ++ v) :=
      List.append_assoc text c v
    have htokens : (Request.of (text ++ c) t').tokens.length =
        (Request.of text t).tokens.length := hlen
    rw [addedToken, addedToken, htext, htokens]
  simp only [admits, hadded]

theorem tail_of_prefix {typed w : Text} (h : typed ++ c <+: w) :
    Completion.tail typed w = c ++ Completion.tail (typed ++ c) w := by
  obtain ⟨v, rfl⟩ := h
  simp [Completion.tail]

theorem tail_eq_nil {typed w : Text} (ha : Completion.Agree typed w) (h : ¬ typed <+: w) :
    Completion.tail typed w = [] :=
  List.drop_eq_nil_of_le (ha.resolve_left h).length_le

/-- What is offered agrees with what is typed. -/
theorem agree_of_mem_offered {request : Request} {w : Text}
    (ho : s.offers request f = .ok (s.offered request f)) (hw : w ∈ s.offered request f) :
    Completion.Agree request.rest w := by
  obtain ⟨kinds, -, hwords⟩ := Outcome.bind_eq_ok.1 ho
  exact ((Completion.mem_words_iff hwords).1 hw).2.1

/-- The tokens that start as what is typed and `c`, completed as far as that is valid. -/
def goingOn (s : Suggester) (request : Request) (f : Nat) (c : Text) (ws : List Text) : List Text :=
  ((ws.filter (request.rest ++ c <+: ·)).map (Completion.tail request.rest)).filter
    (s.admits request f)

theorem filter_valid (ht : s.tokenize text = .ok t)
    (ho : s.offers (.of text t) f = .ok (s.offered (.of text t) f)) :
    (s.valid (.of text t) f).filter (c <+: ·) =
      s.goingOn (.of text t) f c (s.offered (.of text t) f) := by
  simp only [valid, goingOn, List.filter_map, List.filter_filter, Function.comp_def, rest_of]
  congr 1
  apply List.filter_congr
  intro w hw
  by_cases hpre : t.rest <+: w
  · obtain ⟨v, rfl⟩ := hpre
    simp [Completion.tail, List.prefix_append_right_inj, Bool.and_comm]
  · have htail : Completion.tail t.rest w = [] := tail_eq_nil (agree_of_mem_offered ho hw) hpre
    simp [htail, admits_nil ht]

theorem map_valid (ht' : s.tokenize (text ++ c) = .ok t')
    (hlen : t'.tokens.length = t.tokens.length) (hrest : t'.rest = t.rest ++ c)
    (ho : s.offers (.of (text ++ c) t') f = .ok (s.offered (.of (text ++ c) t') f)) :
    (s.valid (.of (text ++ c) t') f).map (c ++ ·) =
      s.goingOn (.of text t) f c (s.offered (.of (text ++ c) t') f) := by
  have hfilter : ∀ w ∈ s.offered (.of (text ++ c) t') f,
      s.admits (.of (text ++ c) t') f (Completion.tail (t.rest ++ c) w) =
        (s.admits (.of text t) f (Completion.tail t.rest w) && decide (t.rest ++ c <+: w)) := by
    intro w hw
    by_cases hpre : t.rest ++ c <+: w
    · rw [admits_append hlen, ← tail_of_prefix hpre]
      simp [hpre]
    · have hagree : Completion.Agree (t.rest ++ c) w := hrest ▸ agree_of_mem_offered ho hw
      rw [tail_eq_nil hagree hpre, admits_nil ht']
      simp [hpre]
  simp only [valid, goingOn, List.filter_map, List.filter_filter, Function.comp_def, List.map_map,
    rest_of, hrest]
  rw [List.filter_congr hfilter]
  apply List.map_congr_left
  intro w hw
  have hpre : t.rest ++ c <+: w := by
    simp only [List.mem_filter, Bool.and_eq_true, decide_eq_true_eq] at hw
    exact hw.2.2
  rw [← tail_of_prefix hpre]

/-- What is valid at a frontier state for the longer text is what goes on with `c` there. -/
theorem alike_valid (ht : s.tokenize text = .ok t) (ht' : s.tokenize (text ++ c) = .ok t')
    (hlen : t'.tokens.length = t.tokens.length) (hrest : t'.rest = t.rest ++ c)
    (ho : s.offers (.of text t) f = .ok (s.offered (.of text t) f))
    (ho' : s.offers (.of (text ++ c) t') f = .ok (s.offered (.of (text ++ c) t') f)) :
    Alike ((s.valid (.of (text ++ c) t') f).map (c ++ ·))
      ((s.valid (.of text t) f).filter (c <+: ·)) := by
  obtain ⟨kinds, hk, hwords⟩ := Outcome.bind_eq_ok.1 ho
  obtain ⟨kinds', hk', hwords'⟩ := Outcome.bind_eq_ok.1 ho'
  cases hk.symm.trans hk'
  have htask : s.task (.of (text ++ c) t') =
      { s.task (.of text t) with typed := (s.task (.of text t)).typed ++ c } := by
    simp [task, hrest]
  rw [htask] at hwords'
  rw [filter_valid ht ho, map_valid ht' hlen hrest ho']
  exact ((Completion.alike_words hwords hwords').symm.map _).filter _

/-- As long as what is typed belongs to an unfinished token, typing `c` leaves exactly the suggestions
that start with `c`, in their order and without `c`. -/
theorem suggest_append_eq_filter {l l' : List Text} (ht : s.tokenize text = .ok t)
    (ht' : s.tokenize (text ++ c) = .ok t')
    (hkinds : t'.tokens.map (·.kind) = t.tokens.map (·.kind)) (hrest : t'.rest = t.rest ++ c)
    (h : (s.suggest text).outcome = .ok l) (h' : (s.suggest (text ++ c)).outcome = .ok l') :
    l'.map (c ++ ·) = l.filter (c <+: ·) := by
  obtain ⟨-, hoffers, rfl⟩ := suggest_of_tokenize ht h
  obtain ⟨-, hoffers', rfl⟩ := suggest_of_tokenize ht' h'
  have hlen : t'.tokens.length = t.tokens.length := by
    simpa using congrArg List.length hkinds
  have hfrontier : s.frontier t'.tokens = s.frontier t.tokens := by
    rw [frontier, frontier, hkinds]
  rw [hfrontier] at hoffers' ⊢
  rw [← eraseDups_map (fun _ _ h => List.append_cancel_left h), ← eraseDups_filter, List.map_flatMap,
    List.filter_flatMap]
  exact Alike.flatMap_congr fun f hf =>
    alike_valid ht ht' hlen hrest (hoffers f hf) (hoffers' f hf)

/-- One rule, for `x` followed by `y` or `z`. -/
def pairs : Suggester :=
  plain ⟨#[⟨0, [.atomic 120 1]⟩, ⟨1, [.set [⟨121, 123⟩, ⟨121, 122⟩] 2]⟩, ⟨2, []⟩]⟩
    ⟨#[⟨0, [.atomic 1 1]⟩, ⟨1, []⟩]⟩ [⟨1, "PAIR", 0, 0⟩]

theorem suggest_pairs_append :
    ∃ l l', (pairs.suggest []).outcome = .ok l ∧ (pairs.suggest ['x']).outcome = .ok l' ∧
      l'.map ((['x'] : Text) ++ ·) = l.filter ((['x'] : Text) <+: ·) := by
  have h : (pairs.suggest []).outcome = .ok [['x', 'y'], ['x', 'z']] := by
    cbv
  have h' : (pairs.suggest ['x']).outcome = .ok [['y'], ['z']] := by
    cbv
  have ht : pairs.tokenize [] = .ok ⟨[], []⟩ := by
    cbv
  have ht' : pairs.tokenize ['x'] = .ok ⟨[], ['x']⟩ := by
    cbv
  exact ⟨_, _, h, h', suggest_append_eq_filter ht ht' rfl rfl h h'⟩

end Typeahead.Suggester
