import Typeahead.Completion

/-!
The walk over the character automaton as a recursion. A point lists the token that ends there and then
all tokens that its moves lead to, with the states on the way as an argument instead of a set that is
changed and put back. The stack machine finds the same tokens in the same order, kind by kind.
-/
namespace Typeahead.Completion

variable {chars : Automaton} {preference : Preference} {path : List Nat} {points : List Point}
  {ws : List Text} {fault : Fault} {t : Task} {g g' : Progress} {stack stack' : List Frame}

/-- The token that is read to its end at a point, if there is one. -/
def tokenAt (chars : Automaton) (p : Point) : List Text :=
  if !p.soFar.isEmpty && chars.isFinal p.state then [p.soFar] else []

theorem unvisited_cons_le (chars : Automaton) (path : List Nat) (s : Nat) :
    unvisited chars (s :: path) ≤ unvisited chars path := by
  apply List.countP_mono_left
  intro x _
  simp

/-- The tokens that can be read from some points without entering a state of `path`, in order and with
repetitions. -/
def enumerate (chars : Automaton) (preference : Preference) (path : List Nat) :
    List Point → Except Fault (List Text)
  | [] => .ok []
  | p :: points =>
    if _h : path.contains p.state then enumerate chars preference path points
    else
      match _he : expand chars preference p with
      | .error fault => .error fault
      | .ok next => do
        let inner ← enumerate chars preference (p.state :: path) next
        let others ← enumerate chars preference path points
        return tokenAt chars p ++ inner ++ others
termination_by points => (unvisited chars path, points.length)
decreasing_by
  · exact .right _ (by simp)
  · by_cases hs : p.state < chars.size
    · exact .left _ _ (unvisited_cons hs (by simpa using _h))
    · -- A position without a node leads nowhere.
      rcases Nat.lt_or_eq_of_le (unvisited_cons_le chars path p.state) with h | h
      · exact .left _ _ h
      · rw [h, expand_eq_nil (Nat.le_of_not_lt hs) _he]
        exact .right _ (by simp)
  · exact .right _ (by simp)

/-! ### The machine and the recursion -/

namespace Progress

/-- Records tokens one after another. -/
def recordAll (g : Progress) (typed : Text) (ws : List Text) : Progress :=
  ws.foldl (fun g w => g.record typed w) g

theorem recordAll_append (g : Progress) (typed : Text) (ws ws' : List Text) :
    g.recordAll typed (ws ++ ws') = (g.recordAll typed ws).recordAll typed ws' := List.foldl_append

/-- Recording has nothing to do with the path. -/
theorem record_withPath (g : Progress) (path : List Nat) (typed w : Text) :
    { g with path }.record typed w = { g.record typed w with path } := by
  simp only [record]
  split <;> rfl

theorem recordAll_withPath (g : Progress) (path : List Nat) (typed : Text) (ws : List Text) :
    { g with path }.recordAll typed ws = { g.recordAll typed ws with path } := by
  induction ws generalizing g with
  | nil => rfl
  | cons w ws ih =>
    simp only [recordAll, List.foldl_cons, record_withPath] at ih ⊢
    exact ih (g.record typed w)

theorem path_recordAll (g : Progress) (typed : Text) (ws : List Text) :
    (g.recordAll typed ws).path = g.path := by
  induction ws generalizing g with
  | nil => rfl
  | cons w ws ih =>
    simp only [recordAll, List.foldl_cons] at ih ⊢
    rw [ih, path_record]

theorem withPath_self {g : Progress} {path : List Nat} (h : g.path = path) :
    { g with path } = g := by
  rw [← h]

theorem found_record (g : Progress) (typed w : Text) :
    (g.record typed w).found = g.found.insert (tail typed w) := by
  simp only [record, Roster.insert]
  split <;> rfl

theorem found_recordAll (g : Progress) (typed : Text) (ws : List Text) :
    (g.recordAll typed ws).found = g.found.insertAll (ws.map (tail typed)) := by
  induction ws generalizing g with
  | nil => rfl
  | cons w ws ih =>
    simp only [recordAll, Roster.insertAll, List.map_cons, List.foldl_cons] at ih ⊢
    rw [ih, found_record]

end Progress

theorem run_of_done (h : step t g stack = .done) : run t g stack = ⟨g, none⟩ := by
  rw [run]
  split <;> simp_all

theorem run_of_fail (h : step t g stack = .fail g' fault) : run t g stack = ⟨g', some fault⟩ := by
  rw [run]
  split <;> simp_all

theorem run_of_go (h : step t g stack = .go g' stack') : run t g stack = run t g' stack' := by
  rw [run]
  split <;> simp_all

theorem step_blocked {p : Point} (h : g.path.contains p.state = true) :
    step t g (.enter p :: stack) = .go g stack := by
  simp only [step, h, if_true]

/-- Entering a point records the token that ends there and goes on with what its moves lead to. -/
theorem step_enter {p : Point} {next : List Point} (h : g.path.contains p.state = false)
    (he : expand t.chars t.preference p = .ok next) : step t g (.enter p :: stack) =
      .go { g.recordAll t.typed (tokenAt t.chars p) with path := p.state :: g.path }
        (next.map .enter ++ .leave p.state :: stack) := by
  simp only [step, h, he, tokenAt, Bool.false_eq_true, if_false]
  cases !p.soFar.isEmpty && t.chars.isFinal p.state with
  | true =>
    simp only [if_true, Progress.record_withPath]
    rfl
  | false => rfl

theorem step_leave {s : Nat} :
    step t { g with path := s :: path } (.leave s :: stack) = .go { g with path } stack := by
  simp [step]

/-- A point is worked off as soon as what its moves lead to is. -/
theorem run_enter {p : Point} {next : List Point} {inner : List Text}
    (h : g.path.contains p.state = false) (he : expand t.chars t.preference p = .ok next)
    (hin : ∀ g' stack, g'.path = p.state :: g.path → run t g' (next.map .enter ++ stack) =
      run t (g'.recordAll t.typed inner) stack) (stack : List Frame) :
    run t g (.enter p :: stack) =
      run t (g.recordAll t.typed (tokenAt t.chars p ++ inner)) stack := by
  rw [run_of_go (step_enter h he), hin _ _ rfl, Progress.recordAll_withPath, run_of_go step_leave,
    ← Progress.recordAll_append, Progress.withPath_self (Progress.path_recordAll g _ _)]

/-- The machine works off the points on top of its stack as the recursion does. -/
theorem run_enters (h : enumerate t.chars t.preference g.path points = .ok ws)
    (stack : List Frame) :
    run t g (points.map .enter ++ stack) = run t (g.recordAll t.typed ws) stack := by
  generalize hpath : g.path = path at h
  fun_induction enumerate t.chars t.preference path points generalizing ws g stack with
  | case1 path =>
    injection h with h
    subst h
    rfl
  | case2 path p points hp ih =>
    rw [← ih stack hpath h]
    exact run_of_go (step_blocked (hpath ▸ hp))
  | case3 path p points hp fault he => simp at h
  | case4 path p points hp next he ihin ihrest =>
    obtain ⟨inner, hin, h⟩ := Outcome.bind_eq_ok.1 h
    obtain ⟨others, ho, hws⟩ := Outcome.bind_eq_ok.1 h
    injection hws with hws
    subst hws
    rw [Progress.recordAll_append, ← ihrest stack (by rw [Progress.path_recordAll, hpath]) ho]
    exact run_enter (hpath ▸ by simpa using hp) he
      (fun g' stack hg' => ihin stack (hg'.trans (by rw [hpath])) hin) _

theorem run_enters_fault (h : enumerate t.chars t.preference g.path points = .error fault)
    (stack : List Frame) : (run t g (points.map .enter ++ stack)).fault = some fault := by
  generalize hpath : g.path = path at h
  fun_induction enumerate t.chars t.preference path points generalizing g stack with
  | case1 path => simp at h
  | case2 path p points hp ih =>
    rw [← ih stack hpath h]
    exact congrArg Ended.fault (run_of_go (step_blocked (hpath ▸ hp)))
  | case3 path p points hp fault' he =>
    injection h with h
    subst h
    have hp' : g.path.contains p.state = false := hpath ▸ by simpa using hp
    have hfail : ∃ g', step t g (.enter p :: (points.map .enter ++ stack)) = .fail g' fault' := by
      simp only [step, hp', he, Bool.false_eq_true, if_false]
      exact ⟨_, rfl⟩
    obtain ⟨g', hfail⟩ := hfail
    exact congrArg Ended.fault (run_of_fail hfail)
  | case4 path p points hp next he ihin ihrest =>
    have hp' : g.path.contains p.state = false := hpath ▸ by simpa using hp
    obtain hin | ⟨inner, hin, h⟩ := Outcome.bind_eq_error.1 h
    · rw [List.map_cons, List.cons_append, run_of_go (step_enter hp' he)]
      exact ihin _ (by rw [hpath]) hin
    · obtain ho | ⟨others, -, hok⟩ := Outcome.bind_eq_error.1 h
      · have hinner : ∀ g' stack, g'.path = p.state :: g.path →
            run t g' (next.map .enter ++ stack) = run t (g'.recordAll t.typed inner) stack :=
          fun g' stack hg' => run_enters (by rw [hg', hpath, hin]) stack
        rw [List.map_cons, List.cons_append, run_enter hp' he hinner]
        exact ihrest stack (by rw [Progress.path_recordAll, hpath]) ho
      · cases hok

/-! ### Kind by kind -/

/-- The tokens of the given kinds that start as what is typed, in order and with repetitions. -/
def words (t : Task) : List Int → Except Fault (List Text)
  | [] => .ok []
  | kind :: kinds =>
    match t.entry kind with
    | none => words t kinds
    | some entry => do
      let first ← enumerate t.chars t.preference [] [⟨entry, [], t.typed⟩]
      let others ← words t kinds
      return first ++ others

/-- Completing kinds on an empty path finds the tails of their words. -/
theorem outcome_complete (kinds : List Int) (h : g.path = []) :
    (complete t g kinds).outcome =
      (words t kinds).map fun ws => (g.found.insertAll (ws.map (tail t.typed))).toList := by
  induction kinds generalizing g with
  | nil => rfl
  | cons kind kinds ih =>
    simp only [complete, words]
    cases t.entry kind with
    | none => exact ih h
    | some entry =>
      simp only [walk]
      cases he : enumerate t.chars t.preference [] [⟨entry, [], t.typed⟩] with
      | error fault =>
        have hfault : (run t g [.enter ⟨entry, [], t.typed⟩]).fault = some fault :=
          run_enters_fault (h ▸ he) []
        simp only [hfault, Ended.outcome, bind, Except.bind, Except.map]
      | ok first =>
        have hrun : run t g [.enter ⟨entry, [], t.typed⟩] = ⟨g.recordAll t.typed first, none⟩ :=
          (run_enters (h ▸ he) []).trans (run_of_done rfl)
        simp only [hrun]
        rw [ih ((Progress.path_recordAll g _ _).trans h), Progress.found_recordAll]
        cases words t kinds with
        | error fault => rfl
        | ok others => simp [bind, Except.bind, pure, Except.pure, Except.map, Roster.insertAll]

/-- Completing kinds from nothing finds the tails of their words, each once. -/
theorem outcome_complete_empty (kinds : List Int) :
    (complete t {} kinds).outcome =
      (words t kinds).map fun ws => (ws.map (tail t.typed)).eraseDups := by
  rw [outcome_complete kinds rfl]
  simp only [Roster.toList_insertAll_empty]

end Typeahead.Completion
