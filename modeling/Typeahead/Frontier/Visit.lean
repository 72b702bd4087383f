import Typeahead.Frontier.Search
import Typeahead.Traced

/-!
Frontier states dealt with one by one, each as soon as the search finds it. Work that fails ends the
search, so nothing is searched for that nobody will look at. Otherwise the result is that of a search
run to its end and a pass over what it found.
-/
namespace Typeahead.Frontier

variable {μ : Type}

/-- Runs a search and hands every state to `visit` when it is found, with what earlier visits have
made of `m`. -/
def visitEach (a : Automaton) (kinds : List (Option Int)) (visit : μ → Nat → Traced μ) (m : μ)
    (c : Search) : Traced μ :=
  match _h : step a kinds c with
  | .done => pure m
  | .fail _ fault => Traced.lift (.error fault)
  | .go c' =>
    match c'.found[c.found.length]? with
    | none => visitEach a kinds visit m c'
    | some s => do
      let m ← visit m s
      visitEach a kinds visit m c'
termination_by weight a kinds.length c.marks c.stack
decreasing_by all_goals exact weight_step _h

/-- How an ended search hands on what was made of its finds. -/
def Ended.finish (e : Ended) (m : μ) : Traced μ :=
  match e.fault with
  | some fault => Traced.lift (.error fault)
  | none => pure m

variable {a : Automaton} {kinds : List (Option Int)} {c c' : Search}

/-- A step finds at most one state. -/
theorem found_step (h : step a kinds c = .go c') :
    c'.found = c.found ∨ ∃ s, c'.found = c.found ++ [s] := by
  simp only [step] at h
  split at h
  · simp at h
  · injection h with h
    exact Or.inl (by rw [← h])
  · split at h
    · injection h with h
      exact Or.inl (by rw [← h])
    · split at h
      · injection h with h
        subst h
        simp only
        split
        · exact Or.inl rfl
        · exact Or.inr ⟨_, rfl⟩
      · split at h
        · simp at h
        · injection h with h
          exact Or.inl (by rw [← h])

theorem found_fail {fault : Fault} (h : step a kinds c = .fail c' fault) : c'.found = c.found := by
  simp only [step] at h
  split at h
  · simp at h
  · simp at h
  · split at h
    · simp at h
    · split at h
      · simp at h
      · split at h
        · injection h with h
          rw [← h]
        · simp at h

/-- A search only adds to what it has found. -/
theorem found_run (a : Automaton) (kinds : List (Option Int)) (c : Search) :
    ∃ l, (run a kinds none c).search.found = c.found ++ l := by
  cases h : step a kinds c with
  | done => exact ⟨[], by simp [run_of_done h]⟩
  | fail c' fault => exact ⟨[], by simp [run_of_fail h, found_fail h]⟩
  | go c' =>
    obtain ⟨l, hl⟩ := found_run a kinds c'
    rcases found_step h with hf | ⟨s, hf⟩
    · exact ⟨l, by rw [run_of_go h, hl, hf]⟩
    · exact ⟨s :: l, by rw [run_of_go h, hl, hf]; simp⟩
termination_by weight a kinds.length c.marks c.stack
decreasing_by exact weight_step ‹_›

/-- Visiting states as they are found is visiting them all and then meeting the fault of the search,
if there is one. -/
theorem visitEach_eq (visit : μ → Nat → Traced μ) (m : μ) (c : Search) :
    visitEach a kinds visit m c =
      ((run a kinds none c).search.found.drop c.found.length).foldlM visit m >>=
        (run a kinds none c).finish := by
  rw [visitEach]
  split
  · rename_i h
    simp [run_of_done h, Ended.finish]
  · rename_i c' fault h
    simp [run_of_fail h, found_fail h, Ended.finish]
  · rename_i c' h
    obtain ⟨l, hl⟩ := found_run a kinds c'
    have ih := fun m => visitEach_eq visit m c'
    rw [run_of_go h]
    rcases found_step h with hf | ⟨s, hf⟩
    · rw [hf, List.getElem?_eq_none (Nat.le_refl _)]
      simp only [ih, hf]
    · have hs : c'.found[c.found.length]? = some s := by simp [hf]
      have hdrop : (run a kinds none c').search.found.drop c.found.length = s :: l := by
        simp [hl, hf]
      have hdrop' : (run a kinds none c').search.found.drop c'.found.length = l := by
        simp [hl]
      rw [hs, hdrop, List.foldlM_cons, bind_assoc]
      simp only [ih, hdrop']
termination_by weight a kinds.length c.marks c.stack
decreasing_by exact weight_step ‹_›

end Typeahead.Frontier
