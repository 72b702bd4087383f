import Mathlib
import Typeahead.Proofs.Drain

/-!
The marks of a search are those of its active path: the pairs that were entered and not yet backed out of.
Every frame on the stack that backs out of a state carries the mark that the path below that entry makes,
so each mark is put back as it was, and a search that is run to its end leaves nothing behind. Searches one
after another therefore do not see each other.
-/
namespace Typeahead.Frontier

variable {a : Automaton} {kinds : List (Option Int)} {start s i : Nat} {c c' : Search} {e : Ended}
  {path : List (Nat × Nat)} {p q : Nat × Nat} {stack rest : List Frame}

/-! ### The active path -/

/-- The state that a frame backs out of. -/
def Frame.left? : Frame → Option Nat
  | .enter .. => none
  | .leave s _ => some s

/-- The states that the search has still to back out of, the latest first. -/
def Search.leaving (c : Search) : List Nat := c.stack.filterMap Frame.left?

/-- The active path after a step from `c` to `c'`, the latest pair first. Backing out of a state shortens
it, and an entry lengthens it unless it is cut, which leaves only the frames below it. -/
def Search.onward (c c' : Search) (path : List (Nat × Nat)) : List (Nat × Nat) :=
  match c.stack with
  | [] => path
  | .leave .. :: _ => path.tail
  | .enter s i :: rest => if c'.stack = rest then path else (s, i) :: path

/-- A search from `start` without earlier marks comes to `c` after some steps, on the given active path. -/
inductive Comes (a : Automaton) (kinds : List (Option Int)) (start : Nat) :
    Search → List (Nat × Nat) → Prop where
  | begin : Comes a kinds start (.begin {} start) []
  | go {c c' : Search} {path : List (Nat × Nat)} (h : Comes a kinds start c path)
      (hs : step a kinds c = .go c') : Comes a kinds start c' (c.onward c' path)

/-- Pairs that lead to each other from the start on, the latest first. -/
inductive Way (a : Automaton) (kinds : List (Option Int)) (start : Nat) : List (Nat × Nat) → Prop where
  | nil : Way a kinds start []
  | first : Way a kinds start [(start, 0)]
  | on {p q : Nat × Nat} {path : List (Nat × Nat)} (h : Way a kinds start (p :: path))
      (hm : Moves a kinds p q) : Way a kinds start (q :: p :: path)

theorem Way.tail (h : Way a kinds start path) : Way a kinds start path.tail := by
  cases h with
  | nil => exact .nil
  | first => exact .nil
  | on h _ => exact h

/-- The marks that the entries along a path make. -/
def marksAlong (path : List (Nat × Nat)) : Marks := path.foldr (fun p m => m.set p.1 p.2) {}

/-- Of several entries of a state the latest counts. -/
theorem get?_marksAlong (path : List (Nat × Nat)) (s : Nat) :
    (marksAlong path).get? s = path.lookup s := by
  induction path with
  | nil => rfl
  | cons p path ih =>
    have hcons : marksAlong (p :: path) = (marksAlong path).set p.1 p.2 := rfl
    rw [hcons, Marks.get?_set, ih, List.lookup_cons]
    by_cases hs : s = p.1
    · simp [hs]
    · have hne : (s == p.1) = false := beq_eq_false_iff_ne.2 hs
      simp [hs, hne]

/-! ### What is pending -/

/-- What a stack still does on an active path. A frame that backs out of the latest pair puts back the mark
that the rest of the path makes; the pairs that are entered before that are where the latest pair leads. -/
inductive Pending (a : Automaton) (kinds : List (Option Int)) (start : Nat) :
    List (Nat × Nat) → List Frame → Prop where
  | done : Pending a kinds start [] []
  | first : Pending a kinds start [] [.enter start 0]
  | enter {p q : Nat × Nat} {path : List (Nat × Nat)} {rest : List Frame} (hm : Moves a kinds p q)
      (h : Pending a kinds start (p :: path) rest) :
      Pending a kinds start (p :: path) (.enter q.1 q.2 :: rest)
  | leave {p : Nat × Nat} {path : List (Nat × Nat)} {rest : List Frame}
      (h : Pending a kinds start path rest) :
      Pending a kinds start (p :: path) (.leave p.1 (path.lookup p.1) :: rest)

namespace Pending

theorem path_eq_nil (h : Pending a kinds start path []) : path = [] := by
  cases h
  rfl

theorem leaving_eq (h : Pending a kinds start path stack) :
    stack.filterMap Frame.left? = path.map Prod.fst := by
  induction h with
  | done => rfl
  | first => rfl
  | enter _ _ ih => rw [List.filterMap_cons_none rfl, ih]
  | @leave p path rest _ ih =>
    have hleft : Frame.left? (.leave p.1 (path.lookup p.1)) = some p.1 := rfl
    rw [List.filterMap_cons_some hleft, ih, List.map_cons]

/-- Behind an entry that is cut, the rest is still to be done on the same path. -/
theorem tail (h : Pending a kinds start path (.enter s i :: rest)) :
    Pending a kinds start path rest := by
  cases h with
  | first => exact .done
  | enter _ h => exact h

/-- A pair that is entered goes on from the path. -/
theorem way (h : Pending a kinds start path (.enter s i :: rest)) (hw : Way a kinds start path) :
    Way a kinds start ((s, i) :: path) := by
  cases h with
  | first => exact .first
  | enter hm _ => exact .on hw hm

theorem enters {targets : List (Nat × Nat)} (h : Pending a kinds start (p :: path) rest)
    (ht : ∀ q ∈ targets, Moves a kinds p q) :
    Pending a kinds start (p :: path) (Frontier.enters targets ++ rest) := by
  induction targets with
  | nil => exact h
  | cons q targets ih =>
    obtain ⟨hq, ht⟩ := List.forall_mem_cons.1 ht
    exact .enter hq (ih ht)

end Pending

/-- The marks are those of the active path, and so is what is still to be done. -/
structure OnPath (a : Automaton) (kinds : List (Option Int)) (start : Nat) (c : Search)
    (path : List (Nat × Nat)) : Prop where
  way : Way a kinds start path
  marks : c.marks = marksAlong path
  pending : Pending a kinds start path c.stack

/-! ### One step, and all of them -/

/-- What a step can do to the marks and the stack: back out of a state, cut an entry, or enter a pair and
plan to enter those that it leads to, none if no token is left. -/
theorem step_cases (h : step a kinds c = .go c') :
    (∃ s previous rest, c.stack = .leave s previous :: rest ∧
      c'.marks = c.marks.restore s previous ∧ c'.stack = rest) ∨
    (∃ s i rest, c.stack = .enter s i :: rest ∧ c.marks.get? s = some i ∧
      c'.marks = c.marks ∧ c'.stack = rest) ∨
    ∃ s i rest targets, c.stack = .enter s i :: rest ∧ c.marks.get? s ≠ some i ∧
      (∀ q ∈ targets, Moves a kinds (s, i) q) ∧ c'.marks = c.marks.set s i ∧
      c'.stack = enters targets ++ .leave s (c.marks.get? s) :: rest := by
  simp only [step] at h
  split at h
  · simp at h
  · rename_i s previous rest hstack
    injection h with h
    subst h
    exact Or.inl ⟨s, previous, rest, hstack, rfl, rfl⟩
  · rename_i s i rest hstack
    split at h
    · rename_i hmark
      injection h with h
      subst h
      exact Or.inr (Or.inl ⟨s, i, rest, hstack, hmark, rfl, rfl⟩)
    · rename_i hmark
      split at h
      · injection h with h
        subst h
        exact Or.inr (Or.inr ⟨s, i, rest, [], hstack, hmark, by simp, rfl, rfl⟩)
      · rename_i kind hkind
        split at h
        · simp at h
        · rename_i targets ha
          injection h with h
          subst h
          exact Or.inr (Or.inr ⟨s, i, rest, targets, hstack, hmark,
            fun q hq => (moves_of_advance hkind ha).1 hq, rfl, rfl⟩)

theorem onPath_begin (a : Automaton) (kinds : List (Option Int)) (start : Nat) :
    OnPath a kinds start (.begin {} start) [] :=
  ⟨.nil, rfl, .first⟩

theorem OnPath.step (h : OnPath a kinds start c path) (hs : step a kinds c = .go c') :
    OnPath a kinds start c' (c.onward c' path) := by
  obtain ⟨hway, hmarks, hpending⟩ := h
  obtain ⟨s, previous, rest, hstack, hm, hr⟩ | ⟨s, i, rest, hstack, -, hm, hr⟩ |
    ⟨s, i, rest, targets, hstack, -, ht, hm, hr⟩ := step_cases hs
  · -- The frame carries the mark of the path below, so the entry is undone exactly.
    have honward : c.onward c' path = path.tail := by simp [Search.onward, hstack]
    rw [hstack] at hpending
    rw [honward]
    cases hpending with
    | @leave p path rest hpending =>
      refine ⟨hway.tail, ?_, hr ▸ hpending⟩
      rw [hm, hmarks, ← get?_marksAlong]
      exact Marks.restore_set (marksAlong path) p.1 p.2
  · have honward : c.onward c' path = path := by simp [Search.onward, hstack, hr]
    rw [hstack] at hpending
    rw [honward]
    exact ⟨hway, hm.trans hmarks, hr ▸ hpending.tail⟩
  · have hpushed : c'.stack ≠ rest := by
      intro h
      have hlength := congrArg List.length (hr.symm.trans h)
      rw [List.length_append, List.length_cons] at hlength
      omega
    have honward : c.onward c' path = (s, i) :: path := by simp [Search.onward, hstack, hpushed]
    rw [hstack] at hpending
    rw [honward]
    refine ⟨hpending.way hway, ?_, ?_⟩
    · rw [hm, hmarks]
      rfl
    · rw [hr, hmarks, get?_marksAlong]
      exact Pending.enters (.leave hpending.tail) ht

theorem Comes.onPath (h : Comes a kinds start c path) : OnPath a kinds start c path := by
  induction h with
  | begin => exact onPath_begin a kinds start
  | go _ hs ih => exact ih.step hs

/-! ### Searches run to their end -/

theorem stack_of_done (h : step a kinds c = .done) : c.stack = [] := by
  simp only [step] at h
  split at h
  · assumption
  · simp at h
  · split at h
    · simp at h
    · split at h
      · simp at h
      · split at h <;> simp at h

/-- A search that does not fail ends with nothing left on the stack. -/
theorem Comes.drained (hc : Comes a kinds start c path) (hd : Drains a kinds c e)
    (he : e.fault = none) :
    ∃ path', Comes a kinds start e.search path' ∧ e.search.stack = [] := by
  induction hd generalizing path with
  | done h => exact ⟨path, hc, stack_of_done h⟩
  | fail h => simp at he
  | go h _ ih => exact ih (hc.go h) he

theorem marks_all (h : (all a kinds start).fault = none) : (all a kinds start).search.marks = {} := by
  obtain ⟨path, hc, hstack⟩ := Comes.begin.drained (drains_run a kinds (.begin {} start)) h
  have honpath := hc.onPath
  have hpending := honpath.pending
  rw [hstack] at hpending
  obtain rfl := hpending.path_eq_nil
  exact honpath.marks

/-- Searches from one start after another, each run to its end on the marks that the one before it has
left. -/
def drainEach (a : Automaton) (kinds : List (Option Int)) (starts : List Nat) : List Ended :=
  runEach a kinds {} (starts.map fun start => (start, none))

theorem drainEach_cons {starts : List Nat} (h : (all a kinds start).fault = none) :
    drainEach a kinds (start :: starts) = all a kinds start :: drainEach a kinds starts := by
  have hmarks := marks_all h
  change all a kinds start :: runEach a kinds (all a kinds start).search.marks _ = _
  rw [hmarks]
  rfl

/-- Searches that are run to their end do as if each were the first. -/
theorem drainEach_eq_map {starts : List Nat} (h : ∀ start ∈ starts, (all a kinds start).fault = none) :
    drainEach a kinds starts = starts.map (all a kinds) := by
  induction starts with
  | nil => rfl
  | cons start starts ih =>
    obtain ⟨hstart, hstarts⟩ := List.forall_mem_cons.1 h
    rw [drainEach_cons hstart, ih hstarts, List.map_cons]

theorem fault_all_of_drainEach {starts : List Nat}
    (h : ∀ e ∈ drainEach a kinds starts, e.fault = none) :
    ∀ start ∈ starts, (all a kinds start).fault = none := by
  induction starts with
  | nil => simp
  | cons start starts ih =>
    have hstart : (all a kinds start).fault = none := h _ List.mem_cons_self
    rw [drainEach_cons hstart] at h
    exact List.forall_mem_cons.2 ⟨hstart, ih (List.forall_mem_cons.1 h).2⟩

/-- At every step of a search that begins without marks, the active path leads on from the start, its states
are those of the frames that back out, and a state is marked exactly if it is on the path, with the token
index of its latest entry. Searches of tokens that have kinds do not fail, and searches that do not fail
leave no marks and find what a first search would find. -/
theorem marks_of_active_path (hp : a.Plain) (kinds : List (Option Int)) (starts : List Nat) :
    (∀ start c path, Comes a kinds start c path → Way a kinds start path ∧
      c.leaving = path.map Prod.fst ∧ ∀ s, c.marks.get? s = path.lookup s) ∧
    (∀ w : List Int, kinds = w.map some → ∀ e ∈ drainEach a kinds starts, e.fault = none) ∧
    ((∀ e ∈ drainEach a kinds starts, e.fault = none) →
      (∀ e ∈ drainEach a kinds starts, e.search.marks = {}) ∧
        drainEach a kinds starts = starts.map (all a kinds)) := by
  refine ⟨fun start c path hc => ?_, ?_, fun h => ?_⟩
  · obtain ⟨hway, hmarks, hpending⟩ := hc.onPath
    refine ⟨hway, hpending.leaving_eq, fun s => ?_⟩
    rw [hmarks, get?_marksAlong]
  · rintro w rfl e he
    have hnone : ∀ start ∈ starts, (all a (w.map some) start).fault = none :=
      fun start _ => fault_eq_none_of_plain hp w start
    rw [drainEach_eq_map hnone] at he
    obtain ⟨start, hstart, rfl⟩ := List.mem_map.1 he
    exact hnone start hstart
  · have hnone := fault_all_of_drainEach h
    have hmap := drainEach_eq_map hnone
    refine ⟨fun e he => ?_, hmap⟩
    rw [hmap] at he
    obtain ⟨start, hstart, rfl⟩ := List.mem_map.1 he
    exact marks_all (hnone start hstart)

/-- Two states in a circle; coming back to the first takes a token or none. -/
def circle : Automaton := ⟨#[⟨0, [.epsilon 1]⟩, ⟨1, [.epsilon 0, .atomic 1 0]⟩]⟩

/-- Once around the circle the first state is on the path twice and marked with its later entry, whose
frame keeps the earlier mark. -/
theorem circle_entered_twice :
    (∃ c, Comes circle [some 1] 0 c [(0, 1), (1, 0), (0, 0)] ∧
      c.stack = [.leave 0 (some 0), .leave 1 none, .leave 0 none] ∧
      c.marks.get? 0 = some 1 ∧ c.marks.get? 1 = some 0) ∧
    drainEach circle [some 1] [1, 0, 1] = [1, 0, 1].map (all circle [some 1]) := by
  obtain ⟨hsteps, hfault, hfresh⟩ := marks_of_active_path (a := circle)
    (Automaton.plain_of_lt (by decide)) [some 1] [1, 0, 1]
  have hfirst : Comes circle [some 1] 0 ⟨⟨[(0, 0)]⟩, [.enter 1 0, .leave 0 none], []⟩ [(0, 0)] :=
    Comes.begin.go rfl
  have hsecond : Comes circle [some 1] 0
      ⟨⟨[(0, 0), (1, 0)]⟩, [.enter 0 0, .enter 0 1, .leave 1 none, .leave 0 none], []⟩
      [(1, 0), (0, 0)] := hfirst.go rfl
  have hcut : Comes circle [some 1] 0
      ⟨⟨[(0, 0), (1, 0)]⟩, [.enter 0 1, .leave 1 none, .leave 0 none], []⟩ [(1, 0), (0, 0)] :=
    hsecond.go rfl
  have hagain : Comes circle [some 1] 0
      ⟨⟨[(0, 1), (1, 0)]⟩, [.leave 0 (some 0), .leave 1 none, .leave 0 none], [0]⟩
      [(0, 1), (1, 0), (0, 0)] := hcut.go rfl
  obtain ⟨-, -, hmarks⟩ := hsteps _ _ _ hagain
  exact ⟨⟨_, hagain, rfl, hmarks 0, hmarks 1⟩, (hfresh (hfault [1] rfl)).2⟩

end Typeahead.Frontier
