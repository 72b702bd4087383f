import Typeahead.Automaton
import Typeahead.Frontier.Marks

/-!
The search for the frontier: the states of the token automaton that are reached once every token
has been consumed. It goes depth first over pairs of a state and a token index. A state is entered
again on the same path only after a token was consumed since its last entry; marks are put back
when the search backs out, so branches do not see each other's visits.

The search runs on an explicit stack and may be abandoned between two finds.
-/
namespace Typeahead.Frontier

/-- Work left to do. -/
inductive Frame where
  | enter (state index : Nat)
  /-- Back out of `state`, which was marked with `previous` before. -/
  | leave (state : Nat) (previous : Option Nat)
deriving DecidableEq, Repr

structure Search where
  marks : Marks
  /-- The next frame to work on comes first. -/
  stack : List Frame
  /-- The frontier states found so far, in order of discovery. -/
  found : List Nat
deriving DecidableEq, Repr

/-- What one step of a search leads to. -/
inductive Next where
  | done
  | go (c : Search)
  | fail (c : Search) (fault : Fault)

namespace Search

/-- A search from `start` on marks that earlier searches may have left. -/
def begin (marks : Marks) (start : Nat) : Search := ⟨marks, [.enter start 0], []⟩

end Search

/-- Where one move leads when the token at `index` has the given kind. -/
def advanceBy (index : Nat) (kind : Option Int) : Move → Option (Nat × Nat)
  | .epsilon t => some (t, index)
  | m => if m.takes kind then some (m.target, index + 1) else none

/-- Where the moves of `s` lead, in order. -/
def advance (a : Automaton) (s index : Nat) (kind : Option Int) :
    Except Fault (List (Nat × Nat)) :=
  match (a.moves s).findSome? (a.obstacle? s kind) with
  | some fault => .error fault
  | none => .ok ((a.moves s).filterMap (advanceBy index kind))

/-- One step of the search for the frontier of tokens of the given kinds. -/
def step (a : Automaton) (kinds : List (Option Int)) (c : Search) : Next :=
  match c.stack with
  | [] => .done
  | .leave s previous :: rest => .go { c with marks := c.marks.restore s previous, stack := rest }
  | .enter s index :: rest =>
    if c.marks.get? s = some index then
      .go { c with stack := rest }
    else
      let marks := c.marks.set s index
      let stack := .leave s (c.marks.get? s) :: rest
      match kinds[index]? with
      | none => .go ⟨marks, stack, if c.found.contains s then c.found else c.found ++ [s]⟩
      | some kind =>
        match advance a s index kind with
        | .error fault => .fail ⟨marks, stack, c.found⟩ fault
        | .ok targets => .go ⟨marks, targets.map (fun p => .enter p.1 p.2) ++ stack, c.found⟩

/-! ### Every search ends -/

/-- The states not marked with `index`. -/
def unmarked (a : Automaton) (m : Marks) (index : Nat) : Nat :=
  (List.range a.size).countP fun s => m.get? s != some index

/-- Falls with every move: consuming a token leaves fewer tokens, any other move leaves fewer states
that may be entered. -/
def rank (a : Automaton) (tokens : Nat) (m : Marks) (index : Nat) : Nat :=
  (tokens - index) * (a.size + 1) + unmarked a m index

/-- All moves of the automaton, a bound on the moves of a state. -/
def breadth (a : Automaton) : Nat := a.total fun _ => 1

/-- A bound on the steps spent on what is entered at a given rank. -/
def cost (a : Automaton) (rank : Nat) : Nat := treeCost (breadth a) rank

/-- A bound on the steps left: each frame is charged under the marks that will hold when it is
reached. -/
def weight (a : Automaton) (tokens : Nat) (m : Marks) : List Frame → Nat
  | [] => 0
  | .leave s previous :: rest => 1 + weight a tokens (m.restore s previous) rest
  | .enter _ index :: rest => cost a (rank a tokens m index) + weight a tokens m rest

variable {a : Automaton} {kinds : List (Option Int)} {m : Marks} {s index t i : Nat}
  {c c' : Search}

theorem unmarked_le (a : Automaton) (m : Marks) (index : Nat) : unmarked a m index ≤ a.size := by
  simpa [unmarked] using List.countP_le_length (p := fun s => m.get? s != some index)
    (l := List.range a.size)

theorem unmarked_set (hs : s < a.size) (h : m.get? s ≠ some index) :
    unmarked a (m.set s index) index < unmarked a m index := by
  apply countP_lt_countP (a := s)
  · intro x _
    by_cases hx : x = s <;> simp [Marks.get?_set, hx]
  · simpa using hs
  · simp [Marks.get?_set]
  · simpa using h

/-- Every pair that a state leads to has a smaller rank than the state had before it was marked. -/
theorem rank_advance {kind : Option Int} {targets : List (Nat × Nat)} (hk : kinds[index]? = some kind)
    (h : m.get? s ≠ some index) (ha : advance a s index kind = .ok targets)
    (ht : (t, i) ∈ targets) :
    rank a kinds.length (m.set s index) i < rank a kinds.length m index := by
  have hindex : index < kinds.length := (List.getElem?_eq_some_iff.1 hk).1
  simp only [advance] at ha
  split at ha
  · simp at ha
  · injection ha with ha
    subst ha
    obtain ⟨move, hm, hto⟩ := List.mem_filterMap.1 ht
    have hsize := Automaton.lt_size_of_mem_moves hm
    have hset := unmarked_set hsize h
    have hle := unmarked_le a (m.set s index) (index + 1)
    have hconsumed : rank a kinds.length (m.set s index) (index + 1) <
        rank a kinds.length m index := by
      have : kinds.length - index = (kinds.length - (index + 1)) + 1 := by omega
      simp only [rank, this, Nat.add_mul]
      omega
    cases move <;> simp only [advanceBy] at hto
    case epsilon =>
      simp only [Option.some.injEq, Prod.mk.injEq] at hto
      obtain ⟨-, rfl⟩ := hto
      simp only [rank]
      omega
    all_goals
      split at hto
      · simp only [Option.some.injEq, Prod.mk.injEq] at hto
        obtain ⟨-, rfl⟩ := hto
        exact hconsumed
      · simp at hto

theorem length_advance {kind : Option Int} {targets : List (Nat × Nat)}
    (ha : advance a s index kind = .ok targets) : targets.length ≤ breadth a := by
  simp only [advance] at ha
  split at ha
  · simp at ha
  · injection ha with ha
    subst ha
    have h := a.sumOver_moves_le_total (fun _ => 1) s
    rw [sumOver_one] at h
    exact Nat.le_trans (List.length_filterMap_le _ _) h

/-- Entering pairs of rank at most `r` is charged at most `cost a r` each. -/
theorem weight_enter_le {tokens r : Nat} {targets : List (Nat × Nat)} (rest : List Frame)
    (h : ∀ p ∈ targets, rank a tokens m p.2 ≤ r) :
    weight a tokens m (targets.map (fun p => .enter p.1 p.2) ++ rest) ≤
      targets.length * cost a r + weight a tokens m rest := by
  induction targets with
  | nil => simp
  | cons p targets ih =>
    have hp := treeCost_mono (breadth a) (h p List.mem_cons_self)
    have := ih fun q hq => h q (List.mem_cons_of_mem p hq)
    simp only [List.map_cons, List.cons_append, weight, cost, List.length_cons, Nat.add_mul] at *
    omega

/-- What a state leads to is charged less than entering the state. -/
theorem weight_advance {kind : Option Int} {targets : List (Nat × Nat)}
    (hk : kinds[index]? = some kind) (h : m.get? s ≠ some index)
    (ha : advance a s index kind = .ok targets) (rest : List Frame) :
    weight a kinds.length (m.set s index) (targets.map (fun p => .enter p.1 p.2) ++ rest) + 1 <
      cost a (rank a kinds.length m index) + weight a kinds.length (m.set s index) rest := by
  have hrank : ∀ p ∈ targets, rank a kinds.length (m.set s index) p.2 ≤
      rank a kinds.length m index - 1 := by
    intro p hp
    have := rank_advance hk h ha hp
    omega
  have hle := weight_enter_le rest hrank
  have hlt : targets.length = 0 ∨ rank a kinds.length m index - 1 <
      rank a kinds.length m index := by
    cases targets with
    | nil => exact Or.inl rfl
    | cons p targets =>
      have := rank_advance hk h ha List.mem_cons_self
      exact Or.inr (by omega)
  have hmul := mul_treeCost_lt (length_advance ha) hlt
  simp only [cost] at hle ⊢
  omega

/-- Every step lowers the weight. -/
theorem weight_step (h : step a kinds c = .go c') :
    weight a kinds.length c'.marks c'.stack < weight a kinds.length c.marks c.stack := by
  simp only [step] at h
  split at h
  · simp at h
  · injection h with h
    subst h
    rename_i heq
    simp [heq, weight]
  · rename_i s index rest heq
    have hcost := one_lt_treeCost (breadth a) (rank a kinds.length c.marks index)
    split at h
    · injection h with h
      subst h
      simp only [heq, weight, cost]
      omega
    · rename_i hmark
      split at h
      · injection h with h
        subst h
        simp only [heq, weight, cost, Marks.restore_set]
        omega
      · rename_i kind hkind
        split at h
        · simp at h
        · rename_i targets hadv
          injection h with h
          subst h
          have hlt := weight_advance hkind hmark hadv (.leave s (c.marks.get? s) :: rest)
          simp only [heq, weight, Marks.restore_set] at hlt ⊢
          omega

/-! ### Running a search -/

/-- A search that was run, and the fault it met, if any. -/
structure Ended where
  search : Search
  fault : Option Fault

/-- Runs a search until it is done or fails, or until it has found as many states as were asked
for. -/
def run (a : Automaton) (kinds : List (Option Int)) (limit : Option Nat) (c : Search) : Ended :=
  if limit = some c.found.length then ⟨c, none⟩
  else
    match _h : step a kinds c with
    | .done => ⟨c, none⟩
    | .fail c' fault => ⟨c', some fault⟩
    | .go c' => run a kinds limit c'
termination_by weight a kinds.length c.marks c.stack
decreasing_by exact weight_step _h

theorem run_of_done (h : step a kinds c = .done) : run a kinds none c = ⟨c, none⟩ := by
  rw [run, if_neg (by simp)]
  split <;> simp_all

theorem run_of_fail {fault : Fault} (h : step a kinds c = .fail c' fault) :
    run a kinds none c = ⟨c', some fault⟩ := by
  rw [run, if_neg (by simp)]
  split <;> simp_all

theorem run_of_go (h : step a kinds c = .go c') : run a kinds none c = run a kinds none c' := by
  rw [run, if_neg (by simp)]
  split <;> simp_all

/-- Searches one after another, each from its own start and with its own limit, on the marks that the
one before it has left. -/
def runEach (a : Automaton) (kinds : List (Option Int)) (marks : Marks) :
    List (Nat × Option Nat) → List Ended
  | [] => []
  | (start, limit) :: rest =>
    let ended := run a kinds limit (.begin marks start)
    ended :: runEach a kinds ended.search.marks rest

/-- The whole frontier, searched without earlier marks. -/
def all (a : Automaton) (kinds : List (Option Int)) (start : Nat) : Ended :=
  run a kinds none (.begin {} start)

end Typeahead.Frontier
