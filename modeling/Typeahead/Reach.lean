import Typeahead.Measure

/-!
What can be reached by following `next` from a list of starting things, depth first. Each thing
stands at a point, and no point is visited twice. Points that are not `inside` are reached but not
left again; there are finitely many points inside, so the search ends.
-/
namespace Typeahead

/-- Points that may be followed further, of which there are finitely many. -/
structure Region (α : Type) where
  inside : α → Bool
  finite : ∃ all : List α, ∀ x, inside x = true → x ∈ all

namespace Region

variable {α : Type}

/-- A list of everything inside. -/
noncomputable def points (r : Region α) : List α := r.finite.choose

theorem mem_points (r : Region α) {x : α} (h : r.inside x = true) : x ∈ r.points :=
  r.finite.choose_spec x h

/-- The positions below `n`. -/
def below (n : Nat) : Region Nat := ⟨fun x => x < n, List.range n, by simp⟩

variable [DecidableEq α]

/-- Points inside that were not seen yet. -/
noncomputable def unseen (r : Region α) (seen : List α) : Nat :=
  r.points.countP fun x => r.inside x && !seen.contains x

theorem unseen_cons_le (r : Region α) (seen : List α) (x : α) :
    r.unseen (x :: seen) ≤ r.unseen seen := by
  apply List.countP_mono_left
  intro y _
  simp
  intro h _ hy
  exact ⟨h, hy⟩

theorem unseen_cons_lt (r : Region α) {seen : List α} {x : α} (h : r.inside x = true)
    (hx : seen.contains x = false) : r.unseen (x :: seen) < r.unseen seen := by
  apply countP_lt_countP (a := x)
  · intro y _
    simp
    intro h _ hy
    exact ⟨h, hy⟩
  · exact r.mem_points h
  · simp
  · simpa [h] using hx

variable {β : Type}

/-- The things reached from `work`, after those in `seen` (latest first). Of the things at one point
only the first counts. -/
def explore (r : Region α) (point : β → α) (next : β → List β) (seen : List β) : List β → List β
  | [] => seen.reverse
  | x :: work =>
    if _hs : (seen.map point).contains (point x) then r.explore point next seen work
    else if _hi : r.inside (point x) then r.explore point next (x :: seen) (next x ++ work)
    else r.explore point next (x :: seen) work
termination_by work => (r.unseen (seen.map point), work.length)
decreasing_by
  · exact .right _ (by simp)
  · exact .left _ _ (r.unseen_cons_lt _hi (by simpa using _hs))
  · rcases Nat.lt_or_eq_of_le (r.unseen_cons_le (seen.map point) (point x)) with h | h
    · exact .left _ _ h
    · rw [List.map_cons, h]
      exact .right _ (by simp)

/-- The things reached from `start`, in order of discovery. -/
def reach (r : Region α) (point : β → α) (next : β → List β) (start : List β) : List β :=
  r.explore point next [] start

end Region
end Typeahead
