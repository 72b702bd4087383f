/-!
Half-open intervals of whole numbers. They are kept as given: an interval may be empty or reversed
(both hold nothing), and a list of them may overlap.
-/
namespace Typeahead

/-- The numbers `x` with `start ≤ x < stop`. -/
structure Interval where
  start : Int
  stop : Int
deriving DecidableEq, Repr

namespace Interval

def contains (i : Interval) (x : Int) : Bool := i.start ≤ x && x < i.stop

/-- The members in increasing order. -/
def members (i : Interval) : List Int :=
  (List.range (i.stop - i.start).toNat).map fun n : Nat => i.start + n

/-- Every code point. -/
def codePoints : Interval := ⟨0, 0x110000⟩

/-- The least member that is not below `limit`. -/
def from? (i : Interval) (limit : Int) : Option Int :=
  let x := max i.start limit
  if x < i.stop then some x else none

@[simp] theorem contains_iff {i : Interval} {x : Int} :
    i.contains x = true ↔ i.start ≤ x ∧ x < i.stop := by
  simp [contains]

@[simp] theorem mem_members {i : Interval} {x : Int} :
    x ∈ i.members ↔ i.start ≤ x ∧ x < i.stop := by
  simp only [members, List.mem_map, List.mem_range]
  constructor
  · rintro ⟨n, hn, rfl⟩
    omega
  · intro h
    exact ⟨(x - i.start).toNat, by omega, by omega⟩

theorem from?_eq_none_iff {i : Interval} {limit : Int} :
    i.from? limit = none ↔ ∀ x ∈ i.members, x < limit := by
  simp only [from?, mem_members]
  split
  · simp only [reduceCtorEq, false_iff]
    intro h
    have := h (max i.start limit) ⟨by omega, by omega⟩
    omega
  · simp only [true_iff]
    intro x hx
    omega

end Interval
end Typeahead
