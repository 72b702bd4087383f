/-!
The marks of a search: for each state on the active path, the token index of its last entry.
Putting an old mark back undoes a new one exactly.
-/
namespace Typeahead

structure Marks where
  /-- States with their indices, in the order in which the states were marked. -/
  entries : List (Nat × Nat) := []
deriving DecidableEq, Repr

namespace Marks

/-- The index in the first entry of `s`. -/
def indexOf? (s : Nat) : List (Nat × Nat) → Option Nat
  | [] => none
  | (t, j) :: rest => if s = t then some j else indexOf? s rest

/-- Writes the index of `s` in place, or at the end if there is none. -/
def put (s i : Nat) : List (Nat × Nat) → List (Nat × Nat)
  | [] => [(s, i)]
  | (t, j) :: rest => if s = t then (t, i) :: rest else (t, j) :: put s i rest

/-- Removes the entry of `s`. -/
def remove (s : Nat) : List (Nat × Nat) → List (Nat × Nat)
  | [] => []
  | (t, j) :: rest => if s = t then rest else (t, j) :: remove s rest

/-- The index under which `s` is marked. -/
def get? (m : Marks) (s : Nat) : Option Nat := indexOf? s m.entries

def set (m : Marks) (s i : Nat) : Marks := ⟨put s i m.entries⟩

def erase (m : Marks) (s : Nat) : Marks := ⟨remove s m.entries⟩

/-- Puts back the mark that `s` had before, if any. -/
def restore (m : Marks) (s : Nat) : Option Nat → Marks
  | none => m.erase s
  | some i => m.set s i

/-- The marks in increasing order of states. -/
def sorted (m : Marks) : List (Nat × Nat) := m.entries.mergeSort fun x y => x.1 ≤ y.1

theorem indexOf?_put (s t i : Nat) (l : List (Nat × Nat)) :
    indexOf? t (put s i l) = if t = s then some i else indexOf? t l := by
  induction l with
  | nil => simp [put, indexOf?]
  | cons e rest ih =>
    obtain ⟨u, j⟩ := e
    by_cases hu : s = u <;> by_cases ht : t = s <;> by_cases htu : t = u <;>
      simp_all [put, indexOf?]

theorem remove_put {s : Nat} (i : Nat) {l : List (Nat × Nat)} (h : indexOf? s l = none) :
    remove s (put s i l) = l := by
  induction l with
  | nil => simp [put, remove]
  | cons e rest ih =>
    obtain ⟨u, j⟩ := e
    by_cases hu : s = u <;> simp_all [put, remove, indexOf?]

theorem put_put {s p : Nat} (i : Nat) {l : List (Nat × Nat)} (h : indexOf? s l = some p) :
    put s p (put s i l) = l := by
  induction l with
  | nil => simp [indexOf?] at h
  | cons e rest ih =>
    obtain ⟨u, j⟩ := e
    by_cases hu : s = u <;> simp_all [put, indexOf?]

theorem get?_set (m : Marks) (s t i : Nat) :
    (m.set s i).get? t = if t = s then some i else m.get? t :=
  indexOf?_put s t i m.entries

/-- Setting a mark and putting the old one back changes nothing. -/
theorem restore_set (m : Marks) (s i : Nat) : (m.set s i).restore s (m.get? s) = m := by
  cases h : m.get? s with
  | none => simp [restore, erase, set, remove_put i h]
  | some p => simp [restore, set, put_put i h]

end Marks
end Typeahead
