import Std.Data.HashSet

/-!
Sets that remember the order in which their members arrived. `toList` is the view: inserting a
member that is there changes nothing, inserting a new one adds it at the end.
-/
namespace Typeahead

structure Roster (α : Type) [BEq α] [Hashable α] where
  items : Array α
  index : Std.HashSet α
  agree : ∀ x, x ∈ index ↔ x ∈ items

namespace Roster

variable {α : Type} [BEq α] [Hashable α]

def empty : Roster α := ⟨#[], ∅, by simp⟩

def toList (r : Roster α) : List α := r.items.toList

def contains (r : Roster α) (x : α) : Bool := r.index.contains x

@[simp] theorem toList_empty : (empty : Roster α).toList = [] := rfl

theorem contains_iff {r : Roster α} {x : α} : r.contains x = true ↔ x ∈ r.toList := by
  simp [contains, toList, Std.HashSet.contains_iff_mem, r.agree]

variable [LawfulBEq α]

def insert (r : Roster α) (x : α) : Roster α :=
  if r.contains x then r
  else
    { items := r.items.push x
      index := r.index.insert x
      agree := fun y => by
        rw [Std.HashSet.mem_insert, r.agree, Array.mem_push, beq_iff_eq, or_comm, eq_comm] }

def insertAll (r : Roster α) (l : List α) : Roster α := l.foldl insert r

theorem toList_insert (r : Roster α) (x : α) :
    (r.insert x).toList = if r.contains x then r.toList else r.toList ++ [x] := by
  unfold insert
  split <;> simp [toList]

theorem mem_toList_insert {r : Roster α} {x y : α} :
    y ∈ (r.insert x).toList ↔ y ∈ r.toList ∨ y = x := by
  rw [toList_insert]
  split
  · rename_i h
    have := contains_iff.1 h
    exact ⟨Or.inl, fun h => h.elim id fun h => h ▸ this⟩
  · simp

theorem mem_toList_insertAll {r : Roster α} {l : List α} {x : α} :
    x ∈ (r.insertAll l).toList ↔ x ∈ r.toList ∨ x ∈ l := by
  induction l generalizing r with
  | nil => simp [insertAll]
  | cons y l ih =>
    rw [insertAll, List.foldl_cons, ← insertAll, ih, mem_toList_insert, List.mem_cons, or_assoc]

theorem toList_insertAll (r : Roster α) (l : List α) :
    (r.insertAll l).toList = r.toList ++ (l.removeAll r.toList).eraseDups := by
  induction l generalizing r with
  | nil => simp [insertAll]
  | cons x l ih =>
    rw [insertAll, List.foldl_cons, ← insertAll, ih, toList_insert, List.cons_removeAll]
    by_cases hx : x ∈ r.toList
    · simp [contains_iff.2 hx, hx]
    · have hc : r.contains x = false := by
        simpa using fun h => hx (contains_iff.1 h)
      have hremove : l.removeAll (r.toList ++ [x]) =
          (l.removeAll r.toList).filter fun y => !y == x := by
        rw [List.removeAll, List.removeAll, List.filter_filter]
        apply List.filter_congr
        intro y _
        by_cases hy : y = x <;> simp [hy]
      simp [hc, hx, hremove, List.eraseDups_cons]

/-- A roster of a whole list keeps its first occurrences. -/
theorem toList_insertAll_empty (l : List α) :
    ((empty : Roster α).insertAll l).toList = l.eraseDups := by
  rw [toList_insertAll]
  simp

end Roster
end Typeahead
