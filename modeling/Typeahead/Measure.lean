/-!
Measures for searches: counts of what is still left to visit, and the cost of exploring a tree
whose height is bounded by such a count.
-/
namespace Typeahead

variable {α : Type} {p q : α → Bool} {l : List α} {a : α}

/-- If `p` implies `q` and fails at a member where `q` holds, fewer members have `p`. -/
theorem countP_lt_countP (h : ∀ x ∈ l, p x → q x) (ha : a ∈ l) (hp : p a = false) (hq : q a) :
    l.countP p < l.countP q := by
  induction l with
  | nil => simp at ha
  | cons b rest ih =>
    have hle : rest.countP p ≤ rest.countP q :=
      List.countP_mono_left fun x hx => h x (List.mem_cons_of_mem b hx)
    rcases List.mem_cons.1 ha with rfl | hr
    · simp [hp, hq]
      omega
    · have hlt := ih (fun x hx => h x (List.mem_cons_of_mem b hx)) hr
      have hb := h b List.mem_cons_self
      by_cases hpb : p b = true
      · simp [hpb, hb hpb]
        exact hlt
      · by_cases hqb : q b = true <;> simp [hpb, hqb] <;> omega

/-- The sum of a quantity over a list. -/
def sumOver (f : α → Nat) : List α → Nat
  | [] => 0
  | a :: l => f a + sumOver f l

/-- A member's part is at most the sum of all parts. -/
theorem le_sumOver_of_mem (f : α → Nat) (h : a ∈ l) : f a ≤ sumOver f l := by
  induction l with
  | nil => simp at h
  | cons b rest ih =>
    simp only [sumOver]
    rcases List.mem_cons.1 h with rfl | hr
    · omega
    · have := ih hr
      omega

theorem sumOver_one (l : List α) : sumOver (fun _ => 1) l = l.length := by
  induction l with
  | nil => rfl
  | cons a l ih =>
    simp only [sumOver, ih, List.length_cons]
    omega

/-- A bound on the steps spent in a tree of height `height` in which no node has more than `breadth`
children, when every node is entered and left. -/
def treeCost (breadth : Nat) : Nat → Nat
  | 0 => breadth + 2
  | height + 1 => (breadth + 2) * treeCost breadth height

theorem one_lt_treeCost (breadth height : Nat) : 1 < treeCost breadth height := by
  induction height with
  | zero =>
    simp only [treeCost]
    omega
  | succ height ih =>
    have := Nat.mul_le_mul (Nat.le_add_left 2 breadth) (Nat.le_of_lt ih)
    simp only [treeCost]
    omega

theorem treeCost_le_succ (breadth height : Nat) :
    treeCost breadth height ≤ treeCost breadth (height + 1) :=
  Nat.le_mul_of_pos_left _ (by omega)

theorem treeCost_mono (breadth : Nat) {h h' : Nat} (hle : h ≤ h') :
    treeCost breadth h ≤ treeCost breadth h' := by
  induction hle with
  | refl => exact Nat.le_refl _
  | step _ ih => exact Nat.le_trans ih (treeCost_le_succ breadth _)

/-- A node with at most `breadth` subtrees costs more than the subtrees and leaving it. -/
theorem mul_treeCost_lt {breadth height height' n : Nat} (hn : n ≤ breadth)
    (hh : n = 0 ∨ height < height') : n * treeCost breadth height + 1 < treeCost breadth height' := by
  rcases hh with rfl | hh
  · have := one_lt_treeCost breadth height'
    omega
  · have hone := one_lt_treeCost breadth height
    have hmono := treeCost_mono breadth (show height + 1 ≤ height' from hh)
    have hmul := Nat.mul_le_mul_right (treeCost breadth height) hn
    simp only [treeCost, Nat.add_mul] at hmono
    omega

end Typeahead
