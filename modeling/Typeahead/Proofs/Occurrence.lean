import Typeahead.Roster

/-!
Lists up to repeated members: two lists are alike if they have the same first occurrences in the same
order. This is what a roster sees of a list, and appending, filtering and mapping respect it.
-/
namespace Typeahead

variable {α β : Type} [BEq α] [BEq β] {l l' r r' : List α}

/-- The lists have the same first occurrences in the same order. -/
def Alike (l l' : List α) : Prop := l.eraseDups = l'.eraseDups

namespace Alike

theorem refl (l : List α) : Alike l l := rfl

theorem symm (h : Alike l l') : Alike l' l := Eq.symm h

theorem trans {l'' : List α} (h : Alike l l') (h' : Alike l' l'') : Alike l l'' := Eq.trans h h'

end Alike

variable [LawfulBEq α] [LawfulBEq β]

theorem eraseDups_filter (p : α → Bool) (l : List α) :
    (l.filter p).eraseDups = l.eraseDups.filter p := by
  match l with
  | [] => simp
  | x :: l =>
    have ih := eraseDups_filter p (l.filter fun y => !y == x)
    rw [List.eraseDups_cons, List.filter_cons, List.filter_cons]
    split
    · rw [List.eraseDups_cons, ← ih, List.filter_filter, List.filter_filter]
      simp only [Bool.and_comm]
    · rename_i hx
      rw [← ih, List.filter_filter]
      congr 1
      apply List.filter_congr
      intro y _
      by_cases hy : y = x
      · subst hy
        simp [hx]
      · simp [hy]
termination_by l.length
decreasing_by
  have := List.length_filter_le (fun y => !y == x) l
  simp only [List.length_cons]
  omega

namespace Alike

theorem mem_iff (h : Alike l l') {x : α} : x ∈ l ↔ x ∈ l' := by
  rw [← List.mem_eraseDups, h, List.mem_eraseDups]

theorem filter (h : Alike l l') (p : α → Bool) : Alike (l.filter p) (l'.filter p) := by
  rw [Alike, eraseDups_filter, eraseDups_filter, h]

theorem append (h : Alike l l') (h' : Alike r r') : Alike (l ++ r) (l' ++ r') := by
  have hremove : r.removeAll l = r.removeAll l' := by
    apply List.filter_congr
    intro x _
    simp [h.mem_iff]
  rw [Alike, List.eraseDups_append, List.eraseDups_append, h, hremove]
  exact congrArg (l'.eraseDups ++ ·) (h'.filter _)

theorem append_of_subset (h : r ⊆ l) : Alike (l ++ r) l := by
  have hnone : r.removeAll l = [] := by
    rw [List.removeAll, List.filter_eq_nil_iff]
    intro x hx
    simpa using h hx
  rw [Alike, List.eraseDups_append, hnone, List.eraseDups_nil, List.append_nil]

/-- What occurs again adds nothing new. -/
theorem append_flatMap (f : α → List β) (x : α) (l : List α) :
    Alike (f x ++ l.flatMap f) (f x ++ (l.filter fun y => !y == x).flatMap f) := by
  have hremove : (l.flatMap f).removeAll (f x) =
      ((l.filter fun y => !y == x).flatMap f).removeAll (f x) := by
    induction l with
    | nil => simp
    | cons y l ih =>
      by_cases hy : y = x
      · subst hy
        have hself : (f y).filter (fun z => !decide (z ∈ f y)) = [] := by simp
        simpa [List.removeAll, List.filter_append, hself] using ih
      · simpa [List.removeAll, List.filter_append, hy] using ih
  rw [Alike, List.eraseDups_append, List.eraseDups_append, hremove]

theorem flatMap_eraseDups (f : α → List β) (l : List α) :
    Alike (l.flatMap f) (l.eraseDups.flatMap f) := by
  match l with
  | [] => exact refl _
  | x :: l =>
    have ih := flatMap_eraseDups f (l.filter fun y => !y == x)
    rw [List.eraseDups_cons, List.flatMap_cons, List.flatMap_cons]
    exact (append_flatMap f x l).trans ((refl (f x)).append ih)
termination_by l.length
decreasing_by
  have := List.length_filter_le (fun y => !y == x) l
  simp only [List.length_cons]
  omega

theorem flatMap (h : Alike l l') (f : α → List β) : Alike (l.flatMap f) (l'.flatMap f) := by
  have h₁ := flatMap_eraseDups f l
  rw [h] at h₁
  exact h₁.trans (flatMap_eraseDups f l').symm

omit [BEq α] [LawfulBEq α] in
theorem flatMap_congr {f g : α → List β} (h : ∀ x ∈ l, Alike (f x) (g x)) :
    Alike (l.flatMap f) (l.flatMap g) := by
  induction l with
  | nil => exact refl _
  | cons x l ih =>
    rw [List.flatMap_cons, List.flatMap_cons]
    exact (h x List.mem_cons_self).append (ih fun y hy => h y (List.mem_cons_of_mem x hy))

theorem map (h : Alike l l') (f : α → β) : Alike (l.map f) (l'.map f) := by
  rw [List.map_eq_flatMap, List.map_eq_flatMap]
  exact h.flatMap _

end Alike

theorem alike_eraseDups (l : List α) : Alike l.eraseDups l := by
  have h := Alike.flatMap_eraseDups (fun x => [x]) l
  simpa using h.symm

theorem nodup_eraseDups (l : List α) : l.eraseDups.Nodup := by
  match l with
  | [] => simp
  | x :: l =>
    have ih := nodup_eraseDups (l.filter fun y => !y == x)
    rw [List.eraseDups_cons, List.nodup_cons, List.mem_eraseDups]
    exact ⟨by simp, ih⟩
termination_by l.length
decreasing_by
  have := List.length_filter_le (fun y => !y == x) l
  simp only [List.length_cons]
  omega

theorem eraseDups_of_nodup (h : l.Nodup) : l.eraseDups = l := by
  induction l with
  | nil => simp
  | cons x l ih =>
    obtain ⟨hx, hl⟩ := List.nodup_cons.1 h
    have hkept : l.filter (fun y => !y == x) = l := by
      rw [List.filter_eq_self]
      intro y hy
      simpa using fun heq : y = x => hx (heq ▸ hy)
    rw [List.eraseDups_cons, hkept, ih hl]

/-- Where only `a` has an image, it counts once. -/
theorem alike_filterMap_of_unique {γ : Type} [DecidableEq γ] {f : γ → Option α} {a : γ}
    (h : ∀ x, x ≠ a → f x = none) (l : List γ) :
    Alike (l.filterMap f) (if a ∈ l then (f a).toList else []) := by
  induction l with
  | nil => exact .refl _
  | cons x l ih =>
    by_cases hx : x = a
    · subst hx
      cases hf : f x with
      | none => simpa [hf] using ih
      | some b =>
        simp only [List.filterMap_cons, hf, List.mem_cons, true_or, if_true, Option.toList_some]
        simp only [hf, Option.toList_some] at ih
        refine ((Alike.refl [b]).append ih).trans ?_
        split <;> simp [Alike, List.eraseDups_cons]
    · simpa [h x hx, Ne.symm hx] using ih

theorem eraseDups_map {f : α → β} (hf : ∀ x y, f x = f y → x = y) (l : List α) :
    (l.map f).eraseDups = l.eraseDups.map f := by
  match l with
  | [] => simp
  | x :: l =>
    have ih := eraseDups_map hf (l.filter fun y => !y == x)
    rw [List.map_cons, List.eraseDups_cons, List.eraseDups_cons, List.map_cons, ← ih, List.filter_map]
    congr 3
    apply List.filter_congr
    intro y _
    by_cases hy : y = x
    · simp [hy]
    · have hfy : f y ≠ f x := fun h => hy (hf y x h)
      simp [beq_eq_false_iff_ne.2 hy, beq_eq_false_iff_ne.2 hfy]
termination_by l.length
decreasing_by
  have := List.length_filter_le (fun y => !y == x) l
  simp only [List.length_cons]
  omega

end Typeahead
