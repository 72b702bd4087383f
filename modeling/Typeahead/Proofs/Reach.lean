import Mathlib.Logic.Relation
import Typeahead.Reach
import Typeahead.Scanner.Rules
import Typeahead.Proofs.Path

/-!
What a search that visits nothing twice can reach. Whatever is reachable at all is reachable without
a repetition, and the search from a list of starting points finds exactly what is reachable.
-/
namespace Typeahead

open Relation (ReflTransGen)

variable {α : Type} {R : α → α → Prop} {A B : List α} {x y z : α}

/-- From `x` to `z` along `R`, never through `A` and never twice through one point. -/
inductive Simple (R : α → α → Prop) : List α → α → α → Prop where
  | here {A : List α} {x : α} (hx : x ∉ A) : Simple R A x x
  | step {A : List α} {x y z : α} (hx : x ∉ A) (hxy : R x y) (h : Simple R (x :: A) y z) :
      Simple R A x z

namespace Simple

theorem mono (h : Simple R A x z) (hB : B ⊆ A) : Simple R B x z := by
  induction h generalizing B with
  | here hx => exact .here fun hxB => hx (hB hxB)
  | step hx hxy _ ih => exact .step (fun hxB => hx (hB hxB)) hxy (ih (List.cons_subset_cons _ hB))

/-- Either the way keeps clear of `x`, or there is a way from `x` itself. -/
theorem avoid (h : Simple R A y z) (hx : x ∉ A) : Simple R (x :: A) y z ∨ Simple R A x z := by
  induction h with
  | @here A y hy =>
    by_cases hxy : y = x
    · subst hxy
      exact Or.inr (.here hx)
    · exact Or.inl (.here (by simp [hxy, hy]))
  | @step A y y' z hy hyy' h ih =>
    by_cases hxy : y = x
    · subst hxy
      exact Or.inr (.step hx hyy' h)
    · rcases ih (by simp [Ne.symm hxy, hx]) with h' | h'
      · refine Or.inl (.step (by simp [hxy, hy]) hyy' (h'.mono ?_))
        intro q hq
        simp only [List.mem_cons] at hq ⊢
        exact or_left_comm.1 hq
      · exact Or.inr (h'.mono (List.subset_cons_self y A))

theorem of_reachable (h : ReflTransGen R x z) : Simple R [] x z := by
  induction h using ReflTransGen.head_induction_on with
  | refl => exact .here List.not_mem_nil
  | head hxy _ ih =>
    rcases ih.avoid List.not_mem_nil with h | h
    · exact .step List.not_mem_nil hxy h
    · exact h

end Simple

namespace Region

variable [DecidableEq α] {β : Type} {r : Region α} {point : β → α} {next : β → List β}
  {seen work : List β} {b c : β}

/-- One thing leads to another if it stands inside. -/
def Follows (r : Region α) (point : β → α) (next : β → List β) (b c : β) : Prop :=
  r.inside (point b) = true ∧ c ∈ next b

theorem seen_subset_explore : seen ⊆ r.explore point next seen work := by
  fun_induction explore r point next seen work with
  | case1 seen => simp
  | case2 seen c work _ ih => exact ih
  | case3 seen c work _ _ ih => exact fun _ h => ih (List.mem_cons_of_mem c h)
  | case4 seen c work _ _ ih => exact fun _ h => ih (List.mem_cons_of_mem c h)

theorem explore_sound (h : b ∈ r.explore point next seen work) :
    b ∈ seen ∨ ∃ c ∈ work, ReflTransGen (r.Follows point next) c b := by
  fun_induction explore r point next seen work with
  | case1 seen => exact Or.inl (by simpa using h)
  | case2 seen c work _ ih =>
    rcases ih h with hb | ⟨d, hd, hdb⟩
    · exact Or.inl hb
    · exact Or.inr ⟨d, List.mem_cons_of_mem c hd, hdb⟩
  | case3 seen c work _ hi ih =>
    rcases ih h with hb | ⟨d, hd, hdb⟩
    · rcases List.mem_cons.1 hb with rfl | hb
      · exact Or.inr ⟨b, List.mem_cons_self, .refl⟩
      · exact Or.inl hb
    · rcases List.mem_append.1 hd with hd | hd
      · exact Or.inr ⟨c, List.mem_cons_self, .head ⟨hi, hd⟩ hdb⟩
      · exact Or.inr ⟨d, List.mem_cons_of_mem c hd, hdb⟩
  | case4 seen c work _ _ ih =>
    rcases ih h with hb | ⟨d, hd, hdb⟩
    · rcases List.mem_cons.1 hb with rfl | hb
      · exact Or.inr ⟨b, List.mem_cons_self, .refl⟩
      · exact Or.inl hb
    · exact Or.inr ⟨d, List.mem_cons_of_mem c hd, hdb⟩

/-- All work is done: every point that was waiting is found. -/
theorem point_mem_explore (h : c ∈ work) :
    point c ∈ (r.explore point next seen work).map point := by
  have hseen : ∀ {seen' work' : List β}, c ∈ seen' →
      point c ∈ (r.explore point next seen' work').map point := fun h =>
    List.mem_map_of_mem (seen_subset_explore h)
  fun_induction explore r point next seen work with
  | case1 seen => simp at h
  | case2 seen d work hs ih =>
    rcases List.mem_cons.1 h with rfl | h
    · obtain ⟨e, he, hec⟩ := List.mem_map.1 (List.contains_iff_mem.1 hs)
      rw [← hec]
      exact List.mem_map_of_mem (seen_subset_explore he)
    · exact ih h
  | case3 seen d work _ _ ih =>
    rcases List.mem_cons.1 h with rfl | h
    · exact hseen List.mem_cons_self
    · exact ih (List.mem_append_right _ h)
  | case4 seen d work _ _ ih =>
    rcases List.mem_cons.1 h with rfl | h
    · exact hseen List.mem_cons_self
    · exact ih h

/-- Whatever follows something newly found is found too. -/
theorem explore_closed (hb : b ∈ r.explore point next seen work) (hbc : r.Follows point next b c) :
    b ∈ seen ∨ point c ∈ (r.explore point next seen work).map point := by
  fun_induction explore r point next seen work with
  | case1 seen => exact Or.inl (by simpa using hb)
  | case2 seen d work _ ih => exact ih hb
  | case3 seen d work _ _ ih =>
    rcases ih hb with h | h
    · rcases List.mem_cons.1 h with rfl | h
      · exact Or.inr (point_mem_explore (List.mem_append_left _ hbc.2))
      · exact Or.inl h
    · exact Or.inr h
  | case4 seen d work _ hi ih =>
    rcases ih hb with h | h
    · rcases List.mem_cons.1 h with rfl | h
      · exact absurd hbc.1 hi
      · exact Or.inl h
    · exact Or.inr h

/-- If no two of the things that are met stand at one point then exactly the reachable ones are found. -/
theorem mem_reach_iff_of_inj {start : List β} {P : β → Prop} (hstart : ∀ b ∈ start, P b)
    (hnext : ∀ b c, P b → c ∈ next b → P c) (hinj : ∀ b c, P b → P c → point b = point c → b = c) :
    b ∈ r.reach point next start ↔ ∃ c ∈ start, ReflTransGen (r.Follows point next) c b := by
  have hmet : ∀ {b c}, c ∈ start → ReflTransGen (r.Follows point next) c b → P b := by
    intro b c hc h
    induction h with
    | refl => exact hstart c hc
    | tail _ hbc ih => exact hnext _ _ ih hbc.2
  have hsound : ∀ {b}, b ∈ r.reach point next start →
      ∃ c ∈ start, ReflTransGen (r.Follows point next) c b := by
    intro b h
    rcases explore_sound h with h | h
    · simp at h
    · exact h
  have hfound : ∀ {b}, P b → point b ∈ (r.reach point next start).map point →
      b ∈ r.reach point next start := by
    intro b hb h
    obtain ⟨c, hc, hcb⟩ := List.mem_map.1 h
    obtain ⟨d, hd, hdc⟩ := hsound hc
    exact hinj c b (hmet hd hdc) hb hcb ▸ hc
  refine ⟨hsound, ?_⟩
  rintro ⟨c, hc, hcb⟩
  induction hcb with
  | refl => exact hfound (hstart c hc) (point_mem_explore hc)
  | @tail b d hcb hbd ih =>
    rcases explore_closed ih hbd with h | h
    · simp at h
    · exact hfound (hmet hc (hcb.tail hbd)) h

/-- Among points themselves, exactly the reachable ones are found. -/
theorem mem_reach_iff {next : α → List α} {start : List α} :
    x ∈ r.reach (fun s => s) next start ↔
      ∃ y ∈ start, ReflTransGen (r.Follows (fun s => s) next) y x :=
  mem_reach_iff_of_inj (P := fun _ => True) (fun _ _ => trivial) (fun _ _ _ _ => trivial)
    fun _ _ _ _ h => h

end Region

namespace Automaton

variable {a : Automaton} {s t : Nat}

theorem mem_silent : t ∈ a.silent s ↔ .epsilon t ∈ a.moves s := by
  simp only [silent, List.mem_filterMap]
  constructor
  · rintro ⟨m, hm, ht⟩
    cases m <;> simp_all
  · intro h
    exact ⟨_, h, rfl⟩

/-- The closure of some states is what paths without symbols reach from them. -/
theorem mem_closure_iff {states : List Nat} :
    t ∈ a.closure states ↔ ∃ s ∈ states, a.Path s [] t := by
  have hpath : ∀ s, ReflTransGen ((Region.below a.size).Follows (fun s => s) a.silent) s t ↔
      a.Path s [] t := by
    intro s
    constructor
    · intro h
      induction h using ReflTransGen.head_induction_on with
      | refl => exact .refl t
      | head hst _ ih => exact .silent (mem_silent.1 hst.2) ih
    · intro h
      generalize hw : ([] : List Int) = w at h
      induction h with
      | refl => exact .refl
      | silent hm _ ih =>
        exact .head ⟨by simpa [Region.below] using lt_size_of_mem_moves hm, mem_silent.2 hm⟩ (ih hw)
      | symbol => simp at hw
  simp only [closure, Region.mem_reach_iff, hpath]

end Automaton
end Typeahead
