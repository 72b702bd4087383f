import Mathlib
import Typeahead.Proofs.Drain
import Typeahead.Proofs.Occurrence

/-!
The order in which the frontier is found. A search that unmarks a pair when it backs out of it comes to a
pair once along each way that does not cross itself; a depth-first search that keeps its marks comes to it
once at all. Both discover the same pairs in the same order: a pair that was backed out of leads, past the
pairs on the current way, only to pairs that were discovered before.
-/
namespace Typeahead

/-- Points that lead to other points in order. Finitely many of them lead anywhere. -/
structure Links (α : Type) where
  next : α → List α
  finite : ∃ all : List α, ∀ x, next x ≠ [] → x ∈ all

namespace Links

variable {α : Type} [DecidableEq α] {g : Links α} {seen seen' active work : List α} {x y : α}

/-- The points that lead anywhere. -/
def region (g : Links α) : Region α :=
  ⟨fun x => !(g.next x).isEmpty, by simpa using g.finite⟩

theorem unseen_le (g : Links α) (h : seen ⊆ seen') :
    g.region.unseen seen' ≤ g.region.unseen seen := by
  apply List.countP_mono_left
  intro y _
  simp only [Bool.and_eq_true, Bool.not_eq_true', List.contains_eq_mem, decide_eq_false_iff_not]
  rintro ⟨hy, hnot⟩
  exact ⟨hy, fun hmem => hnot (h hmem)⟩

/-- Going on from a new point leaves fewer points that lead anywhere, or there is nowhere to go. -/
theorem next_lt (g : Links α) (hx : x ∉ seen) (hsub : seen ⊆ seen') (hx' : x ∈ seen')
    (work : List α) : Prod.Lex (· < ·) (· < ·) (g.region.unseen seen', (g.next x).length)
      (g.region.unseen seen, (x :: work).length) := by
  rw [Prod.lex_def]
  by_cases hnext : g.next x = []
  · have hle := g.unseen_le hsub
    simp only [hnext, List.length_nil, List.length_cons]
    omega
  · have hlt : g.region.unseen (x :: seen) < g.region.unseen seen :=
      g.region.unseen_cons_lt (by simpa [region] using hnext) (by simpa using hx)
    have hle := g.unseen_le (List.cons_subset.2 ⟨hx', hsub⟩)
    exact Or.inl (Nat.lt_of_le_of_lt hle hlt)

/-- Depth-first search from the points of a list, after what was seen before. A point that was seen is
never entered again. -/
def visitFrom (g : Links α) (seen : List α) : List α → {l : List α // seen <+: l}
  | [] => ⟨seen, List.prefix_rfl⟩
  | x :: work =>
    if _h : x ∈ seen then g.visitFrom seen work
    else
      let ⟨inner, hinner⟩ := g.visitFrom (seen ++ [x]) (g.next x)
      let ⟨all, hall⟩ := g.visitFrom inner work
      ⟨all, (List.prefix_append seen [x]).trans (hinner.trans hall)⟩
termination_by work => (g.region.unseen seen, work.length)
decreasing_by
  · exact .right _ (by simp)
  · exact g.next_lt _h (by simp) (by simp) work
  · have hle := g.unseen_le ((List.prefix_append seen [x]).trans hinner).subset
    rw [Prod.lex_def]
    simp only [List.length_cons]
    omega

/-- The points seen by a depth-first search, in the order of their first visits. -/
def visit (g : Links α) (seen work : List α) : List α := (g.visitFrom seen work).1

/-- The points entered by a search that only knows the points on its current way, in order and with
repetitions. -/
def wander (g : Links α) (active : List α) : List α → List α
  | [] => []
  | x :: work =>
    if _h : x ∈ active then g.wander active work
    else x :: g.wander (x :: active) (g.next x) ++ g.wander active work
termination_by work => (g.region.unseen active, work.length)
decreasing_by
  · exact .right _ (by simp)
  · exact g.next_lt _h (by simp) (by simp) work
  · exact .right _ (by simp)

theorem prefix_visit (g : Links α) (seen work : List α) : seen <+: g.visit seen work :=
  (g.visitFrom seen work).2

@[simp] theorem visit_nil (g : Links α) (seen : List α) : g.visit seen [] = seen := by
  rw [visit, visitFrom]

theorem visit_of_mem (g : Links α) (h : x ∈ seen) (work : List α) :
    g.visit seen (x :: work) = g.visit seen work := by
  rw [visit, visitFrom, dif_pos h, visit]

theorem visit_of_not_mem (g : Links α) (h : x ∉ seen) (work : List α) :
    g.visit seen (x :: work) = g.visit (g.visit (seen ++ [x]) (g.next x)) work := by
  rw [visit, visitFrom, dif_neg h]
  rfl

theorem nodup_visit (h : seen.Nodup) : (g.visit seen work).Nodup := by
  fun_induction visitFrom g seen work with
  | case1 seen => simpa using h
  | case2 seen x work hx ih =>
    rw [visit_of_mem g hx]
    exact ih h
  | case3 seen x work hx inner hinner hin all hall _ ihin ihall =>
    have hsnoc : (seen ++ [x]).Nodup := by simpa using List.Nodup.concat hx h
    have heq : g.visit (seen ++ [x]) (g.next x) = inner := congrArg Subtype.val hin
    rw [heq] at ihin
    rw [visit_of_not_mem g hx, heq]
    exact ihall (ihin hsnoc)

/-! ### Forgetting marks -/

/-- Every point that was seen and is not on the current way leads only to points that were seen. -/
def Settled (g : Links α) (active seen : List α) : Prop :=
  ∀ x ∈ seen, x ∉ active → g.next x ⊆ seen

namespace Settled

omit [DecidableEq α] in
/-- A point that is entered joins the way. -/
theorem enter (h : g.Settled active seen) (x : α) : g.Settled (x :: active) (seen ++ [x]) := by
  intro y hy hnot
  rw [List.mem_cons, not_or] at hnot
  have hseen : y ∈ seen := by simpa [hnot.1] using hy
  exact List.subset_append_of_subset_left _ (h y hseen hnot.2)

/-- A point may be left once all it leads to was seen. -/
theorem leave (h : g.Settled (x :: active) seen) (hx : g.next x ⊆ seen) : g.Settled active seen := by
  intro y hy hnot
  by_cases hyx : y = x
  · exact hyx ▸ hx
  · exact h y hy (by simp [hyx, hnot])

omit [DecidableEq α] in
/-- A longer way excuses more points. -/
theorem cons (h : g.Settled active seen) (x : α) : g.Settled (x :: active) seen := by
  intro y hy hnot
  apply h y hy
  intro hmem
  exact hnot (List.mem_cons_of_mem x hmem)

/-- From settled points nothing new is discovered. -/
theorem wander_subset (h : g.Settled active seen) (hwork : work ⊆ seen) :
    g.wander active work ⊆ seen := by
  fun_induction wander g active work with
  | case1 active => exact List.nil_subset _
  | case2 active x work hx ih => exact ih h (List.cons_subset.1 hwork).2
  | case3 active x work hx ihin ihout =>
    obtain ⟨hseen, hwork⟩ := List.cons_subset.1 hwork
    have hin := ihin (h.cons x) (h x hseen hx)
    exact List.append_subset.2 ⟨List.cons_subset.2 ⟨hseen, hin⟩, ihout h hwork⟩

end Settled

/-- After the same points, both searches discover the same points in the same order, and what they have
discovered is settled again. -/
theorem alike_visit (hsub : active ⊆ seen) (hs : g.Settled active seen) :
    Alike (seen ++ g.wander active work) (g.visit seen work) ∧
      g.Settled active (g.visit seen work) ∧ work ⊆ g.visit seen work := by
  fun_induction wander g active work generalizing seen with
  | case1 active =>
    rw [List.append_nil, visit_nil]
    exact ⟨.refl _, hs, List.nil_subset _⟩
  | case2 active x work hx ih =>
    rw [visit_of_mem g (hsub hx)]
    obtain ⟨halike, hsettled, hwork⟩ := ih hsub hs
    exact ⟨halike, hsettled,
      List.cons_subset.2 ⟨(g.prefix_visit seen work).subset (hsub hx), hwork⟩⟩
  | case3 active x work hx ihin ihout =>
    by_cases hseen : x ∈ seen
    · -- The point was left before: what is entered from it now is known.
      have hagain : x :: g.wander (x :: active) (g.next x) ⊆ seen :=
        List.cons_subset.2 ⟨hseen, (hs.cons x).wander_subset (hs x hseen hx)⟩
      rw [visit_of_mem g hseen, ← List.append_assoc]
      obtain ⟨halike, hsettled, hwork⟩ := ihout hsub hs
      exact ⟨((Alike.append_of_subset hagain).append (.refl _)).trans halike, hsettled,
        List.cons_subset.2 ⟨(g.prefix_visit seen work).subset hseen, hwork⟩⟩
    · -- Both enter the point. When it is left, all it leads to was seen, so what was seen is settled.
      have hgrown := (g.prefix_visit (seen ++ [x]) (g.next x)).subset
      have hsub' : x :: active ⊆ seen ++ [x] := by
        intro y hy
        rcases List.mem_cons.1 hy with rfl | hy
        · simp
        · exact List.mem_append_left _ (hsub hy)
      obtain ⟨halike, hsettled, hnext⟩ := ihin hsub' (hs.enter x)
      have hsub'' : active ⊆ g.visit (seen ++ [x]) (g.next x) := by
        intro y hy
        exact hgrown (List.mem_append_left _ (hsub hy))
      obtain ⟨halike', hsettled', hwork⟩ := ihout hsub'' (hsettled.leave hnext)
      rw [visit_of_not_mem g hseen]
      refine ⟨?_, hsettled', ?_⟩
      · have hsplit : seen ++ (x :: g.wander (x :: active) (g.next x) ++ g.wander active work) =
            seen ++ [x] ++ g.wander (x :: active) (g.next x) ++ g.wander active work := by simp
        rw [hsplit]
        exact (halike.append (.refl _)).trans halike'
      · refine List.cons_subset.2 ⟨?_, hwork⟩
        exact (g.prefix_visit _ work).subset (hgrown (by simp))

/-- Of the points that are looked for, a whole search that forgets its marks discovers the same ones as a
search that keeps them, in the same order. -/
theorem alike_found {β : Type} [BEq β] [LawfulBEq β] (g : Links α) (work : List α) (p : α → Bool)
    (f : α → β) : Alike (((g.wander [] work).filter p).map f) (((g.visit [] work).filter p).map f) :=
  ((alike_visit (List.nil_subset []) (by simp [Settled])).1.filter p).map f

end Links

/-! ### Pairs of a state and a token index -/

namespace Frontier

variable {a : Automaton} {kinds : List (Option Int)} {m : Marks} {start : Nat}
  {active work : List (Nat × Nat)} {l : List Nat}

/-- Where a pair leads, in the order of the moves. A pair behind the last token leads nowhere. -/
def successors (a : Automaton) (kinds : List (Option Int)) (p : Nat × Nat) : List (Nat × Nat) :=
  match kinds[p.2]? with
  | none => []
  | some kind => (a.moves p.1).filterMap (advanceBy p.2 kind)

theorem lt_of_successors_ne_nil {p : Nat × Nat} (h : successors a kinds p ≠ []) :
    p.1 < a.size ∧ p.2 < kinds.length := by
  rw [successors] at h
  split at h
  · simp at h
  · rename_i hk
    refine ⟨?_, (List.getElem?_eq_some_iff.1 hk).1⟩
    obtain ⟨q, hq⟩ := List.exists_mem_of_ne_nil _ h
    obtain ⟨move, hmove, -⟩ := List.mem_filterMap.1 hq
    exact Automaton.lt_size_of_mem_moves hmove

/-- Pairs of a state and a token index, linked by the moves. -/
def pairs (a : Automaton) (kinds : List (Option Int)) : Links (Nat × Nat) where
  next := successors a kinds
  finite := by
    refine ⟨List.range a.size ×ˢ List.range kinds.length, ?_⟩
    rintro ⟨s, i⟩ hp
    simpa using lt_of_successors_ne_nil hp

theorem successors_of_advance {kind : Option Int} {s i : Nat} {targets : List (Nat × Nat)}
    (hk : kinds[i]? = some kind) (ha : advance a s i kind = .ok targets) :
    successors a kinds (s, i) = targets := by
  simp only [advance] at ha
  split at ha
  · simp at ha
  · injection ha with ha
    simp [successors, hk, ha]

/-- A pair leads to pairs of the same token or the one behind it. -/
theorem index_of_mem_successors {p q : Nat × Nat} (h : q ∈ successors a kinds p) :
    p.2 ≤ q.2 ∧ q.2 ≤ kinds.length := by
  have hlt := (lt_of_successors_ne_nil (List.ne_nil_of_mem h)).2
  rw [successors] at h
  split at h
  · simp at h
  · obtain ⟨move, -, hq⟩ := List.mem_filterMap.1 h
    cases move with
    | epsilon t =>
      simp only [advanceBy, Option.some.injEq] at hq
      subst hq
      exact ⟨Nat.le_refl _, Nat.le_of_lt hlt⟩
    | _ =>
      simp only [advanceBy] at hq
      split at hq
      · injection hq with hq
        subst hq
        exact ⟨Nat.le_succ _, hlt⟩
      · simp at hq

/-- The marks stand for the pairs on the current way, as far as the pairs that are still to be entered can
tell: a mark that was overwritten was of an earlier token. -/
structure Follows (kinds : List (Option Int)) (m : Marks) (active work : List (Nat × Nat)) :
    Prop where
  active_of_mark {s i : Nat} : m.get? s = some i → (s, i) ∈ active
  mark_of_active {s i : Nat} : (s, i) ∈ active → ∃ j, m.get? s = some j ∧ i ≤ j
  mark_le {s i : Nat} : m.get? s = some i → ∀ p ∈ work, i ≤ p.2
  index_le : ∀ p ∈ work, p.2 ≤ kinds.length

namespace Follows

theorem tail {p : Nat × Nat} (h : Follows kinds m active (p :: work)) :
    Follows kinds m active work where
  active_of_mark := h.active_of_mark
  mark_of_active := h.mark_of_active
  mark_le hm q hq := h.mark_le hm q (List.mem_cons_of_mem p hq)
  index_le q hq := h.index_le q (List.mem_cons_of_mem p hq)

theorem mark_iff {s i : Nat} (h : Follows kinds m active ((s, i) :: work)) :
    m.get? s = some i ↔ (s, i) ∈ active := by
  refine ⟨h.active_of_mark, fun hmem => ?_⟩
  obtain ⟨j, hj, hle⟩ := h.mark_of_active hmem
  have hge := h.mark_le hj (s, i) List.mem_cons_self
  rw [hj, Nat.le_antisymm hge hle]

theorem enter {s i : Nat} (h : Follows kinds m active ((s, i) :: work)) :
    Follows kinds (m.set s i) ((s, i) :: active) (successors a kinds (s, i)) where
  active_of_mark {t j} hm := by
    rw [Marks.get?_set] at hm
    split at hm
    · rename_i ht
      injection hm with hm
      simp [ht, hm]
    · exact List.mem_cons_of_mem _ (h.active_of_mark hm)
  mark_of_active {t j} hmem := by
    rw [Marks.get?_set]
    rcases List.mem_cons.1 hmem with heq | hmem
    · injection heq with ht hj
      exact ⟨i, by simp [ht], Nat.le_of_eq hj⟩
    · obtain ⟨k, hk, hle⟩ := h.mark_of_active hmem
      split
      · exact ⟨i, rfl, Nat.le_trans hle (h.mark_le hk (s, i) List.mem_cons_self)⟩
      · exact ⟨k, hk, hle⟩
  mark_le {t j} hm q hq := by
    have hi := (index_of_mem_successors hq).1
    rw [Marks.get?_set] at hm
    split at hm
    · injection hm with hm
      exact hm ▸ hi
    · exact Nat.le_trans (h.mark_le hm (s, i) List.mem_cons_self) hi
  index_le q hq := (index_of_mem_successors hq).2

end Follows

/-- The states of the pairs behind the last token. -/
def atEnd (kinds : List (Option Int)) (l : List (Nat × Nat)) : List Nat :=
  (l.filter fun p => p.2 = kinds.length).map (·.1)

/-- The search reports the states at the end among the pairs that it enters. -/
theorem eq_atEnd_wander (h : explore a kinds m work = .ok l) (hf : Follows kinds m active work) :
    l = atEnd kinds ((pairs a kinds).wander active work) := by
  fun_induction explore a kinds m work generalizing l active with
  | case1 m =>
    injection h with h
    rw [Links.wander, ← h]
    rfl
  | case2 m s i work hm ih =>
    rw [Links.wander, dif_pos (hf.mark_iff.1 hm)]
    exact ih h hf.tail
  | case3 m s i work hm hk ih =>
    obtain ⟨others, ho, hl⟩ := Outcome.bind_eq_ok.1 h
    injection hl with hl
    subst hl
    have hend : i = kinds.length :=
      Nat.le_antisymm (hf.index_le _ List.mem_cons_self) (List.getElem?_eq_none_iff.1 hk)
    have hnext : (pairs a kinds).next (s, i) = [] := by simp [pairs, successors, hk]
    rw [Links.wander, dif_neg (hf.mark_iff.not.1 hm), hnext, Links.wander]
    simp [atEnd, hend, ih ho hf.tail]
  | case4 m s i work hm kind hk fault ha => simp at h
  | case5 m s i work hm kind hk targets ha ihin ihout =>
    obtain ⟨inner, hin, h⟩ := Outcome.bind_eq_ok.1 h
    obtain ⟨others, ho, hl⟩ := Outcome.bind_eq_ok.1 h
    injection hl with hl
    subst hl
    have hnext : (pairs a kinds).next (s, i) = targets := successors_of_advance hk ha
    have hlt : i ≠ kinds.length := Nat.ne_of_lt (List.getElem?_eq_some_iff.1 hk).1
    have hf' : Follows kinds (m.set s i) ((s, i) :: active) targets := hnext ▸ hf.enter
    rw [Links.wander, dif_neg (hf.mark_iff.not.1 hm), hnext, ihin hin hf', ihout ho hf.tail]
    simp [atEnd, hlt]

/-- Reporting states one by one keeps their first occurrences. -/
theorem foldl_report_toList (r : Roster Nat) (l : List Nat) :
    l.foldl report r.toList = (r.insertAll l).toList := by
  induction l generalizing r with
  | nil => rfl
  | cons s l ih =>
    have hreport : report r.toList s = (r.insert s).toList := by
      rw [report, Roster.toList_insert]
      simp only [List.contains_iff_mem, Roster.contains_iff]
    rw [List.foldl_cons, hreport, ih, Roster.insertAll, Roster.insertAll, List.foldl_cons]

theorem nodup_atEnd {ps : List (Nat × Nat)} (h : ps.Nodup) : (atEnd kinds ps).Nodup := by
  apply (h.filter _).map_on
  intro p hp q hq heq
  have hp' := (List.mem_filter.1 hp).2
  have hq' := (List.mem_filter.1 hq).2
  simp only [decide_eq_true_eq] at hp' hq'
  exact Prod.ext heq (hp'.trans hq'.symm)

/-- The frontier is found in the order in which a depth-first search that enters each pair of a state and
a token index once comes to the pairs behind the last token. -/
theorem found_in_order_of_first_visits (hp : a.Plain) (kinds : List (Option Int)) (start : Nat) :
    ((∀ kind ∈ kinds, kind.isSome = true) → (all a kinds start).fault = none) ∧
      ((all a kinds start).fault = none → (all a kinds start).search.found =
        atEnd kinds ((pairs a kinds).visit [] [(start, 0)])) := by
  constructor
  · intro hsome
    obtain ⟨w, rfl⟩ : kinds ∈ Set.range (List.map some) := by
      rw [Set.range_list_map]
      exact fun kind hkind => ⟨kind.get (hsome kind hkind), Option.some_get _⟩
    exact fault_eq_none_of_plain hp w start
  · intro hnone
    cases hl : explore a kinds {} [(start, 0)] with
    | error fault => simp [fault_of_explore hl] at hnone
    | ok l =>
      have hf : Follows kinds {} [] [(start, 0)] := by
        constructor <;> simp [Marks.get?, Marks.indexOf?]
      calc (all a kinds start).search.found
          = l.eraseDups := by
            rw [all_of_explore hl, ← Roster.toList_insertAll_empty, ← foldl_report_toList]
            rfl
        _ = (atEnd kinds ((pairs a kinds).visit [] [(start, 0)])).eraseDups := by
            rw [eq_atEnd_wander hl hf]
            exact Links.alike_found (pairs a kinds) [(start, 0)] _ _
        _ = atEnd kinds ((pairs a kinds).visit [] [(start, 0)]) :=
            eraseDups_of_nodup (nodup_atEnd (Links.nodup_visit List.nodup_nil))

/-- Two states that lead to each other without a token and are both entered from the start; each is left
on `7`. -/
def crossing : Automaton :=
  ⟨#[⟨0, [.epsilon 1, .epsilon 2]⟩, ⟨1, [.epsilon 2, .atomic 7 3]⟩, ⟨2, [.epsilon 1, .atomic 7 4]⟩,
    ⟨3, []⟩, ⟨4, []⟩]⟩

theorem crossing_found_in_order_of_first_visits :
    (all crossing [some 7] 0).fault = none ∧ (all crossing [some 7] 0).search.found = [4, 3] ∧
      (pairs crossing [some 7]).visit [] [(0, 0)] = [(0, 0), (1, 0), (2, 0), (4, 1), (3, 1)] ∧
      (pairs crossing [some 7]).wander [] [(0, 0)] = [(0, 0), (1, 0), (2, 0), (4, 1), (3, 1),
        (2, 0), (1, 0), (3, 1), (4, 1)] := by
  obtain ⟨hfault, hfound⟩ := found_in_order_of_first_visits (a := crossing)
    (Automaton.plain_of_lt (by decide)) [some 7] 0
  have hnone := hfault (by simp)
  have hvisit : (pairs crossing [some 7]).visit [] [(0, 0)] =
      [(0, 0), (1, 0), (2, 0), (4, 1), (3, 1)] := by
    cbv
  refine ⟨hnone, ?_, hvisit, ?_⟩
  · rw [hfound hnone, hvisit]
    rfl
  · cbv

end Frontier
end Typeahead
