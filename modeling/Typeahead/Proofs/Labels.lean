import Mathlib
import Typeahead.Proofs.Expected

/-!
The kinds that may come next, told in two ways that agree: as a list, and by the test of one kind. The
list is collected move by move, an epsilon move once for each key, and this comes to an end on every
automaton. Under distinct identifiers both answers are exact, and they fail only where a move that is not
understood can be met.
-/
namespace Typeahead

namespace Roster

variable {α : Type} [BEq α] [Hashable α] [LawfulBEq α] {r : Roster α}

theorem nodup_insert (h : r.toList.Nodup) (x : α) : (r.insert x).toList.Nodup := by
  rw [toList_insert]
  split
  · exact h
  · rename_i hx
    have hnot : x ∉ r.toList := fun hmem => hx (contains_iff.2 hmem)
    exact h.append (List.nodup_singleton x) (by simpa using hnot)

theorem nodup_insertAll (h : r.toList.Nodup) (l : List α) : (r.insertAll l).toList.Nodup := by
  induction l generalizing r with
  | nil => exact h
  | cons x l ih => exact ih (nodup_insert h x)

end Roster

namespace Automaton

variable {a : Automaton} {s t : Nat} {k : Int} {fault : Fault} {followed : List Move.Key}
  {labels result : Roster Int} {waiting : List a.Pending} {outcome : Except Fault (Roster Int)}

/-! ### Collecting comes to an end -/

/-- Labels that are collected move by move come to this outcome. A derivation is finite, and so is the
collecting. -/
inductive Collects (a : Automaton) :
    List Move.Key → Roster Int → List a.Pending → Except Fault (Roster Int) → Prop where
  | done {followed : List Move.Key} {labels : Roster Int} :
      Collects a followed labels [] (.ok labels)
  | again {followed : List Move.Key} {labels : Roster Int} {p : a.Pending}
      {waiting : List a.Pending} {outcome : Except Fault (Roster Int)} {t : Nat}
      (hp : p.move = .epsilon t) (hk : a.key p.source p.move ∈ followed)
      (h : Collects a followed labels waiting outcome) :
      Collects a followed labels (p :: waiting) outcome
  | follow {followed : List Move.Key} {labels : Roster Int} {p : a.Pending}
      {waiting : List a.Pending} {outcome : Except Fault (Roster Int)} {t : Nat}
      (hp : p.move = .epsilon t) (hk : a.key p.source p.move ∉ followed)
      (h : Collects a (a.key p.source p.move :: followed) labels (a.pending t ++ waiting) outcome) :
      Collects a followed labels (p :: waiting) outcome
  | take {followed : List Move.Key} {labels : Roster Int} {p : a.Pending}
      {waiting : List a.Pending} {outcome : Except Fault (Roster Int)}
      (he : ∀ t, p.move ≠ .epsilon t) (hf : p.move.isForeign = false)
      (h : Collects a followed (labels.insertAll p.move.symbols) waiting outcome) :
      Collects a followed labels (p :: waiting) outcome
  | fail {followed : List Move.Key} {labels : Roster Int} {p : a.Pending}
      {waiting : List a.Pending} (hf : p.move.isForeign = true) :
      Collects a followed labels (p :: waiting) (.error (a.unexpected "token" p.source p.move))

theorem collects_collect (a : Automaton) (followed : List Move.Key) (labels : Roster Int)
    (waiting : List a.Pending) :
    Collects a followed labels waiting (a.collect followed labels waiting) := by
  fun_induction collect a followed labels waiting with
  | case1 followed labels => exact .done
  | case2 followed labels p waiting t hp hf ih => exact .again hp (List.contains_iff_mem.1 hf) ih
  | case3 followed labels p waiting t hp hf ih =>
    exact .follow hp (fun hk => hf (List.contains_iff_mem.2 hk)) ih
  | case4 followed labels p waiting name t hp =>
    rw [← hp]
    exact .fail (by simp [hp, Move.isForeign])
  | case5 followed labels p waiting he hf ih =>
    refine .take he ?_ ih
    cases hm : p.move with
    | foreign name t => exact absurd hm (hf name t)
    | _ => rfl

/-- Collecting comes to an end from every state of the work, and to no other than what is computed. -/
theorem collects_iff :
    Collects a followed labels waiting outcome ↔ outcome = a.collect followed labels waiting := by
  constructor
  · intro h
    induction h with
    | done => rw [collect]
    | again hp hk _ ih =>
      rw [collect, hp]
      rw [hp] at hk
      simp [hk, ih]
    | follow hp hk _ ih =>
      rw [collect, hp]
      rw [hp] at hk ih
      simp [hk, ih]
    | @take _ _ p _ _ he hf _ ih =>
      rw [collect]
      cases hm : p.move with
      | epsilon t => exact absurd hm (he t)
      | foreign name t => simp [hm, Move.isForeign] at hf
      | _ => simpa [hm] using ih
    | @fail _ _ p _ hf =>
      rw [collect]
      cases hm : p.move with
      | foreign name t => rfl
      | _ => simp [hm, Move.isForeign] at hf
  · rintro rfl
    exact collects_collect a followed labels waiting

/-! ### What is collected -/

theorem nodup_collect (h : a.collect followed labels waiting = .ok result)
    (hl : labels.toList.Nodup) : result.toList.Nodup := by
  fun_induction collect a followed labels waiting with
  | case1 followed labels =>
    injection h with h
    exact h ▸ hl
  | case2 followed labels p waiting t hp hf ih => exact ih h hl
  | case3 followed labels p waiting t hp hf ih => exact ih h hl
  | case4 followed labels p waiting name t hp => simp at h
  | case5 followed labels p waiting he hf ih => exact ih h (Roster.nodup_insertAll hl _)

/-- What goes wrong is always that a move is not understood. -/
theorem family_of_collect (h : a.collect followed labels waiting = .error fault) :
    fault.family = .contract := by
  fun_induction collect a followed labels waiting with
  | case1 followed labels => simp at h
  | case2 followed labels p waiting t hp hf ih => exact ih h
  | case3 followed labels p waiting t hp hf ih => exact ih h
  | case4 followed labels p waiting name t hp =>
    injection h with h
    rw [← h]
    rfl
  | case5 followed labels p waiting he hf ih => exact ih h

theorem nodup_expected {kinds : List Int} (h : a.expected s = .ok kinds) : kinds.Nodup := by
  obtain ⟨result, hc, hr⟩ := Outcome.bind_eq_ok.1 h
  injection hr with hr
  rw [← hr]
  exact nodup_collect hc List.nodup_nil

theorem family_of_expected (h : a.expected s = .error fault) : fault.family = .contract := by
  obtain hc | ⟨result, -, hr⟩ := Outcome.bind_eq_error.1 h
  · exact family_of_collect hc
  · cases hr

theorem not_understood_iff :
    ¬ a.Understood s ↔ ∃ t, a.Path s [] t ∧ ∃ m ∈ a.moves t, m.isForeign = true := by
  simp [Understood]

/-- Under distinct identifiers the list of kinds fails exactly where a move that is not understood can be
met. -/
theorem exists_expected_error_iff (hd : a.DistinctIds) :
    (∃ fault, a.expected s = .error fault ∧ fault.family = .contract) ↔ ¬ a.Understood s := by
  constructor
  · rintro ⟨fault, hf, -⟩ hu
    obtain ⟨kinds, hk⟩ := hu.exists_expected
    rw [hf] at hk
    cases hk
  · intro hu
    cases h : a.expected s with
    | ok kinds => exact absurd (understood_of_expected hd h) hu
    | error fault => exact ⟨fault, rfl, family_of_expected h⟩

/-- Some move of the state is labelled with the symbol, by itself or by a set with an interval that holds
it. -/
def Labelled (a : Automaton) (s : Nat) (x : Int) : Prop :=
  (∃ t, .atomic x t ∈ a.moves s) ∨
    ∃ intervals t, .set intervals t ∈ a.moves s ∧ ∃ i ∈ intervals, i.start ≤ x ∧ x < i.stop

theorem labelled_iff : a.Labelled s k ↔ ∃ m ∈ a.moves s, m.accepts k = true := by
  constructor
  · rintro (⟨t, hm⟩ | ⟨intervals, t, hm, i, hi, hk⟩)
    · exact ⟨_, hm, by simp [Move.accepts]⟩
    · exact ⟨_, hm, List.any_eq_true.2 ⟨i, hi, Interval.contains_iff.2 hk⟩⟩
  · rintro ⟨m, hm, hk⟩
    cases m with
    | epsilon t => simp [Move.accepts] at hk
    | foreign name t => simp [Move.accepts] at hk
    | atomic label t =>
      obtain rfl : label = k := by simpa [Move.accepts] using hk
      exact Or.inl ⟨t, hm⟩
    | set intervals t =>
      obtain ⟨i, hi, hk⟩ := List.any_eq_true.1 hk
      exact Or.inr ⟨intervals, t, hm, i, hi, Interval.contains_iff.1 hk⟩

/-! ### The list and the test -/

/-- Under distinct identifiers collecting the kinds that may come next always comes to an end. It fails,
and then on a move that is not understood, exactly if such a move can be met along epsilon moves. Otherwise
the list has no repetitions, every kind can be tested, and a kind is listed exactly if it is accepted, which
is exactly if epsilon moves lead to a state with a move that is labelled with it. -/
theorem expected_kinds_exact (hd : a.DistinctIds) (s : Nat) :
    (∀ outcome, Collects a [] .empty (a.pending s) outcome ↔
      outcome = a.collect [] .empty (a.pending s)) ∧
    ((∃ fault, a.expected s = .error fault ∧ fault.family = .contract) ↔
      ∃ t, a.Path s [] t ∧ ∃ m ∈ a.moves t, m.isForeign = true) ∧
    ((¬ ∃ t, a.Path s [] t ∧ ∃ m ∈ a.moves t, m.isForeign = true) →
      ∃ kinds, a.expected s = .ok kinds ∧ kinds.Nodup ∧
        ∀ k, (∃ b, a.accepts s (some k) = .ok b) ∧
          [k ∈ kinds, a.accepts s (some k) = .ok true,
            ∃ t, a.Path s [] t ∧ a.Labelled t k].TFAE) := by
  rw [← not_understood_iff, not_not]
  refine ⟨fun outcome => collects_iff, exists_expected_error_iff hd, fun hu => ?_⟩
  obtain ⟨kinds, hk⟩ := hu.exists_expected
  refine ⟨kinds, hk, nodup_expected hk, fun k => ⟨hu.exists_accepts k, ?_⟩⟩
  have hexpects : (∃ t, a.Path s [] t ∧ a.Labelled t k) ↔ a.Expects s k := by
    simp only [labelled_iff, Expects]
  tfae_have 1 ↔ 3 := (mem_expected_iff hd hk).trans hexpects.symm
  tfae_have 2 ↔ 3 := (accepts_eq_true_iff hd hu).trans hexpects.symm
  tfae_finish

/-- Two states that lead to each other without a token. The first is left on a set with an empty, a reversed
and two overlapping intervals, the second at the end of the tokens. -/
def knot : Automaton :=
  ⟨#[⟨7, [.epsilon 1, .set [⟨5, 5⟩, ⟨9, 2⟩, ⟨2, 4⟩, ⟨3, 6⟩] 2]⟩, ⟨3, [.epsilon 0, .atomic (-1) 2]⟩,
    ⟨0, []⟩]⟩

theorem five_expected_in_knot :
    knot.DistinctIds ∧ ∃ kinds, knot.expected 0 = .ok kinds ∧ kinds.Nodup ∧ 5 ∈ kinds ∧
      knot.accepts 0 (some 5) = .ok true ∧ 6 ∉ kinds := by
  have hd : knot.DistinctIds := distinctIds_of_closed (by decide) (by decide)
  have hp : knot.Plain := plain_of_lt (by decide)
  have hu : ¬ ∃ t, knot.Path 0 [] t ∧ ∃ m ∈ knot.moves t, m.isForeign = true := by
    rintro ⟨t, -, m, hm, hf⟩
    simp [hp t m hm] at hf
  obtain ⟨kinds, hk, hnodup, hkinds⟩ := (expected_kinds_exact hd 0).2.2 hu
  have hsix : knot.accepts 0 (some 6) = .ok false := by
    cbv
  have hlabelled : ∃ t, knot.Path 0 [] t ∧ knot.Labelled t 5 :=
    ⟨0, .refl 0, Or.inr ⟨[⟨5, 5⟩, ⟨9, 2⟩, ⟨2, 4⟩, ⟨3, 6⟩], 2, by decide, ⟨3, 6⟩, by decide, by decide⟩⟩
  refine ⟨hd, kinds, hk, hnodup, ((hkinds 5).2.out 0 2).2 hlabelled,
    ((hkinds 5).2.out 1 2).2 hlabelled, fun hmem => ?_⟩
  have htrue : knot.accepts 0 (some 6) = .ok true := ((hkinds 6).2.out 0 1).1 hmem
  rw [htrue] at hsix
  cases hsix

end Automaton
end Typeahead
