import Mathlib
import Typeahead.Proofs.Expected
import Typeahead.Proofs.Frontier

/-!
Searches for the frontier that are run to their end. Every search ends, after finitely many steps, and
its result is exact: it fails if and only if a path can meet a move that is not understood before the
last token is consumed, and otherwise it has found, once each, the states where a path that spells all
kinds has just consumed the last one. Hence one more kind leads on from a frontier exactly if it is
accepted, or expected, at one of the frontier states.
-/
namespace Typeahead.Frontier

variable {a : Automaton} {kinds : List (Option Int)} {c : Search} {e : Ended} {start : Nat}
  {w : List Int} {k : Int}

/-- A search that is taken step by step comes to this end. A derivation is finite, and so is the
search. -/
inductive Drains (a : Automaton) (kinds : List (Option Int)) : Search → Ended → Prop where
  | done {c : Search} (h : step a kinds c = .done) : Drains a kinds c ⟨c, none⟩
  | fail {c c' : Search} {fault : Fault} (h : step a kinds c = .fail c' fault) :
      Drains a kinds c ⟨c', some fault⟩
  | go {c c' : Search} {e : Ended} (h : step a kinds c = .go c') (hd : Drains a kinds c' e) :
      Drains a kinds c e

theorem drains_run (a : Automaton) (kinds : List (Option Int)) (c : Search) :
    Drains a kinds c (run a kinds none c) := by
  cases h : step a kinds c with
  | done =>
    rw [run_of_done h]
    exact .done h
  | fail c' fault =>
    rw [run_of_fail h]
    exact .fail h
  | go c' =>
    rw [run_of_go h]
    exact .go h (drains_run a kinds c')
termination_by weight a kinds.length c.marks c.stack
decreasing_by exact weight_step ‹_›

/-- Every search comes to an end, and to no other than that of running it. -/
theorem drains_iff : Drains a kinds c e ↔ e = run a kinds none c := by
  constructor
  · intro h
    induction h with
    | done h => rw [run_of_done h]
    | fail h => rw [run_of_fail h]
    | go h _ ih => rw [run_of_go h, ih]
  · rintro rfl
    exact drains_run a kinds c

/-! ### What is found -/

/-- A path that spells the kinds of the first tokens, but not of all, leads to a state with a move that is
not understood. -/
def Blocked (a : Automaton) (start : Nat) (w : List Int) : Prop :=
  ∃ i < w.length, ∃ s, a.Path start (w.take i) s ∧ ∃ m ∈ a.moves s, m.isForeign = true

theorem fault_eq_none_iff : (all a (w.map some) start).fault = none ↔ ¬ Blocked a start w := by
  rw [← Option.not_isSome_iff_eq_none, fault_isSome_iff]
  rfl

theorem Blocked.exists_fault (h : Blocked a start w) :
    ∃ fault, (all a (w.map some) start).fault = some fault ∧ fault.family = .contract := by
  obtain ⟨fault, hf⟩ := Option.isSome_iff_exists.1 (fault_isSome_iff.2 h)
  obtain ⟨-, -, s, -, m, -, -, hfault⟩ := foreign_of_fault hf
  exact ⟨fault, hf, by rw [hfault]; rfl⟩

theorem not_blocked_nil (a : Automaton) (start : Nat) : ¬ Blocked a start [] := by
  rintro ⟨i, hi, -⟩
  exact Nat.not_lt_zero i hi

/-- Without tokens the start is the whole frontier. -/
theorem found_nil (a : Automaton) (start : Nat) : (all a [] start).search.found = [start] := by
  have hfrontier : explore a [] {} [(start, 0)] = .ok [start] := by
    rw [explore, explore]
    rfl
  rw [all_of_explore hfrontier]
  rfl

/-- A search always ends. It fails, and then on a move that is not understood, exactly if such a move can
be met along the first tokens. Otherwise it finds, each once, the states at which a path spelling all
kinds arrives. -/
theorem drained_frontier_exact (a : Automaton) (w : List Int) (start : Nat) :
    (∀ e, Drains a (w.map some) (.begin {} start) e ↔ e = all a (w.map some) start) ∧
      ((∃ fault, (all a (w.map some) start).fault = some fault ∧ fault.family = .contract) ↔
        Blocked a start w) ∧
      (¬ Blocked a start w → (all a (w.map some) start).fault = none ∧
        (all a (w.map some) start).search.found.Nodup ∧
        ∀ q, q ∈ (all a (w.map some) start).search.found ↔ a.Arrives start w q) ∧
      (w = [] → (all a (w.map some) start).fault = none ∧
        (all a (w.map some) start).search.found = [start]) := by
  refine ⟨fun e => drains_iff, ⟨?_, Blocked.exists_fault⟩, ?_, ?_⟩
  · rintro ⟨fault, hf, -⟩
    exact fault_isSome_iff.1 (by simp [hf])
  · intro hb
    have hnone := fault_eq_none_iff.2 hb
    exact ⟨hnone, nodup_found hnone, fun q => mem_found_iff hnone⟩
  · rintro rfl
    exact ⟨fault_eq_none_iff.2 (not_blocked_nil a start), found_nil a start⟩

/-! ### One more kind -/

theorem found_ne_nil_iff (h : (all a (w.map some) start).fault = none) :
    (all a (w.map some) start).search.found ≠ [] ↔ ∃ t, a.Path start w t := by
  constructor
  · intro hne
    obtain ⟨f, hf⟩ := List.exists_mem_of_ne_nil _ hne
    exact ⟨f, ((mem_found_iff h).1 hf).path⟩
  · rintro ⟨t, ht⟩
    exact found_ne_nil h ht

theorem fault_eq_none_of_plain (hp : a.Plain) (w : List Int) (start : Nat) :
    (all a (w.map some) start).fault = none := by
  rw [fault_eq_none_iff]
  rintro ⟨-, -, s, -, m, hm, hforeign⟩
  simp [hp s m hm] at hforeign

/-- A kind is expected at a frontier state exactly if the search over one more token of that kind finds a
state. -/
theorem exists_expects_iff (hp : a.Plain) :
    (∃ f ∈ (all a (w.map some) start).search.found, a.Expects f k) ↔
      (all a ((w ++ [k]).map some) start).search.found ≠ [] := by
  rw [found_ne_nil_iff (fault_eq_none_of_plain hp _ start), Automaton.path_append_singleton_iff]
  simp only [mem_found_iff (fault_eq_none_of_plain hp w start)]

/-- The searches, the test of a kind and the list of expected kinds all give an answer, and they agree on
whether one more token can follow. -/
theorem acceptance_agrees_with_walking (hd : a.DistinctIds) (hp : a.Plain) (start : Nat)
    (w : List Int) (k : Int) :
    ((all a (w.map some) start).fault = none ∧
      (all a ((w ++ [k]).map some) start).fault = none ∧
      ∀ f, (∃ b, a.accepts f (some k) = .ok b) ∧ ∃ kinds, a.expected f = .ok kinds) ∧
    ((∃ f ∈ (all a (w.map some) start).search.found, a.accepts f (some k) = .ok true) ↔
      (all a ((w ++ [k]).map some) start).search.found ≠ []) ∧
    ((∃ f ∈ (all a (w.map some) start).search.found,
        ∃ kinds, a.expected f = .ok kinds ∧ k ∈ kinds) ↔
      (all a ((w ++ [k]).map some) start).search.found ≠ []) := by
  have hu := hp.understood
  have hexpected : ∀ f, (∃ kinds, a.expected f = .ok kinds ∧ k ∈ kinds) ↔ a.Expects f k := by
    intro f
    obtain ⟨kinds, hk⟩ := (hu f).exists_expected
    simp [hk, Automaton.mem_expected_iff hd hk]
  refine ⟨⟨fault_eq_none_of_plain hp w start, fault_eq_none_of_plain hp _ start, fun f =>
    ⟨(hu f).exists_accepts k, (hu f).exists_expected⟩⟩, ?_, ?_⟩
  · simp only [Automaton.accepts_eq_true_iff hd (hu _), exists_expects_iff hp]
  · simp only [hexpected, exists_expects_iff hp]

/-- Two states that lead to each other without a token; the first also stays where it is on `1`, the
second is left on `2` or `3`. -/
def pendulum : Automaton :=
  ⟨#[⟨0, [.epsilon 1, .atomic 1 0]⟩, ⟨1, [.epsilon 0, .set [⟨3, 4⟩, ⟨2, 4⟩] 2]⟩, ⟨2, []⟩]⟩

theorem three_follows_in_pendulum :
    (all pendulum ([1, 1, 3].map some) 0).search.found ≠ [] ∧
      ∃ f ∈ (all pendulum ([1, 1].map some) 0).search.found,
        ∃ kinds, pendulum.expected f = .ok kinds ∧ 3 ∈ kinds := by
  have haccepts : pendulum.accepts 0 (some 3) = .ok true := by
    cbv
  have hfound : (all pendulum ([1, 1].map some) 0).search.found = [0] := by
    cbv
  obtain ⟨-, hwalk, hexpected⟩ := acceptance_agrees_with_walking (a := pendulum)
    (Automaton.distinctIds_of_closed (by decide) (by decide)) (Automaton.plain_of_lt (by decide))
    0 [1, 1] 3
  have hne := hwalk.1 ⟨0, hfound ▸ List.mem_cons_self, haccepts⟩
  exact ⟨hne, hexpected.2 hne⟩

end Typeahead.Frontier
