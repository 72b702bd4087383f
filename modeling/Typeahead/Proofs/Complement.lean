import Typeahead.Interval.Complement

/-!
The sweep over sorted intervals leaves exactly the numbers that lie in none of them, however they
overlap and whichever way round their ends are. What it returns stays within the alphabet, in order and
free of overlaps unless an interval is reversed: that leaves the cursor before the end of the gap that was
just passed.
-/
namespace Typeahead.Interval

variable {g i j : Interval} {intervals : List Interval} {alphabet : Interval} {stop cursor x : Int}

theorem precedes_iff :
    precedes i j = true ↔ i.start < j.start ∨ i.start = j.start ∧ i.stop ≤ j.stop := by
  simp [precedes]

theorem precedes_trans (i j k : Interval) (h : precedes i j = true) (h' : precedes j k = true) :
    precedes i k = true := by
  rw [precedes_iff] at *
  omega

theorem precedes_total (i j : Interval) : (precedes i j || precedes j i) = true := by
  rw [Bool.or_eq_true, precedes_iff, precedes_iff]
  omega

/-- Sorted intervals start one after the other. -/
theorem pairwise_start_mergeSort (intervals : List Interval) :
    (intervals.mergeSort precedes).Pairwise fun i j => i.start ≤ j.start := by
  refine (List.pairwise_mergeSort precedes_trans precedes_total intervals).imp fun h => ?_
  rw [precedes_iff] at h
  omega

/-- The gap before an interval, then the gaps behind it unless the sweep is at its end. -/
theorem gaps_cons (stop cursor : Int) (i : Interval) (rest : List Interval) :
    gaps stop cursor (i :: rest) =
      (if i.start > cursor then [⟨cursor, min i.start stop⟩] else []) ++
        if max cursor i.stop ≥ stop then [] else gaps stop (max cursor i.stop) rest := by
  simp only [gaps]
  split <;> simp

/-- The gaps hold what lies between the cursor and the stop and in none of the intervals still to
pass. -/
theorem contains_gaps_iff (h : intervals.Pairwise fun i j => i.start ≤ j.start) :
    (∃ g ∈ gaps stop cursor intervals, g.contains x = true) ↔
      cursor ≤ x ∧ x < stop ∧ ∀ i ∈ intervals, i.contains x = false := by
  induction intervals generalizing cursor with
  | nil =>
    by_cases hlt : cursor < stop
    · simp [gaps, hlt]
    · simp only [gaps, hlt, if_false, List.not_mem_nil, false_and, exists_false, false_iff]
      omega
  | cons i rest ih =>
    obtain ⟨hle, hrest⟩ := List.pairwise_cons.1 h
    have hfirst : (∃ g ∈ (if i.start > cursor then [⟨cursor, min i.start stop⟩] else [] :
        List Interval), g.contains x = true) ↔ cursor ≤ x ∧ x < i.start ∧ x < stop := by
      by_cases hgt : i.start > cursor
      · simp only [hgt, if_true, List.mem_singleton, exists_eq_left, contains_iff]
        omega
      · simp only [hgt, if_false, List.not_mem_nil, false_and, exists_false, false_iff]
        omega
    have hlater : (∃ g ∈ (if max cursor i.stop ≥ stop then [] else
        gaps stop (max cursor i.stop) rest), g.contains x = true) ↔
          max cursor i.stop ≤ x ∧ x < stop ∧ ∀ j ∈ rest, j.contains x = false := by
      by_cases hge : max cursor i.stop ≥ stop
      · simp only [hge, if_true, List.not_mem_nil, false_and, exists_false, false_iff]
        omega
      · simpa only [hge, if_false] using ih hrest
    simp only [gaps_cons, List.mem_append, or_and_right, exists_or, hfirst, hlater, List.forall_mem_cons]
    simp only [contains, Bool.and_eq_false_imp, decide_eq_true_eq, decide_eq_false_iff_not]
    constructor
    · rintro (⟨hc, hi, hs⟩ | ⟨hc, hs, hno⟩)
      · -- All later intervals start behind the gap.
        refine ⟨hc, hs, fun _ => by omega, fun j hj _ => ?_⟩
        have := hle j hj
        omega
      · exact ⟨by omega, hs, fun _ => by omega, hno⟩
    · rintro ⟨hc, hs, hi, hno⟩
      by_cases hlt : x < i.start
      · exact Or.inl ⟨hc, hlt, hs⟩
      · have := hi (by omega)
        exact Or.inr ⟨by omega, hs, hno⟩

/-- The complement holds the numbers of the alphabet that lie in none of the intervals. -/
theorem contains_complement_iff :
    (∃ g ∈ complement intervals alphabet, g.contains x = true) ↔
      alphabet.contains x = true ∧ ∀ i ∈ intervals, i.contains x = false := by
  have hfilter : (∃ g ∈ complement intervals alphabet, g.contains x = true) ↔
      ∃ g ∈ gaps alphabet.stop alphabet.start (intervals.mergeSort precedes), g.contains x = true := by
    constructor
    · rintro ⟨g, hg, hx⟩
      exact ⟨g, (List.mem_filter.1 hg).1, hx⟩
    · rintro ⟨g, hg, hx⟩
      refine ⟨g, List.mem_filter.2 ⟨hg, ?_⟩, hx⟩
      rw [contains_iff] at hx
      exact decide_eq_true (by omega)
  rw [hfilter, contains_gaps_iff (pairwise_start_mergeSort intervals), contains_iff, and_assoc]
  simp only [List.mem_mergeSort]

/-! ### Where the gaps lie -/

theorem within_of_mem_gaps (h : g ∈ gaps stop cursor intervals) :
    cursor ≤ g.start ∧ g.stop ≤ stop := by
  induction intervals generalizing cursor with
  | nil =>
    simp only [gaps] at h
    split at h
    · obtain rfl := List.mem_singleton.1 h
      exact ⟨Int.le_refl _, Int.le_refl _⟩
    · simp at h
  | cons i rest ih =>
    rw [gaps_cons] at h
    rcases List.mem_append.1 h with h | h
    · split at h
      · obtain rfl := List.mem_singleton.1 h
        exact ⟨Int.le_refl _, Int.min_le_right _ _⟩
      · simp at h
    · split at h
      · simp at h
      · obtain ⟨hstart, hstop⟩ := ih h
        exact ⟨by omega, hstop⟩

/-- An interval that is not reversed takes the cursor at least to the end of the gap before it, and no
later gap starts before the cursor. -/
theorem pairwise_gaps (h : ∀ i ∈ intervals, i.start ≤ i.stop) :
    (gaps stop cursor intervals).Pairwise fun g g' => g.stop ≤ g'.start := by
  induction intervals generalizing cursor with
  | nil =>
    simp only [gaps]
    split <;> simp
  | cons i rest ih =>
    obtain ⟨hi, hrest⟩ := List.forall_mem_cons.1 h
    rw [gaps_cons, List.pairwise_append]
    refine ⟨by split <;> simp, ?_, ?_⟩
    · split
      · exact .nil
      · exact ih hrest
    · intro g hg g' hg'
      split at hg
      · obtain rfl := List.mem_singleton.1 hg
        split at hg'
        · simp at hg'
        · have hstart := (within_of_mem_gaps hg').1
          change min i.start stop ≤ g'.start
          omega
      · simp at hg

/-- A reversed interval leaves the cursor behind, so that the next gap overlaps the one before it. -/
example : gaps 10 0 [⟨5, 2⟩, ⟨7, 8⟩] = [⟨0, 5⟩, ⟨2, 7⟩, ⟨8, 10⟩] := by
  decide

theorem lt_of_mem_complement (h : g ∈ complement intervals alphabet) : g.start < g.stop :=
  of_decide_eq_true (List.mem_filter.1 h).2

theorem within_of_mem_complement (h : g ∈ complement intervals alphabet) :
    alphabet.start ≤ g.start ∧ g.stop ≤ alphabet.stop :=
  within_of_mem_gaps (List.mem_filter.1 h).1

theorem pairwise_complement (h : ∀ i ∈ intervals, i.start ≤ i.stop) (alphabet : Interval) :
    (complement intervals alphabet).Pairwise fun g g' => g.stop ≤ g'.start := by
  apply List.Pairwise.filter
  apply pairwise_gaps
  intro i hi
  exact h i (List.mem_mergeSort.1 hi)

/-- A complement is exact, whatever the intervals and the alphabet are: it holds the numbers of the
alphabet outside all intervals. It consists of intervals that hold something and lie within the alphabet,
and they are in order and apart from each other if no interval was reversed. -/
theorem complement_exact (intervals : List Interval) (alphabet : Interval) :
    (∀ x, (∃ g ∈ complement intervals alphabet, g.contains x = true) ↔
      (alphabet.start ≤ x ∧ x < alphabet.stop) ∧ ∀ i ∈ intervals, i.contains x = false) ∧
    (∀ g ∈ complement intervals alphabet,
      g.start < g.stop ∧ alphabet.start ≤ g.start ∧ g.stop ≤ alphabet.stop) ∧
    ((∀ i ∈ intervals, i.start ≤ i.stop) →
      ((complement intervals alphabet).Pairwise fun g g' => precedes g g' = true) ∧
        (complement intervals alphabet).Pairwise fun g g' =>
          ∀ x, ¬ (g.contains x = true ∧ g'.contains x = true)) := by
  refine ⟨fun x => ?_, fun g hg => ?_, fun h => ?_⟩
  · rw [contains_complement_iff, contains_iff]
  · exact ⟨lt_of_mem_complement hg, within_of_mem_complement hg⟩
  · have hapart := pairwise_complement h alphabet
    constructor
    · refine hapart.imp_of_mem fun {g g'} hg _ hle => ?_
      have hlt := lt_of_mem_complement hg
      rw [precedes_iff]
      omega
    · refine hapart.imp fun {g g'} hle x => ?_
      rintro ⟨hx, hx'⟩
      rw [contains_iff] at hx hx'
      omega

/-- Out of order, empty, inside another and outside the alphabet. -/
def scattered : List Interval := [⟨5, 8⟩, ⟨3, 3⟩, ⟨6, 7⟩, ⟨-4, 1⟩, ⟨20, 30⟩]

theorem scattered_complement_apart :
    complement scattered ⟨0, 10⟩ = [⟨1, 3⟩, ⟨3, 5⟩, ⟨8, 10⟩] ∧
      (complement scattered ⟨0, 10⟩).Pairwise fun g g' =>
        ∀ x, ¬ (g.contains x = true ∧ g'.contains x = true) := by
  have hsorted : scattered.mergeSort precedes = [⟨-4, 1⟩, ⟨3, 3⟩, ⟨5, 8⟩, ⟨6, 7⟩, ⟨20, 30⟩] := by
    simp [scattered, precedes, List.mergeSort]
  refine ⟨?_, ((complement_exact scattered ⟨0, 10⟩).2.2 (by decide)).2⟩
  rw [complement, hsorted]
  decide

end Typeahead.Interval
