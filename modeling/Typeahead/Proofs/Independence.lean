import Mathlib
import Typeahead.Proofs.Narrowing

/-!
Kinds are completed independently of each other. All walks of a completion share one path, but each walk
leaves it empty, so it finds what it would find alone. What kinds in a row bring is therefore what they bring
one by one, put together and without repetitions, and each brings the tokens of a plain recursion in which
the states on the way are an argument.
-/
namespace Typeahead.Completion

variable {chars : Automaton} {preference : Preference} {path : List Nat} {points points' : List Point}
  {ws : List Text} {p : Point} {m : Move} {t : Task} {g : Progress} {entry : Nat} {kinds : List Int}

/-! ### Reading tokens with the path as an argument -/

/-- Where one move leads: with each of its characters in the order of its intervals, as far as the case
preference keeps the character and nothing else is typed there. -/
def Point.along (preference : Preference) (p : Point) : Move → List Point
  | .epsilon s => [{ p with state := s }]
  | m => ((m.symbols.filterMap charAt?).filter (reads preference m)).filterMap (p.read m.target)

/-- Where a point leads, move by move. -/
def Point.onward (chars : Automaton) (preference : Preference) (p : Point) : List Point :=
  (chars.moves p.state).flatMap (p.along preference)

theorem onward_eq_nil (preference : Preference) (h : chars.size ≤ p.state) :
    p.onward chars preference = [] := by
  rw [Point.onward, chars.moves_eq_nil h, List.flatMap_nil]

/-- The tokens read from some points, depth first and with repetitions. The states of `path` are not
entered. -/
def readAll (chars : Automaton) (preference : Preference) (path : List Nat) : List Point → List Text
  | [] => []
  | p :: points =>
    if _h : p.state ∈ path then readAll chars preference path points
    else
      tokenAt chars p ++ readAll chars preference (p.state :: path) (p.onward chars preference) ++
        readAll chars preference path points
termination_by points => (unvisited chars path, points.length)
decreasing_by
  · exact .right _ (by simp)
  · by_cases hs : p.state < chars.size
    · exact .left _ _ (unvisited_cons hs (by simpa using _h))
    · have hle := unvisited_cons_le chars path p.state
      rw [onward_eq_nil preference (Nat.le_of_not_lt hs), Prod.lex_def]
      simp only [List.length_nil, List.length_cons]
      omega
  · exact .right _ (by simp)

theorem readAll_of_mem (h : p.state ∈ path) :
    readAll chars preference path (p :: points) = readAll chars preference path points := by
  rw [readAll, dif_pos h]

theorem readAll_of_not_mem (h : p.state ∉ path) :
    readAll chars preference path (p :: points) =
      tokenAt chars p ++ readAll chars preference (p.state :: path) (p.onward chars preference) ++
        readAll chars preference path points := by
  rw [readAll, dif_neg h]

/-- Points are worked off one by one. -/
theorem readAll_eq_flatMap (points : List Point) :
    readAll chars preference path points =
      points.flatMap fun p => readAll chars preference path [p] := by
  induction points with
  | nil =>
    rw [readAll]
    rfl
  | cons p points ih =>
    have hnil : readAll chars preference path [] = [] := by rw [readAll]
    rw [List.flatMap_cons, ← ih]
    by_cases h : p.state ∈ path
    · rw [readAll_of_mem h, readAll_of_mem h, hnil, List.nil_append]
    · rw [readAll_of_not_mem h, readAll_of_not_mem h, hnil, List.append_nil]

theorem alike_readAll (h : Alike points points') :
    Alike (readAll chars preference path points) (readAll chars preference path points') := by
  rw [readAll_eq_flatMap points, readAll_eq_flatMap points']
  exact h.flatMap _

/-! ### The recursion finds what the walks find -/

theorem mem_symbols_charAt? {c : CodePoint} :
    c ∈ m.symbols.filterMap charAt? ↔ m.accepts c.toNat = true := by
  simp only [List.mem_filterMap, charAt?_eq_some_iff, Move.accepts_iff_mem_symbols, exists_eq_right]

theorem of_characters_eq_ok {cs : List CodePoint} (h : characters m = .ok cs) :
    cs = m.symbols.filterMap charAt? := by
  rw [characters] at h
  split at h
  · cases h
  · cases h
    rfl

/-- A walk follows a typed character once, also if several intervals hold it. -/
theorem alike_along {l : List Point} (h : follow chars preference p m = .ok l) :
    Alike l (p.along preference m) := by
  cases m with
  | epsilon s =>
    cases h
    exact .refl _
  | atomic label s =>
    obtain ⟨cs, hcs, h⟩ := Outcome.bind_eq_ok.1 h
    cases h
    have hkept : cs.filter (reads preference (.atomic label s)) = cs := by
      rw [List.filter_eq_self]
      intro c hc
      simp [reads, (mem_characters_iff hcs).1 hc]
    simp only [Point.along, ← of_characters_eq_ok hcs, hkept]
    exact .refl _
  | set intervals s =>
    simp only [follow] at h
    split at h
    · obtain ⟨cs, hcs, h⟩ := Outcome.bind_eq_ok.1 h
      cases h
      have hkept : cs.filter (reads preference (.set intervals s)) =
          cs.filter (!preference.drops (.set intervals s) ·) := by
        apply List.filter_congr
        intro c hc
        simp [reads, (mem_characters_iff hcs).1 hc]
      simp only [Point.along, ← of_characters_eq_ok hcs, hkept]
      exact .refl _
    · rename_i head rest hr
      cases h
      have hmem : head ∈ ((Move.set intervals s).symbols.filterMap charAt?).filter
          (reads preference (.set intervals s)) ↔ reads preference (.set intervals s) head = true := by
        rw [List.mem_filter, mem_symbols_charAt?, reads, Bool.and_eq_true, and_self_left]
      refine .trans ?_ (alike_filterMap_read hr _).symm
      simp only [hmem, reads]
      exact .refl _
  | foreign name s => simp [follow] at h

theorem alike_onward {next : List Point} (h : expand chars preference p = .ok next) :
    Alike next (p.onward chars preference) := by
  obtain ⟨lists, hl, hnext⟩ := Outcome.bind_eq_ok.1 h
  cases hnext
  clear h
  rw [Point.onward]
  generalize chars.moves p.state = moves at hl
  induction moves generalizing lists with
  | nil =>
    cases hl
    exact .refl _
  | cons m moves ih =>
    obtain ⟨first, others, hm, ho, rfl⟩ := Outcome.mapM_cons_eq_ok hl
    rw [List.flatten_cons, List.flatMap_cons]
    exact (alike_along hm).append (ih others ho)

theorem alike_readAll_of_enumerate (h : enumerate chars preference path points = .ok ws) :
    Alike ws (readAll chars preference path points) := by
  fun_induction enumerate chars preference path points generalizing ws with
  | case1 path =>
    cases h
    rw [readAll]
    exact .refl _
  | case2 path p points hp ih =>
    rw [readAll_of_mem (by simpa using hp)]
    exact ih h
  | case3 path p points hp fault he => simp at h
  | case4 path p points hp next he ihin ihout =>
    obtain ⟨inner, hin, h⟩ := Outcome.bind_eq_ok.1 h
    obtain ⟨others, ho, h⟩ := Outcome.bind_eq_ok.1 h
    cases h
    rw [readAll_of_not_mem (by simpa using hp)]
    have hinner := (ihin hin).trans (alike_readAll (alike_onward he))
    exact ((Alike.refl _).append hinner).append (ihout ho)

/-! ### One walk after another -/

/-- A walk records the tokens of the recursion and leaves the path empty, as it was. -/
theorem walk_eq (hg : g.path = [])
    (h : enumerate t.chars t.preference [] [⟨entry, [], t.typed⟩] = .ok ws) :
    walk t g entry = ⟨g.recordAll t.typed ws, none⟩ := by
  rw [← hg] at h
  exact (run_enters h []).trans (run_of_done rfl)

/-- Whether a walk fails has nothing to do with what was found before. -/
theorem fault_walk_eq_none_iff (hg : g.path = []) : (walk t g entry).fault = none ↔
    ∃ ws, enumerate t.chars t.preference [] [⟨entry, [], t.typed⟩] = .ok ws := by
  cases h : enumerate t.chars t.preference [] [⟨entry, [], t.typed⟩] with
  | error fault =>
    rw [← hg] at h
    have hfault : (walk t g entry).fault = some fault := run_enters_fault h []
    simp [hfault]
  | ok ws => simp [walk_eq hg h]

/-- The kinds can be completed exactly if each walk alone does not fail. -/
theorem fault_complete_eq_none_iff (hg : g.path = []) : (complete t g kinds).fault = none ↔
    ∀ entry ∈ kinds.filterMap t.entry, (walk t {} entry).fault = none := by
  induction kinds generalizing g with
  | nil => simp [complete]
  | cons kind kinds ih =>
    rw [complete]
    cases he : t.entry kind with
    | none =>
      rw [List.filterMap_cons_none he]
      exact ih hg
    | some entry =>
      rw [List.filterMap_cons_some he, List.forall_mem_cons, fault_walk_eq_none_iff rfl,
        ← fault_walk_eq_none_iff hg]
      cases hf : (walk t g entry).fault with
      | some fault => simp [hf]
      | none =>
        obtain ⟨ws, hws⟩ := (fault_walk_eq_none_iff hg).1 hf
        simp only [walk_eq hg hws, true_and]
        exact ih ((Progress.path_recordAll g _ _).trans hg)

theorem fault_complete_of_subset {ks : List Int} (h : (complete t {} kinds).fault = none)
    (hks : ks ⊆ kinds) : (complete t {} ks).fault = none := by
  rw [fault_complete_eq_none_iff rfl] at h ⊢
  exact fun entry hentry => h entry (List.filterMap_subset _ hks hentry)

/-- A path that was empty before is empty again after the last of some kinds. -/
theorem path_complete (hg : g.path = []) (h : (complete t g kinds).fault = none) :
    (complete t g kinds).progress.path = [] := by
  induction kinds generalizing g with
  | nil => exact hg
  | cons kind kinds ih =>
    rw [complete] at h ⊢
    cases he : t.entry kind with
    | none =>
      rw [he] at h
      exact ih hg h
    | some entry =>
      simp only [he] at h ⊢
      cases hf : (walk t g entry).fault with
      | some fault => simp [hf] at h
      | none =>
        obtain ⟨ws, hws⟩ := (fault_walk_eq_none_iff hg).1 hf
        simp only [walk_eq hg hws] at h ⊢
        exact ih ((Progress.path_recordAll g _ _).trans hg) h

/-- What reading from the entries of the kinds, one after another, adds to what is typed. -/
def tails (t : Task) (kinds : List Int) : List Text :=
  (kinds.filterMap t.entry).flatMap fun entry =>
    (readAll t.chars t.preference [] [⟨entry, [], t.typed⟩]).map (tail t.typed)

theorem tails_append (t : Task) (ks₁ ks₂ : List Int) :
    tails t (ks₁ ++ ks₂) = tails t ks₁ ++ tails t ks₂ := by
  simp [tails]

theorem alike_tails (h : words t kinds = .ok ws) : Alike (ws.map (tail t.typed)) (tails t kinds) := by
  induction kinds generalizing ws with
  | nil =>
    cases h
    exact .refl _
  | cons kind kinds ih =>
    rw [words] at h
    cases he : t.entry kind with
    | none =>
      rw [he] at h
      rw [tails, List.filterMap_cons_none he]
      exact ih h
    | some entry =>
      rw [he] at h
      obtain ⟨first, hf, h⟩ := Outcome.bind_eq_ok.1 h
      obtain ⟨others, ho, h⟩ := Outcome.bind_eq_ok.1 h
      cases h
      rw [tails, List.filterMap_cons_some he, List.flatMap_cons, List.map_append]
      exact ((alike_readAll_of_enumerate hf).map _).append (ih ho)

theorem outcome_eq_tails (h : (complete t {} kinds).fault = none) :
    (complete t {} kinds).outcome = .ok (tails t kinds).eraseDups := by
  have hok : (complete t {} kinds).outcome = .ok (complete t {} kinds).progress.found.toList := by
    rw [Ended.outcome, h]
  rw [outcome_complete_empty] at hok
  obtain ⟨ws, hws, -⟩ := Outcome.map_eq_ok.1 hok
  rw [outcome_complete_empty, hws]
  exact congrArg Except.ok (alike_tails hws)

/-- Kinds can be completed together exactly if each can be alone. Then they bring, each once and in order,
the tails that reading from their entries brings; the path is empty after every kind; and wherever the kinds
are divided, both parts alone bring what they bring together. -/
theorem kinds_completed_independently (t : Task) (kinds : List Int) :
    ((complete t {} kinds).fault = none ↔
      ∀ entry ∈ kinds.filterMap t.entry, (walk t {} entry).fault = none) ∧
    ((complete t {} kinds).fault = none →
      (complete t {} kinds).outcome = .ok (tails t kinds).eraseDups ∧
      (∀ ks, ks <+: kinds →
        (complete t {} ks).fault = none ∧ (complete t {} ks).progress.path = []) ∧
      ∀ ks₁ ks₂, ks₁ ++ ks₂ = kinds → ∃ found₁ found₂,
        (complete t {} ks₁).outcome = .ok found₁ ∧ (complete t {} ks₂).outcome = .ok found₂ ∧
          (complete t {} kinds).outcome = .ok (found₁ ++ found₂).eraseDups) := by
  refine ⟨fault_complete_eq_none_iff rfl, fun h => ⟨outcome_eq_tails h, ?_, ?_⟩⟩
  · intro ks hks
    have hnone := fault_complete_of_subset h hks.subset
    exact ⟨hnone, path_complete rfl hnone⟩
  · rintro ks₁ ks₂ rfl
    have h₁ := fault_complete_of_subset h (List.subset_append_left ks₁ ks₂)
    have h₂ := fault_complete_of_subset h (List.subset_append_right ks₁ ks₂)
    refine ⟨_, _, outcome_eq_tails h₁, outcome_eq_tails h₂, ?_⟩
    rw [outcome_eq_tails h, tails_append]
    exact congrArg Except.ok ((alike_eraseDups _).append (alike_eraseDups _)).symm

/-- Two kinds whose tokens `ac` and `bc` share the state before their last character, from which the entry
of the first can be entered again. -/
def merging : Task where
  chars := ⟨#[⟨0, [.atomic 97 2]⟩, ⟨1, [.atomic 98 2]⟩, ⟨2, [.epsilon 0, .set [⟨99, 100⟩] 3]⟩, ⟨3, []⟩]⟩
  entry := fun kind => if kind = 1 ∨ kind = 3 then some 0 else if kind = 2 then some 1 else none
  typed := []
  preference := .both

theorem merging_completed_independently :
    tails merging [1, 9, 2, 3] = ([['a', 'c'], ['b', 'c'], ['a', 'c']] : List Text) ∧
      (complete merging {} [1, 9, 2, 3]).outcome = .ok [['a', 'c'], ['b', 'c']] ∧
      (complete merging {} [1, 9]).progress.path = [] := by
  have hfault : (complete merging {} [1, 9, 2, 3]).fault = none := by
    cbv
  have htails : tails merging [1, 9, 2, 3] = ([['a', 'c'], ['b', 'c'], ['a', 'c']] : List Text) := by
    cbv
  obtain ⟨houtcome, hpath, -⟩ := (kinds_completed_independently merging [1, 9, 2, 3]).2 hfault
  rw [htails] at houtcome
  exact ⟨htails, houtcome, (hpath [1, 9] ⟨[2, 3], rfl⟩).2⟩

end Typeahead.Completion
