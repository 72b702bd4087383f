import Typeahead.Frontier.Search
import Typeahead.Outcome
import Typeahead.Proofs.Reach

/-!
The frontier search is exact. Its stack machine is a recursion over pairs of a state and a token
index; marks cut only ways that come back to a pair, and what is reachable at all is reachable
without coming back. Hence the states found are those at which a path that spells all kinds arrives,
and a fault shows exactly if some path meets a move that is not understood before the last token.
-/
namespace Typeahead.Frontier

open Relation (ReflTransGen)

variable {a : Automaton} {kinds : List (Option Int)} {m : Marks} {s i start : Nat}
  {pairs rest : List (Nat × Nat)} {l : List Nat} {fault : Fault} {w : List Int}

/-- The frontier states found below some pairs, in order and with repetitions. -/
def explore (a : Automaton) (kinds : List (Option Int)) (m : Marks) :
    List (Nat × Nat) → Except Fault (List Nat)
  | [] => .ok []
  | (s, i) :: rest =>
    if _h : m.get? s = some i then explore a kinds m rest
    else
      match _hk : kinds[i]? with
      | none => do return s :: (← explore a kinds m rest)
      | some kind =>
        match _ha : advance a s i kind with
        | .error fault => .error fault
        | .ok targets => do
          let inner ← explore a kinds (m.set s i) targets
          let others ← explore a kinds m rest
          return inner ++ others
termination_by pairs => weight a kinds.length m (pairs.map fun p => .enter p.1 p.2)
decreasing_by
  · have := one_lt_treeCost (breadth a) (rank a kinds.length m i)
    simp only [List.map_cons, weight, cost]
    omega
  · have := one_lt_treeCost (breadth a) (rank a kinds.length m i)
    simp only [List.map_cons, weight, cost]
    omega
  · have := weight_advance _hk _h _ha []
    simp only [List.map_cons, List.append_nil, weight] at this ⊢
    omega
  · have := one_lt_treeCost (breadth a) (rank a kinds.length m i)
    simp only [List.map_cons, weight, cost]
    omega

/-- Adds a state unless it was found before. -/
def report (found : List Nat) (s : Nat) : List Nat :=
  if found.contains s then found else found ++ [s]

theorem mem_foldl_report {found : List Nat} :
    s ∈ l.foldl report found ↔ s ∈ found ∨ s ∈ l := by
  induction l generalizing found with
  | nil => simp
  | cons t l ih =>
    rw [List.foldl_cons, ih, report]
    split
    · rename_i ht
      have := List.contains_iff_mem.1 ht
      grind
    · simp [or_assoc]

theorem nodup_foldl_report {found : List Nat} (h : found.Nodup) : (l.foldl report found).Nodup := by
  induction l generalizing found with
  | nil => exact h
  | cons t l ih =>
    rw [List.foldl_cons]
    apply ih
    rw [report]
    split
    · exact h
    · rename_i ht
      have hnot : t ∉ found := fun hmem => ht (List.contains_iff_mem.2 hmem)
      have hdisjoint : ∀ x ∈ found, ∀ y ∈ [t], x ≠ y := by
        intro x hx y hy heq
        exact hnot (List.mem_singleton.1 hy ▸ heq ▸ hx)
      exact List.nodup_append.2 ⟨h, by simp, hdisjoint⟩

/-! ### The machine and the recursion -/

/-- Frames that enter pairs. -/
def enters (pairs : List (Nat × Nat)) : List Frame := pairs.map fun p => .enter p.1 p.2

theorem step_marked (h : m.get? s = some i) (stack : List Frame) (found : List Nat) :
    step a kinds ⟨m, .enter s i :: stack, found⟩ = .go ⟨m, stack, found⟩ := by
  simp [step, h]

theorem step_leave (stack : List Frame) (found : List Nat) :
    step a kinds ⟨m.set s i, .leave s (m.get? s) :: stack, found⟩ = .go ⟨m, stack, found⟩ := by
  simp [step, Marks.restore_set]

theorem step_frontier (h : m.get? s ≠ some i) (hk : kinds[i]? = none) (stack : List Frame)
    (found : List Nat) : step a kinds ⟨m, .enter s i :: stack, found⟩ =
      .go ⟨m.set s i, .leave s (m.get? s) :: stack, report found s⟩ := by
  simp [step, h, hk, report]

theorem step_advance {kind : Option Int} {targets : List (Nat × Nat)} (h : m.get? s ≠ some i)
    (hk : kinds[i]? = some kind) (ha : advance a s i kind = .ok targets) (stack : List Frame)
    (found : List Nat) : step a kinds ⟨m, .enter s i :: stack, found⟩ =
      .go ⟨m.set s i, enters targets ++ .leave s (m.get? s) :: stack, found⟩ := by
  simp [step, h, hk, ha, enters]

/-- The machine works off the pairs on top of its stack as the recursion does. -/
theorem run_enters (h : explore a kinds m pairs = .ok l) (stack : List Frame) (found : List Nat) :
    run a kinds none ⟨m, enters pairs ++ stack, found⟩ =
      run a kinds none ⟨m, stack, l.foldl report found⟩ := by
  fun_induction explore a kinds m pairs generalizing l stack found with
  | case1 m =>
    injection h with h
    simp [← h, enters]
  | case2 m s i rest hm ih =>
    rw [← ih h stack found]
    exact run_of_go (step_marked hm _ _)
  | case3 m s i rest hm hk ih =>
    obtain ⟨others, ho, hl⟩ := Outcome.bind_eq_ok.1 h
    injection hl with hl
    subst hl
    rw [List.foldl_cons, ← ih ho stack (report found s)]
    exact (run_of_go (step_frontier hm hk _ _)).trans (run_of_go (step_leave _ _))
  | case4 m s i rest hm kind hk fault ha => simp at h
  | case5 m s i rest hm kind hk targets ha ihin ihrest =>
    obtain ⟨inner, hin, h⟩ := Outcome.bind_eq_ok.1 h
    obtain ⟨others, ho, hl⟩ := Outcome.bind_eq_ok.1 h
    injection hl with hl
    subst hl
    rw [List.foldl_append, ← ihrest ho stack (inner.foldl report found)]
    apply (run_of_go (step_advance hm hk ha _ _)).trans
    rw [ihin hin]
    exact run_of_go (step_leave _ _)

theorem run_enters_fault (h : explore a kinds m pairs = .error fault) (stack : List Frame)
    (found : List Nat) :
    (run a kinds none ⟨m, enters pairs ++ stack, found⟩).fault = some fault := by
  fun_induction explore a kinds m pairs generalizing stack found with
  | case1 m => simp at h
  | case2 m s i rest hm ih =>
    rw [← ih h stack found]
    exact congrArg Ended.fault (run_of_go (step_marked hm _ _))
  | case3 m s i rest hm hk ih =>
    obtain hr | ⟨others, -, hok⟩ := Outcome.bind_eq_error.1 h
    · rw [← ih hr stack (report found s)]
      exact congrArg Ended.fault
        ((run_of_go (step_frontier hm hk _ _)).trans (run_of_go (step_leave _ _)))
    · cases hok
  | case4 m s i rest hm kind hk fault' ha =>
    injection h with h
    subst h
    have hfail : step a kinds ⟨m, enters ((s, i) :: rest) ++ stack, found⟩ =
        .fail ⟨m.set s i, .leave s (m.get? s) :: (enters rest ++ stack), found⟩ fault' := by
      simp [step, enters, hm, hk, ha]
    rw [run_of_fail hfail]
  | case5 m s i rest hm kind hk targets ha ihin ihrest =>
    have hgo := run_of_go (step_advance hm hk ha (enters rest ++ stack) found)
    obtain hin | ⟨inner, hin, h⟩ := Outcome.bind_eq_error.1 h
    · rw [← ihin hin (.leave s (m.get? s) :: (enters rest ++ stack)) found]
      exact congrArg Ended.fault hgo
    · obtain hr | ⟨others, -, hok⟩ := Outcome.bind_eq_error.1 h
      · rw [run_enters hin, run_of_go (step_leave _ _)] at hgo
        rw [← ihrest hr stack (inner.foldl report found)]
        exact congrArg Ended.fault hgo
      · cases hok

/-- A whole search is the recursion from the start. -/
theorem all_of_explore (h : explore a kinds {} [(start, 0)] = .ok l) :
    all a kinds start = ⟨⟨{}, [], l.foldl report []⟩, none⟩ :=
  (run_enters h [] []).trans (run_of_done rfl)

theorem fault_of_explore (h : explore a kinds {} [(start, 0)] = .error fault) :
    (all a kinds start).fault = some fault := run_enters_fault h [] []

/-! ### The recursion and reachability -/

/-- One move of the token automaton over pairs. -/
def Moves (a : Automaton) (kinds : List (Option Int)) (p q : Nat × Nat) : Prop :=
  ∃ kind, kinds[p.2]? = some kind ∧ ∃ m ∈ a.moves p.1, advanceBy p.2 kind m = some q

theorem moves_of_advance {kind : Option Int} {targets : List (Nat × Nat)} {q : Nat × Nat}
    (hk : kinds[i]? = some kind) (ha : advance a s i kind = .ok targets) :
    q ∈ targets ↔ Moves a kinds (s, i) q := by
  simp only [advance] at ha
  split at ha
  · simp at ha
  · injection ha with ha
    subst ha
    simp [Moves, hk]

/-- Every state found is at the end of the kinds and reachable. -/
theorem explore_sound (h : explore a kinds m pairs = .ok l) (hs : s ∈ l) :
    ∃ p ∈ pairs, ∃ i, ReflTransGen (Moves a kinds) p (s, i) ∧ kinds[i]? = none := by
  fun_induction explore a kinds m pairs generalizing l with
  | case1 m =>
    injection h with h
    simp [← h] at hs
  | case2 m t i rest hm ih =>
    obtain ⟨p, hp, hr⟩ := ih h hs
    exact ⟨p, List.mem_cons_of_mem _ hp, hr⟩
  | case3 m t i rest hm hk ih =>
    obtain ⟨others, ho, hl⟩ := Outcome.bind_eq_ok.1 h
    injection hl with hl
    subst hl
    rcases List.mem_cons.1 hs with rfl | hs
    · exact ⟨(s, i), List.mem_cons_self, i, .refl, hk⟩
    · obtain ⟨p, hp, hr⟩ := ih ho hs
      exact ⟨p, List.mem_cons_of_mem _ hp, hr⟩
  | case4 m t i rest hm kind hk fault ha => simp at h
  | case5 m t i rest hm kind hk targets ha ihin ihrest =>
    obtain ⟨inner, hin, h⟩ := Outcome.bind_eq_ok.1 h
    obtain ⟨others, ho, hl⟩ := Outcome.bind_eq_ok.1 h
    injection hl with hl
    subst hl
    rcases List.mem_append.1 hs with hs | hs
    · obtain ⟨p, hp, j, hr, hj⟩ := ihin hin hs
      exact ⟨(t, i), List.mem_cons_self, j, .head ((moves_of_advance hk ha).1 hp) hr, hj⟩
    · obtain ⟨p, hp, hr⟩ := ihrest ho hs
      exact ⟨p, List.mem_cons_of_mem _ hp, hr⟩

/-- A fault comes from a reachable state that cannot be passed. -/
theorem explore_fault (h : explore a kinds m pairs = .error fault) :
    ∃ p ∈ pairs, ∃ q, ReflTransGen (Moves a kinds) p q ∧
      ∃ kind, kinds[q.2]? = some kind ∧ advance a q.1 q.2 kind = .error fault := by
  fun_induction explore a kinds m pairs with
  | case1 m => simp at h
  | case2 m t i rest hm ih =>
    obtain ⟨p, hp, hr⟩ := ih h
    exact ⟨p, List.mem_cons_of_mem _ hp, hr⟩
  | case3 m t i rest hm hk ih =>
    obtain hr | ⟨others, -, hok⟩ := Outcome.bind_eq_error.1 h
    · obtain ⟨p, hp, hr⟩ := ih hr
      exact ⟨p, List.mem_cons_of_mem _ hp, hr⟩
    · cases hok
  | case4 m t i rest hm kind hk fault' ha =>
    injection h with h
    subst h
    exact ⟨(t, i), List.mem_cons_self, (t, i), .refl, kind, hk, ha⟩
  | case5 m t i rest hm kind hk targets ha ihin ihrest =>
    obtain hin | ⟨inner, -, h⟩ := Outcome.bind_eq_error.1 h
    · obtain ⟨p, hp, q, hpq, hq⟩ := ihin hin
      exact ⟨(t, i), List.mem_cons_self, q, .head ((moves_of_advance hk ha).1 hp) hpq, hq⟩
    · obtain hr | ⟨others, -, hok⟩ := Outcome.bind_eq_error.1 h
      · obtain ⟨p, hp, hr⟩ := ihrest hr
        exact ⟨p, List.mem_cons_of_mem _ hp, hr⟩
      · cases hok

/-- What the recursion does with one of its pairs. -/
theorem explore_of_mem (h : explore a kinds m pairs = .ok l) (hp : (s, i) ∈ pairs)
    (hm : m.get? s ≠ some i) :
    (kinds[i]? = none → s ∈ l) ∧
      ∀ kind, kinds[i]? = some kind → ∃ targets inner, advance a s i kind = .ok targets ∧
        explore a kinds (m.set s i) targets = .ok inner ∧ inner ⊆ l := by
  fun_induction explore a kinds m pairs generalizing l with
  | case1 m => simp at hp
  | case2 m t j rest hm' ih =>
    rcases List.mem_cons.1 hp with heq | hp
    · injection heq with hst hij
      subst hst hij
      exact absurd hm' hm
    · exact ih h hp hm
  | case3 m t j rest hm' hk ih =>
    obtain ⟨others, ho, hl⟩ := Outcome.bind_eq_ok.1 h
    injection hl with hl
    subst hl
    rcases List.mem_cons.1 hp with heq | hp
    · injection heq with hst hij
      subst hst hij
      exact ⟨fun _ => List.mem_cons_self, by simp [hk]⟩
    · obtain ⟨h₁, h₂⟩ := ih ho hp hm
      refine ⟨fun hn => List.mem_cons_of_mem _ (h₁ hn), fun kind hkind => ?_⟩
      obtain ⟨targets, inner, ha, hin, hsub⟩ := h₂ kind hkind
      exact ⟨targets, inner, ha, hin, fun x hx => List.mem_cons_of_mem _ (hsub hx)⟩
  | case4 m t j rest hm' kind hk fault ha => simp at h
  | case5 m t j rest hm' kind hk targets ha ihin ihrest =>
    obtain ⟨inner, hin, h⟩ := Outcome.bind_eq_ok.1 h
    obtain ⟨others, ho, hl⟩ := Outcome.bind_eq_ok.1 h
    injection hl with hl
    subst hl
    rcases List.mem_cons.1 hp with heq | hp
    · injection heq with hst hij
      subst hst hij
      refine ⟨by simp [hk], fun kind' hk' => ?_⟩
      obtain rfl : kind = kind' := by simpa [hk] using hk'
      exact ⟨targets, inner, ha, hin, List.subset_append_left _ _⟩
    · obtain ⟨h₁, h₂⟩ := ihrest ho hp hm
      refine ⟨fun hn => List.mem_append_right _ (h₁ hn), fun kind' hk' => ?_⟩
      obtain ⟨targets', inner', ha', hin', hsub⟩ := h₂ kind' hk'
      exact ⟨targets', inner', ha', hin', fun x hx => List.mem_append_right _ (hsub hx)⟩

/-- Whatever is reachable without coming back to a pair is passed, and reported if it is at the end of
the kinds. Only pairs of `A` may be marked. -/
theorem explore_complete {A : List (Nat × Nat)} {p q : Nat × Nat}
    (hs : Simple (Moves a kinds) A p q) (h : explore a kinds m pairs = .ok l) (hp : p ∈ pairs)
    (hA : ∀ t j, m.get? t = some j → (t, j) ∈ A) :
    (kinds[q.2]? = none → q.1 ∈ l) ∧
      ∀ kind, kinds[q.2]? = some kind → ∃ targets, advance a q.1 q.2 kind = .ok targets := by
  induction hs generalizing m pairs l with
  | @here A p hpA =>
    obtain ⟨h₁, h₂⟩ := explore_of_mem h hp fun hm => hpA (hA _ _ hm)
    refine ⟨h₁, fun kind hk => ?_⟩
    obtain ⟨targets, -, ha, -⟩ := h₂ kind hk
    exact ⟨targets, ha⟩
  | @step A p r q hpA hpr _ ih =>
    have hpr' := hpr
    obtain ⟨kind, hk, -⟩ := hpr
    obtain ⟨-, h₂⟩ := explore_of_mem h hp fun hm => hpA (hA _ _ hm)
    obtain ⟨targets, inner, ha, hin, hsub⟩ := h₂ kind hk
    have hA' : ∀ t j, (m.set p.1 p.2).get? t = some j → (t, j) ∈ p :: A := by
      intro t j htj
      rw [Marks.get?_set] at htj
      split at htj
      · rename_i ht
        injection htj with htj
        simp [ht, ← htj]
      · exact List.mem_cons_of_mem p (hA t j htj)
    obtain ⟨h₃, h₄⟩ := ih hin ((moves_of_advance hk ha).2 hpr') hA'
    exact ⟨fun hn => hsub (h₃ hn), h₄⟩

/-! ### Pairs and paths -/

theorem moves_iff {q : Nat × Nat} : Moves a (w.map some) (s, i) q ↔
    ∃ x, w[i]? = some x ∧
      ((.epsilon q.1 ∈ a.moves s ∧ q.2 = i) ∨
        ∃ m ∈ a.moves s, m.accepts x = true ∧ q = (m.target, i + 1)) := by
  constructor
  · rintro ⟨kind, hk, m, hm, hq⟩
    obtain ⟨x, hx, rfl⟩ : ∃ x, w[i]? = some x ∧ some x = kind := by simpa using hk
    refine ⟨x, hx, ?_⟩
    cases m with
    | epsilon t =>
      simp only [advanceBy, Option.some.injEq] at hq
      subst hq
      exact Or.inl ⟨hm, rfl⟩
    | _ =>
      simp only [advanceBy] at hq
      split at hq
      · rename_i hacc
        injection hq with hq
        exact Or.inr ⟨_, hm, hacc, hq.symm⟩
      · simp at hq
  · rintro ⟨x, hx, ⟨hm, hi⟩ | ⟨m, hm, hacc, rfl⟩⟩
    · obtain ⟨t, j⟩ := q
      exact ⟨some x, by simp [hx], _, hm, by simp_all [advanceBy]⟩
    · refine ⟨some x, by simp [hx], m, hm, ?_⟩
      cases m with
      | epsilon t => simp [Move.accepts] at hacc
      | _ => simp [advanceBy, hacc]

/-- A pair is reached along a path that spells the kinds before its index; at the end of the kinds
the search has just consumed the last one. -/
theorem path_of_reachable {q : Nat × Nat} (h : ReflTransGen (Moves a (w.map some)) (start, 0) q) :
    q.2 ≤ w.length ∧ a.Path start (w.take q.2) q.1 ∧ (q.2 = w.length → a.Arrives start w q.1) := by
  induction h with
  | refl =>
    refine ⟨Nat.zero_le _, .refl start, fun hw => ?_⟩
    obtain rfl := List.length_eq_zero_iff.1 hw.symm
    exact .start start
  | @tail p q _ hpq ih =>
    obtain ⟨s, i⟩ := p
    obtain ⟨t, j⟩ := q
    obtain ⟨-, hpath, -⟩ := ih
    obtain ⟨x, hx, ⟨hm, rfl⟩ | ⟨m, hm, hacc, hq⟩⟩ := moves_iff.1 hpq
    · have hlt := (List.getElem?_eq_some_iff.1 hx).1
      refine ⟨Nat.le_of_lt hlt, ?_, fun hj => absurd hj (Nat.ne_of_lt hlt)⟩
      simpa using hpath.append (.silent hm (.refl t))
    · injection hq with ht hj
      subst ht hj
      obtain ⟨hlt, hx⟩ := List.getElem?_eq_some_iff.1 hx
      have hw : w.take (i + 1) = w.take i ++ [x] := by rw [← List.take_append_getElem hlt, hx]
      refine ⟨hlt, ?_, fun hj => ?_⟩
      · rw [hw]
        exact hpath.append (.symbol hm hacc (.refl _))
      · rw [← List.take_of_length_le (Nat.le_of_eq hj.symm), hw]
        exact .consume hpath hm hacc

/-- The other way round, before the last kind is consumed. -/
theorem reachable_of_path {v : List Int} {t : Nat} (h : a.Path s v t) (hv : v <+: w.drop i)
    (hlt : i + v.length < w.length) :
    ReflTransGen (Moves a (w.map some)) (s, i) (t, i + v.length) := by
  induction h generalizing i with
  | refl s => exact .refl
  | @silent s q t v hm _ ih =>
    have hi : i < w.length := by omega
    exact .head (moves_iff.2 ⟨w[i], List.getElem?_eq_getElem hi, Or.inl ⟨hm, rfl⟩⟩) (ih hv hlt)
  | @symbol s t m x v hm hx _ ih =>
    have hi : i < w.length := by omega
    rw [List.drop_eq_getElem_cons hi, List.cons_prefix_cons] at hv
    obtain ⟨rfl, hv⟩ := hv
    have hrest := ih hv (by simp only [List.length_cons] at hlt; omega)
    have hlen : i + (w[i] :: v).length = i + 1 + v.length := by simp only [List.length_cons]; omega
    rw [hlen]
    exact .head (moves_iff.2 ⟨w[i], List.getElem?_eq_getElem hi, Or.inr ⟨m, hm, hx, rfl⟩⟩) hrest

theorem reachable_of_arrives {t : Nat} (h : a.Arrives start w t) :
    ReflTransGen (Moves a (w.map some)) (start, 0) (t, w.length) := by
  cases h with
  | start => exact .refl
  | @consume q v m x h hm hx =>
    have hreach := reachable_of_path (w := v ++ [x]) (i := 0) h (by simp) (by simp)
    rw [Nat.zero_add] at hreach
    refine hreach.tail (moves_iff.2 ⟨x, by simp, Or.inr ⟨m, hm, hx, ?_⟩⟩)
    simp

/-- A state with a move that is not understood cannot be passed. -/
theorem advance_of_foreign {k : Int} {move : Move} (hm : move ∈ a.moves s)
    (hf : move.isForeign = true) (i : Nat) : ∃ fault, advance a s i (some k) = .error fault := by
  cases ho : (a.moves s).findSome? (a.obstacle? s (some k)) with
  | some fault => exact ⟨fault, by simp [advance, ho]⟩
  | none =>
    have hnone := List.findSome?_eq_none_iff.1 ho move hm
    simp [Automaton.obstacle?_some, hf] at hnone

/-- What a state that cannot be passed says is about one of its moves that is not understood. -/
theorem foreign_of_advance {k : Int} (h : advance a s i (some k) = .error fault) :
    ∃ m ∈ a.moves s, m.isForeign = true ∧ fault = a.unexpected "token" s m := by
  simp only [advance] at h
  split at h
  · rename_i ho
    injection h with h
    subst h
    obtain ⟨m, hm, hf⟩ := List.exists_of_findSome?_eq_some ho
    rw [Automaton.obstacle?_some] at hf
    split at hf
    · rename_i hforeign
      injection hf with hf
      exact ⟨m, hm, hforeign, hf.symm⟩
    · simp at hf
  · simp at h

/-- What a search that fails says is about a move that is not understood, which a path can meet while a
token is left. -/
theorem foreign_of_fault (h : (all a (w.map some) start).fault = some fault) :
    ∃ i < w.length, ∃ s, a.Path start (w.take i) s ∧
      ∃ m ∈ a.moves s, m.isForeign = true ∧ fault = a.unexpected "token" s m := by
  cases he : explore a (w.map some) {} [(start, 0)] with
  | ok l => simp [all_of_explore he] at h
  | error fault' =>
    obtain rfl : fault' = fault := by simpa [fault_of_explore he] using h
    obtain ⟨p, hp, q, hpq, kind, hk, ha⟩ := explore_fault he
    obtain rfl := List.mem_singleton.1 hp
    obtain ⟨x, hx, rfl⟩ : ∃ x, w[q.2]? = some x ∧ some x = kind := by simpa using hk
    exact ⟨q.2, (List.getElem?_eq_some_iff.1 hx).1, q.1, (path_of_reachable hpq).2.1,
      foreign_of_advance ha⟩

/-- A search fails exactly if a path can meet a move that is not understood while a token is left. -/
theorem fault_isSome_iff : (all a (w.map some) start).fault.isSome = true ↔
    ∃ i < w.length, ∃ s, a.Path start (w.take i) s ∧ ∃ m ∈ a.moves s, m.isForeign = true := by
  constructor
  · intro h
    obtain ⟨fault, hf⟩ := Option.isSome_iff_exists.1 h
    obtain ⟨i, hi, s, hs, m, hm, hforeign, -⟩ := foreign_of_fault hf
    exact ⟨i, hi, s, hs, m, hm, hforeign⟩
  · rintro ⟨i, hi, s, hs, move, hm, hforeign⟩
    cases he : explore a (w.map some) {} [(start, 0)] with
    | error fault => simp [fault_of_explore he]
    | ok l =>
      have hlen : 0 + (w.take i).length = i := by
        rw [Nat.zero_add, List.length_take_of_le (Nat.le_of_lt hi)]
      have hreach := reachable_of_path hs (i := 0) (List.take_prefix i w) (by rwa [hlen])
      rw [hlen] at hreach
      obtain ⟨-, h⟩ := explore_complete (.of_reachable hreach) he List.mem_cons_self
        (by simp [Marks.get?, Marks.indexOf?])
      obtain ⟨targets, ht⟩ := h (some w[i]) (by simp [hi])
      obtain ⟨fault, hf⟩ := advance_of_foreign hm hforeign i
      rw [ht] at hf
      simp at hf

/-- A search that does not fail finds exactly the states where a path that spells the kinds arrives. -/
theorem mem_found_iff (h : (all a (w.map some) start).fault = none) :
    s ∈ (all a (w.map some) start).search.found ↔ a.Arrives start w s := by
  cases he : explore a (w.map some) {} [(start, 0)] with
  | error fault => simp [fault_of_explore he] at h
  | ok l =>
    rw [all_of_explore he, mem_foldl_report]
    simp only [List.not_mem_nil, false_or]
    constructor
    · intro hs
      obtain ⟨p, hp, i, hr, hi⟩ := explore_sound he hs
      obtain rfl := List.mem_singleton.1 hp
      obtain ⟨hle, -, harr⟩ := path_of_reachable hr
      simp only [List.getElem?_map, Option.map_eq_none_iff, List.getElem?_eq_none_iff] at hi
      exact harr (Nat.le_antisymm hle hi)
    · intro hs
      exact (explore_complete (.of_reachable (reachable_of_arrives hs)) he List.mem_cons_self
        (by simp [Marks.get?, Marks.indexOf?])).1 (by simp)

/-- No state is found twice. -/
theorem nodup_found (h : (all a kinds start).fault = none) :
    (all a kinds start).search.found.Nodup := by
  cases he : explore a kinds {} [(start, 0)] with
  | error fault => simp [fault_of_explore he] at h
  | ok l =>
    rw [all_of_explore he]
    exact nodup_foldl_report List.nodup_nil

theorem found_ne_nil {t : Nat} (h : (all a (w.map some) start).fault = none)
    (hp : a.Path start w t) : (all a (w.map some) start).search.found ≠ [] := by
  obtain ⟨u, hu, -⟩ := hp.arrives
  exact List.ne_nil_of_mem ((mem_found_iff h).2 hu)

/-- One more kind brings no fault where the frontier states are understood. -/
theorem fault_append_singleton {k : Int} (h : (all a (w.map some) start).fault = none)
    (hu : ∀ f, a.Arrives start w f → a.Understood f) :
    (all a ((w ++ [k]).map some) start).fault = none := by
  rw [← Option.not_isSome_iff_eq_none, fault_isSome_iff] at h ⊢
  rintro ⟨i, hi, s, hs, m, hm, hforeign⟩
  rw [List.length_append, List.length_singleton] at hi
  rcases Nat.lt_or_eq_of_le (Nat.le_of_lt_succ hi) with hlt | rfl
  · rw [List.take_append_of_le_length (Nat.le_of_lt hlt)] at hs
    exact h ⟨i, hlt, s, hs, m, hm, hforeign⟩
  · rw [List.take_left] at hs
    obtain ⟨f, hf, hfs⟩ := hs.arrives
    exact absurd hforeign (by simp [hu f hf s hfs m hm])

end Typeahead.Frontier
