import Typeahead.Expected
import Typeahead.Outcome
import Typeahead.Proofs.Path

/-!
The kinds expected at a state, and the test of one kind, against paths. What is answered is always
right about some path. That nothing is missed needs different identifiers for different states: an
epsilon move is followed once for each key, and only then does a key tell where the move leads.
-/
namespace Typeahead

namespace Automaton

variable {a : Automaton} {s t q : Nat} {k : Int} {m : Move} {followed : List Move.Key}
  {stack : List Nat} {moves : List Move}

theorem mem_pending {p : a.Pending} : p ∈ a.pending s ↔ p.source = s := by
  constructor
  · intro h
    obtain ⟨m, -, rfl⟩ := List.mem_map.1 h
    rfl
  · rintro rfl
    exact List.mem_map.2 ⟨⟨p.move, p.mem⟩, List.mem_attach _ _, rfl⟩

/-- Under distinct identifiers the key of an epsilon move tells where it leads. -/
theorem DistinctIds.target_eq (hd : a.DistinctIds) {s s' t t' : Nat} (h : .epsilon t ∈ a.moves s)
    (h' : .epsilon t' ∈ a.moves s') (hk : a.key s (.epsilon t) = a.key s' (.epsilon t')) :
    t = t' := by
  injection hk with _ _ ht
  exact hd t t' (isState_target h) (isState_target h') ht

/-! ### Expected kinds -/

/-- Nothing is left to do about a move: its symbols are among `labels`, or its key is followed. -/
def Settled (a : Automaton) (followed : List Move.Key) (labels : List Int) (s : Nat) : Move → Prop
  | .epsilon t => a.key s (.epsilon t) ∈ followed
  | .foreign .. => False
  | m => ∀ x ∈ m.symbols, x ∈ labels

theorem collect_sound {labels result : Roster Int} {waiting : List a.Pending}
    (h : a.collect followed labels waiting = .ok result) (hk : k ∈ result.toList) :
    k ∈ labels.toList ∨ ∃ p ∈ waiting, p.move.accepts k = true ∨
      ∃ t, p.move = .epsilon t ∧ a.Expects t k := by
  fun_induction collect a followed labels waiting with
  | case1 followed labels =>
    injection h with h
    exact Or.inl (h ▸ hk)
  | case2 followed labels p waiting t hp hf ih =>
    rcases ih h with hl | ⟨p', hp', hx⟩
    · exact Or.inl hl
    · exact Or.inr ⟨p', List.mem_cons_of_mem p hp', hx⟩
  | case3 followed labels p waiting t hp hf ih =>
    rcases ih h with hl | ⟨p', hp', hx⟩
    · exact Or.inl hl
    · rcases List.mem_append.1 hp' with hp' | hp'
      · refine Or.inr ⟨p, List.mem_cons_self, Or.inr ⟨t, hp, ?_⟩⟩
        have hmem := p'.mem
        rw [mem_pending.1 hp'] at hmem
        rcases hx with hx | ⟨u, hu, q, hq, hx⟩
        · exact ⟨t, .refl t, p'.move, hmem, hx⟩
        · exact ⟨q, .silent (hu ▸ hmem) hq, hx⟩
      · exact Or.inr ⟨p', List.mem_cons_of_mem p hp', hx⟩
  | case4 followed labels p waiting name t hp => simp at h
  | case5 followed labels p waiting he hf ih =>
    rcases ih h with hl | ⟨p', hp', hx⟩
    · rcases Roster.mem_toList_insertAll.1 hl with hl | hl
      · exact Or.inl hl
      · exact Or.inr ⟨p, List.mem_cons_self, Or.inl (Move.accepts_iff_mem_symbols.2 hl)⟩
    · exact Or.inr ⟨p', List.mem_cons_of_mem p hp', hx⟩

/-- A fault comes from a waiting move that is not understood, or from one behind a waiting epsilon
move. -/
theorem collect_fault {labels : Roster Int} {waiting : List a.Pending} {fault : Fault}
    (h : a.collect followed labels waiting = .error fault) :
    ∃ p ∈ waiting, p.move.isForeign = true ∨ ∃ t, p.move = .epsilon t ∧ ¬ a.Understood t := by
  fun_induction collect a followed labels waiting with
  | case1 followed labels => simp at h
  | case2 followed labels p waiting t hp hf ih =>
    obtain ⟨p', hp', hx⟩ := ih h
    exact ⟨p', List.mem_cons_of_mem p hp', hx⟩
  | case3 followed labels p waiting t hp hf ih =>
    obtain ⟨p', hp', hx⟩ := ih h
    rcases List.mem_append.1 hp' with hp' | hp'
    · refine ⟨p, List.mem_cons_self, Or.inr ⟨t, hp, fun hu => ?_⟩⟩
      have hmem := p'.mem
      rw [mem_pending.1 hp'] at hmem
      rcases hx with hforeign | ⟨u, heq, hnot⟩
      · simp [hu t (.refl t) p'.move hmem] at hforeign
      · exact hnot fun q hq => hu q (.silent (heq ▸ hmem) hq)
    · exact ⟨p', List.mem_cons_of_mem p hp', hx⟩
  | case4 followed labels p waiting name t hp =>
    exact ⟨p, List.mem_cons_self, Or.inl (by simp [hp, Move.isForeign])⟩
  | case5 followed labels p waiting he hf ih =>
    obtain ⟨p', hp', hx⟩ := ih h
    exact ⟨p', List.mem_cons_of_mem p hp', hx⟩

/-- Where every move that can be met is understood, the expected kinds can be told. -/
theorem Understood.exists_expected (hu : a.Understood s) : ∃ kinds, a.expected s = .ok kinds := by
  cases h : a.collect [] .empty (a.pending s) with
  | ok labels => exact ⟨labels.toList, by simp [expected, h, bind, Except.bind, pure, Except.pure]⟩
  | error fault =>
    obtain ⟨p, hp, hx⟩ := collect_fault h
    have hmem := p.mem
    rw [mem_pending.1 hp] at hmem
    rcases hx with hforeign | ⟨t, heq, hnot⟩
    · simp [hu s (.refl s) p.move hmem] at hforeign
    · exact absurd (fun q hq => hu q (.silent (heq ▸ hmem) hq)) hnot

/-- A run that collects without a fault leaves nothing to do: all waiting moves are settled, and so
are all moves behind the epsilon moves that it followed. -/
theorem collect_settled (hd : a.DistinctIds) {labels result : Roster Int}
    {waiting : List a.Pending} (h : a.collect followed labels waiting = .ok result) :
    ∃ final, followed ⊆ final ∧ labels.toList ⊆ result.toList ∧
      (∀ p ∈ waiting, a.Settled final result.toList p.source p.move) ∧
      ∀ s t, .epsilon t ∈ a.moves s → a.key s (.epsilon t) ∈ final →
        a.key s (.epsilon t) ∉ followed → ∀ m ∈ a.moves t, a.Settled final result.toList t m := by
  fun_induction collect a followed labels waiting with
  | case1 followed labels =>
    injection h with h
    subst h
    exact ⟨followed, List.Subset.refl _, List.Subset.refl _, by simp, fun s t _ h hn => absurd h hn⟩
  | case2 followed labels p waiting t hp hf ih =>
    obtain ⟨final, hsub, hlab, hwait, hbehind⟩ := ih h
    refine ⟨final, hsub, hlab, ?_, hbehind⟩
    intro p' hp'
    rcases List.mem_cons.1 hp' with rfl | hp'
    · rw [hp] at hf ⊢
      exact hsub (List.contains_iff_mem.1 hf)
    · exact hwait p' hp'
  | case3 followed labels p waiting t hp hf ih =>
    obtain ⟨final, hsub, hlab, hwait, hbehind⟩ := ih h
    have hpm := hp ▸ p.mem
    rw [hp] at hsub hbehind
    refine ⟨final, fun x hx => hsub (List.mem_cons_of_mem _ hx), hlab, ?_, ?_⟩
    · intro p' hp'
      rcases List.mem_cons.1 hp' with rfl | hp'
      · rw [hp]
        exact hsub List.mem_cons_self
      · exact hwait p' (List.mem_append_right _ hp')
    · intro s t' ht' hfin hnot m hm
      by_cases hkey : a.key s (.epsilon t') = a.key p.source (.epsilon t)
      · -- The key is the one just followed, so the moves behind it were waiting.
        obtain rfl := hd.target_eq ht' hpm hkey
        exact hwait ⟨t', m, hm⟩ (List.mem_append_left _ (mem_pending.2 rfl))
      · exact hbehind s t' ht' hfin (by simp [hkey, hnot]) m hm
  | case4 followed labels p waiting name t hp => simp at h
  | case5 followed labels p waiting he hf ih =>
    obtain ⟨final, hsub, hlab, hwait, hbehind⟩ := ih h
    refine ⟨final, hsub, fun x hx => hlab (Roster.mem_toList_insertAll.2 (Or.inl hx)), ?_, hbehind⟩
    intro p' hp'
    rcases List.mem_cons.1 hp' with rfl | hp'
    · have hsym : ∀ x ∈ p'.move.symbols, x ∈ result.toList := fun x hx =>
        hlab (Roster.mem_toList_insertAll.2 (Or.inr hx))
      generalize p'.move = m at he hf hsym ⊢
      cases m with
      | epsilon t => exact absurd rfl (he t)
      | foreign name t => exact absurd rfl (hf name t)
      | atomic label t => exact hsym
      | set intervals t => exact hsym
    · exact hwait p' hp'

/-- All moves that can be met from a state whose expected kinds are known are settled. -/
theorem exists_settled (hd : a.DistinctIds) {kinds : List Int} (h : a.expected s = .ok kinds) :
    ∃ final, ∀ t, a.Path s [] t → ∀ m ∈ a.moves t, a.Settled final kinds t m := by
  obtain ⟨result, hc, hr⟩ := Outcome.bind_eq_ok.1 h
  injection hr with hr
  subst hr
  obtain ⟨final, -, -, hwait, hbehind⟩ := collect_settled hd hc
  let P := fun t => ∀ m ∈ a.moves t, a.Settled final result.toList t m
  refine ⟨final, fun t ht => ht.pass_on (P := P) ?_ ?_⟩
  · intro m hm
    exact hwait ⟨s, m, hm⟩ (mem_pending.2 rfl)
  · intro q r hr hq
    exact hbehind q r hr (hq _ hr) List.not_mem_nil

/-- Where the expected kinds are known, every move that can be met is understood. -/
theorem understood_of_expected (hd : a.DistinctIds) {kinds : List Int}
    (h : a.expected s = .ok kinds) : a.Understood s := by
  obtain ⟨final, hset⟩ := exists_settled hd h
  intro t ht m hm
  have := hset t ht m hm
  cases m <;> simp_all [Settled, Move.isForeign]

theorem mem_expected_iff (hd : a.DistinctIds) {kinds : List Int} (h : a.expected s = .ok kinds) :
    k ∈ kinds ↔ a.Expects s k := by
  constructor
  · intro hk
    obtain ⟨result, hc, hr⟩ := Outcome.bind_eq_ok.1 h
    injection hr with hr
    subst hr
    rcases collect_sound hc hk with hl | ⟨p, hp, hx⟩
    · simp at hl
    · have hmem := p.mem
      rw [mem_pending.1 hp] at hmem
      rcases hx with hx | ⟨t, ht, q, hq, hx⟩
      · exact ⟨s, .refl s, p.move, hmem, hx⟩
      · exact ⟨q, .silent (ht ▸ hmem) hq, hx⟩
  · rintro ⟨t, ht, m, hm, hx⟩
    obtain ⟨final, hset⟩ := exists_settled hd h
    have := hset t ht m hm
    have hsym := Move.accepts_iff_mem_symbols.1 hx
    cases m with
    | epsilon t => simp [Move.symbols] at hsym
    | foreign name t => simp [Move.symbols] at hsym
    | atomic label t => exact this k hsym
    | set intervals t => exact this k hsym

/-! ### The test of one kind -/

theorem follow_sound (ht : t ∈ (a.follow s followed stack moves).2) :
    t ∈ stack ∨ .epsilon t ∈ moves := by
  fun_induction follow a s followed stack moves with
  | case1 followed stack => exact Or.inl ht
  | case2 followed stack u moves key hf ih =>
    rcases ih ht with h | h
    · exact Or.inl h
    · exact Or.inr (List.mem_cons_of_mem _ h)
  | case3 followed stack u moves key hf ih =>
    rcases ih ht with h | h
    · rcases List.mem_cons.1 h with rfl | h
      · exact Or.inr List.mem_cons_self
      · exact Or.inl h
    · exact Or.inr (List.mem_cons_of_mem _ h)
  | case4 followed stack m moves hm ih =>
    rcases ih ht with h | h
    · exact Or.inl h
    · exact Or.inr (List.mem_cons_of_mem _ h)

/-- The keys of all epsilon moves are followed, and the targets of the newly followed ones lie on the
stack. -/
theorem follow_complete (s : Nat) (followed : List Move.Key) (stack : List Nat)
    (moves : List Move) :
    followed ⊆ (a.follow s followed stack moves).1 ∧ stack ⊆ (a.follow s followed stack moves).2 ∧
      (∀ t, .epsilon t ∈ moves → a.key s (.epsilon t) ∈ (a.follow s followed stack moves).1) ∧
      ∀ key ∈ (a.follow s followed stack moves).1, key ∉ followed →
        ∃ t ∈ (a.follow s followed stack moves).2, .epsilon t ∈ moves ∧ key = a.key s (.epsilon t) := by
  fun_induction follow a s followed stack moves with
  | case1 followed stack =>
    exact ⟨List.Subset.refl _, List.Subset.refl _, by simp, fun key h hn => absurd h hn⟩
  | case2 followed stack u moves key hf ih =>
    obtain ⟨hsub, hstack, hkeys, hnew⟩ := ih
    refine ⟨hsub, hstack, ?_, ?_⟩
    · intro t ht
      rcases List.mem_cons.1 ht with heq | ht
      · injection heq with heq
        subst heq
        exact hsub (List.contains_iff_mem.1 hf)
      · exact hkeys t ht
    · intro key' h hn
      obtain ⟨t, ht, hm, hkey⟩ := hnew key' h hn
      exact ⟨t, ht, List.mem_cons_of_mem _ hm, hkey⟩
  | case3 followed stack u moves key hf ih =>
    obtain ⟨hsub, hstack, hkeys, hnew⟩ := ih
    refine ⟨fun x hx => hsub (List.mem_cons_of_mem _ hx),
      fun x hx => hstack (List.mem_cons_of_mem _ hx), ?_, ?_⟩
    · intro t ht
      rcases List.mem_cons.1 ht with heq | ht
      · injection heq with heq
        subst heq
        exact hsub List.mem_cons_self
      · exact hkeys t ht
    · intro key' h hn
      by_cases hkey' : key' = key
      · exact ⟨u, hstack List.mem_cons_self, List.mem_cons_self, hkey'⟩
      · obtain ⟨t, ht, hm, hkey⟩ := hnew key' h (by simp [hkey', hn])
        exact ⟨t, ht, List.mem_cons_of_mem _ hm, hkey⟩
  | case4 followed stack m moves hm ih =>
    obtain ⟨hsub, hstack, hkeys, hnew⟩ := ih
    refine ⟨hsub, hstack, ?_, ?_⟩
    · intro t ht
      rcases List.mem_cons.1 ht with heq | ht
      · exact absurd heq.symm (hm t)
      · exact hkeys t ht
    · intro key' h hn
      obtain ⟨t, ht, hm', hkey⟩ := hnew key' h hn
      exact ⟨t, ht, List.mem_cons_of_mem _ hm', hkey⟩

theorem settles_some : a.settles s (some k) m = true ↔ m.isForeign = true ∨ m.accepts k = true := by
  rw [settles, obstacle?_some]
  split <;> simp_all

/-- A positive answer is right: some state on the stack expects the kind. -/
theorem acceptsFrom_true (h : a.acceptsFrom (some k) followed stack = .ok true) :
    ∃ s ∈ stack, a.Expects s k := by
  fun_induction acceptsFrom a (some k) followed stack with
  | case1 followed => simp at h
  | case2 followed s stack m hfind fault hob => simp at h
  | case3 followed s stack m hfind hob =>
    have hm := List.mem_of_find?_eq_some hfind
    refine ⟨s, List.mem_cons_self, s, .refl s, m, hm, ?_⟩
    simpa [settles, hob] using List.find?_some hfind
  | case4 followed s stack hfind next ih =>
    obtain ⟨t, ht, q, hq, hx⟩ := ih h
    rcases follow_sound ht with ht | ht
    · exact ⟨t, List.mem_cons_of_mem s ht, q, hq, hx⟩
    · exact ⟨s, List.mem_cons_self, q, .silent ht hq, hx⟩

/-- A fault comes from a move that can be met and is not understood. -/
theorem acceptsFrom_fault {fault : Fault}
    (h : a.acceptsFrom (some k) followed stack = .error fault) : ∃ s ∈ stack, ¬ a.Understood s := by
  fun_induction acceptsFrom a (some k) followed stack with
  | case1 followed => simp at h
  | case2 followed s stack m hfind fault' hob =>
    refine ⟨s, List.mem_cons_self, fun hu => ?_⟩
    have hforeign := hu s (.refl s) m (List.mem_of_find?_eq_some hfind)
    simp [obstacle?_some, hforeign] at hob
  | case3 followed s stack m hfind hob => simp at h
  | case4 followed s stack hfind next ih =>
    obtain ⟨t, ht, hu⟩ := ih h
    rcases follow_sound ht with ht | ht
    · exact ⟨t, List.mem_cons_of_mem s ht, hu⟩
    · exact ⟨s, List.mem_cons_self, fun hs => hu fun q hq => hs q (.silent ht hq)⟩

/-- Nothing is left to do about a state: its moves do not consume the kind, and the keys of its epsilon
moves are followed. -/
def Passed (a : Automaton) (k : Int) (followed : List Move.Key) (s : Nat) : Prop :=
  (∀ m ∈ a.moves s, m.accepts k = false) ∧
    ∀ t, .epsilon t ∈ a.moves s → a.key s (.epsilon t) ∈ followed

/-- A negative answer has passed all states on the stack, and all behind the epsilon moves that it
followed. -/
theorem acceptsFrom_false (hd : a.DistinctIds)
    (h : a.acceptsFrom (some k) followed stack = .ok false) :
    ∃ final, followed ⊆ final ∧ (∀ s ∈ stack, a.Passed k final s) ∧
      ∀ s t, .epsilon t ∈ a.moves s → a.key s (.epsilon t) ∈ final →
        a.key s (.epsilon t) ∉ followed → a.Passed k final t := by
  fun_induction acceptsFrom a (some k) followed stack with
  | case1 followed =>
    exact ⟨followed, List.Subset.refl _, by simp, fun s t _ h hn => absurd h hn⟩
  | case2 followed s stack m hfind fault hob => simp at h
  | case3 followed s stack m hfind hob => simp at h
  | case4 followed s stack hfind next ih =>
    obtain ⟨final, hsub, hstack, hbehind⟩ := ih h
    obtain ⟨hfsub, hfstack, hkeys, hnew⟩ := a.follow_complete s followed stack (a.moves s)
    refine ⟨final, fun x hx => hsub (hfsub hx), ?_, ?_⟩
    · intro q hq
      rcases List.mem_cons.1 hq with rfl | hq
      · refine ⟨fun m hm => ?_, fun t ht => hsub (hkeys t ht)⟩
        have := List.find?_eq_none.1 hfind m hm
        simp only [settles_some, not_or, Bool.not_eq_true] at this
        exact this.2
      · exact hstack q (hfstack hq)
    · intro q t ht hfin hnot
      by_cases hk : a.key q (.epsilon t) ∈ next.1
      · obtain ⟨u, hu, hm, hkey⟩ := hnew _ hk hnot
        obtain rfl := hd.target_eq ht hm hkey
        exact hstack t hu
      · exact hbehind q t ht hfin hk

/-- A kind that is found to be accepted is expected. -/
theorem expects_of_accepts (h : a.accepts s (some k) = .ok true) : a.Expects s k := by
  obtain ⟨q, hq, hx⟩ := acceptsFrom_true h
  obtain rfl := List.mem_singleton.1 hq
  exact hx

/-- Where every move that can be met is understood, a kind can be tested. -/
theorem Understood.exists_accepts (hu : a.Understood s) (k : Int) :
    ∃ b, a.accepts s (some k) = .ok b := by
  cases h : a.accepts s (some k) with
  | ok b => exact ⟨b, rfl⟩
  | error fault =>
    obtain ⟨q, hq, hnot⟩ := acceptsFrom_fault h
    obtain rfl := List.mem_singleton.1 hq
    exact absurd hu hnot

/-- Where every move that can be met is understood, the test of a kind is exact. -/
theorem accepts_eq_true_iff (hd : a.DistinctIds) (hu : a.Understood s) :
    a.accepts s (some k) = .ok true ↔ a.Expects s k := by
  constructor
  · exact expects_of_accepts
  · rintro ⟨t, ht, m, hm, hx⟩
    obtain ⟨b, h⟩ := hu.exists_accepts k
    cases b with
    | true => exact h
    | false =>
      obtain ⟨final, -, hstack, hbehind⟩ := acceptsFrom_false hd h
      have hpassed : a.Passed k final t := by
        refine ht.pass_on (hstack s List.mem_cons_self) ?_
        intro q r hr hq
        exact hbehind q r hr (hq.2 r hr) List.not_mem_nil
      simp [hpassed.1 m hm] at hx

end Automaton
end Typeahead
