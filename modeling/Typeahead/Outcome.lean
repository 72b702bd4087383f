import Typeahead.Fault

/-!
Small facts about computations that may end in a fault.
-/
namespace Typeahead.Outcome

variable {α β : Type} {f : α → Except Fault β} {fault : Fault}

theorem bind_eq_ok {x : Except Fault α} {b : β} :
    (x >>= f) = .ok b ↔ ∃ a, x = .ok a ∧ f a = .ok b := by
  cases x with
  | error fault => simp [bind, Except.bind]
  | ok a => simp [bind, Except.bind]

theorem exists_bind_eq_ok {x : Except Fault α} {a : α} (hx : x = .ok a)
    (hf : ∃ b, f a = .ok b) : ∃ b, (x >>= f) = .ok b := by
  obtain ⟨b, hb⟩ := hf
  exact ⟨b, bind_eq_ok.2 ⟨a, hx, hb⟩⟩

theorem bind_eq_error {x : Except Fault α} :
    (x >>= f) = .error fault ↔ x = .error fault ∨ ∃ a, x = .ok a ∧ f a = .error fault := by
  cases x with
  | error fault => simp [bind, Except.bind]
  | ok a => simp [bind, Except.bind]

theorem map_eq_ok {x : Except Fault α} {g : α → β} {b : β} :
    x.map g = .ok b ↔ ∃ a, x = .ok a ∧ g a = b := by
  cases x with
  | error fault => simp [Except.map]
  | ok a => simp [Except.map]

/-- What is only rewritten fails as it did before. -/
theorem bind_pure_eq_error {x : Except Fault α} {g : α → β} :
    (x >>= fun a => pure (g a)) = .error fault ↔ x = .error fault := by
  cases x with
  | error => simp [bind, Except.bind]
  | ok a => simp [bind, Except.bind, pure, Except.pure]

theorem mapM_cons_eq_ok {x : α} {l : List α} {r : List β} (h : (x :: l).mapM f = .ok r) :
    ∃ y ys, f x = .ok y ∧ l.mapM f = .ok ys ∧ r = y :: ys := by
  rw [List.mapM_cons] at h
  cases hx : f x with
  | error e => simp [hx, bind, Except.bind] at h
  | ok y =>
    cases hl : l.mapM f with
    | error e => simp [hx, hl, bind, Except.bind] at h
    | ok ys =>
      simp only [hx, hl, bind, Except.bind, pure, Except.pure, Except.ok.injEq] at h
      exact ⟨y, ys, rfl, rfl, h.symm⟩

theorem mapM_congr {l : List α} {g : α → Except Fault β} (h : ∀ x ∈ l, f x = g x) :
    l.mapM f = l.mapM g := by
  induction l with
  | nil => rfl
  | cons x l ih =>
    rw [List.mapM_cons, List.mapM_cons, h x List.mem_cons_self,
      ih fun y hy => h y (List.mem_cons_of_mem x hy)]

/-- A list of computations of which none fails has a list of results. -/
theorem exists_mapM_eq_ok {l : List α} (h : ∀ x ∈ l, ∃ y, f x = .ok y) :
    ∃ r, l.mapM f = .ok r := by
  induction l with
  | nil => exact ⟨[], rfl⟩
  | cons x l ih =>
    obtain ⟨y, hx⟩ := h x List.mem_cons_self
    obtain ⟨ys, hl⟩ := ih fun x' hx' => h x' (List.mem_cons_of_mem x hx')
    refine ⟨y :: ys, ?_⟩
    rw [List.mapM_cons, hx, hl]
    rfl

theorem mapM_cons_eq_error {x : α} {l : List α} : (x :: l).mapM f = .error fault ↔
    f x = .error fault ∨ ∃ y, f x = .ok y ∧ l.mapM f = .error fault := by
  rw [List.mapM_cons, bind_eq_error]
  exact or_congr_right (exists_congr fun y => and_congr_right fun _ => bind_pure_eq_error)

theorem mapM_append_eq_error {l l' : List α} : (l ++ l').mapM f = .error fault ↔
    l.mapM f = .error fault ∨ ∃ ys, l.mapM f = .ok ys ∧ l'.mapM f = .error fault := by
  rw [List.mapM_append, bind_eq_error]
  exact or_congr_right (exists_congr fun y => and_congr_right fun _ => bind_pure_eq_error)

/-- A list of computations fails as the first of them does that fails. -/
theorem mapM_eq_error_iff {l : List α} : l.mapM f = .error fault ↔ ∃ before x after,
    l = before ++ x :: after ∧ (∀ y ∈ before, ∃ z, f y = .ok z) ∧ f x = .error fault := by
  constructor
  · intro h
    induction l with
    | nil => cases h
    | cons x l ih =>
      rcases mapM_cons_eq_error.1 h with hx | ⟨y, hx, hl⟩
      · exact ⟨[], x, l, rfl, nofun, hx⟩
      · obtain ⟨before, z, after, rfl, hbefore, hz⟩ := ih hl
        refine ⟨x :: before, z, after, rfl, fun u hu => ?_, hz⟩
        rcases List.mem_cons.1 hu with rfl | hu
        · exact ⟨y, hx⟩
        · exact hbefore u hu
  · rintro ⟨before, x, after, rfl, hbefore, hx⟩
    obtain ⟨ys, hys⟩ := exists_mapM_eq_ok hbefore
    exact mapM_append_eq_error.2 (Or.inr ⟨ys, hys, mapM_cons_eq_error.2 (Or.inl hx)⟩)

theorem map_of_mapM_eq_ok {l : List α} {r : List β} (h : l.mapM f = .ok r) : l.map f = r.map .ok := by
  induction l generalizing r with
  | nil =>
    cases h
    rfl
  | cons x l ih =>
    obtain ⟨y, ys, hx, hl, rfl⟩ := mapM_cons_eq_ok h
    rw [List.map_cons, List.map_cons, hx, ih hl]

/-- Results of a list of computations are results of its members, and the other way round. -/
theorem mem_of_mapM_eq_ok {l : List α} {r : List β} (h : l.mapM f = .ok r) :
    (∀ x ∈ l, ∃ y ∈ r, f x = .ok y) ∧ ∀ y ∈ r, ∃ x ∈ l, f x = .ok y := by
  have hmap := map_of_mapM_eq_ok h
  constructor
  · intro x hx
    have hfx : f x ∈ r.map .ok := hmap ▸ List.mem_map_of_mem hx
    obtain ⟨y, hy, hxy⟩ := List.mem_map.1 hfx
    exact ⟨y, hy, hxy.symm⟩
  · intro y hy
    have hok : .ok y ∈ l.map f := hmap ▸ List.mem_map_of_mem hy
    exact List.mem_map.1 hok

/-- A list of computations has results exactly if each of them has one. -/
theorem mapM_eq_ok_iff {l : List α} {r : List β} {g : α → β}
    (hg : ∀ x ∈ l, ∀ y, f x = .ok y → y = g x) :
    l.mapM f = .ok r ↔ (∀ x ∈ l, ∃ y, f x = .ok y) ∧ r = l.map g := by
  have hresult : ∀ {r}, l.mapM f = .ok r → r = l.map g := by
    intro r h
    induction l generalizing r with
    | nil =>
      cases h
      rfl
    | cons x l ih =>
      obtain ⟨y, ys, hx, hl, rfl⟩ := mapM_cons_eq_ok h
      rw [List.map_cons, hg x List.mem_cons_self y hx,
        ih (fun x' hx' => hg x' (List.mem_cons_of_mem x hx')) hl]
  constructor
  · intro h
    refine ⟨fun x hx => ?_, hresult h⟩
    obtain ⟨y, -, hy⟩ := (mem_of_mapM_eq_ok h).1 x hx
    exact ⟨y, hy⟩
  · rintro ⟨hall, rfl⟩
    obtain ⟨r, hr⟩ := exists_mapM_eq_ok hall
    rw [hr, hresult hr]

/-- A list is filtered by tests that may fail exactly if none of them does. -/
theorem filterM_eq_ok_iff {l r : List α} {p : α → Except Fault Bool} {q : α → Bool}
    (hq : ∀ x ∈ l, ∀ b, p x = .ok b → b = q x) :
    l.filterM p = .ok r ↔ (∀ x ∈ l, ∃ b, p x = .ok b) ∧ r = l.filter q := by
  -- What was kept so far is carried along, the last first.
  suffices haux : ∀ kept, l.filterAuxM p kept = .ok r.reverse ↔
      (∀ x ∈ l, ∃ b, p x = .ok b) ∧ r = kept.reverse ++ l.filter q by
    have hreverse : l.filterM p = .ok r ↔ l.filterAuxM p [] = .ok r.reverse := by
      rw [List.filterM, bind_eq_ok]
      constructor
      · rintro ⟨kept, hkept, h⟩
        cases h
        rw [List.reverse_reverse, hkept]
      · intro h
        exact ⟨_, h, by rw [List.reverse_reverse]; rfl⟩
    rw [hreverse, haux]
    rfl
  induction l generalizing r with
  | nil =>
    intro kept
    simp only [List.filterAuxM, pure, Except.pure, Except.ok.injEq, List.not_mem_nil, List.filter_nil,
      List.append_nil, false_implies, implies_true, true_and]
    rw [eq_comm, List.reverse_eq_iff]
  | cons x l ih =>
    intro kept
    have ih := ih (r := r) fun x' hx' => hq x' (List.mem_cons_of_mem x hx')
    cases hx : p x with
    | error fault => simp [List.filterAuxM, hx, bind, Except.bind]
    | ok b =>
      obtain rfl := hq x List.mem_cons_self b hx
      simp only [List.filterAuxM, hx, bind, Except.bind, ih, List.forall_mem_cons, List.filter_cons]
      cases q x <;> simp

end Typeahead.Outcome
