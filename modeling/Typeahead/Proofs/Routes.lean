import Typeahead.Proofs.Totality

/-!
Completions and routes. A route follows moves through the character automaton until there is none left,
and may come back to states on its way. The walk keeps one set of states for all its branches, which it
adds to on entering a state and takes from on leaving it; still it finds exactly what is spelled along the
routes that visit no state twice, whatever loops there are.
-/
namespace Typeahead.Completion

variable {chars : Automaton} {preference : Preference} {path states : List Nat} {s : Nat}
  {m : Move} {c : CodePoint} {v w : Text}

/-- A route from a state to one without moves: the states that it visits, both ends included, and the word
that is read on the way. A single label stands for its character; of a set of characters any may be read
that the case preference does not drop there. -/
inductive Route (chars : Automaton) (preference : Preference) : Nat → List Nat → Text → Prop where
  | stop {s : Nat} (hm : chars.moves s = []) : Route chars preference s [s] []
  | silent {s t : Nat} {states : List Nat} {w : Text} (hm : .epsilon t ∈ chars.moves s)
      (h : Route chars preference t states w) : Route chars preference s (s :: states) w
  | atomic {s t : Nat} {states : List Nat} {c : CodePoint} {w : Text}
      (hm : .atomic c.toNat t ∈ chars.moves s) (h : Route chars preference t states w) :
      Route chars preference s (s :: states) (c :: w)
  | set {s t : Nat} {states : List Nat} {intervals : List Interval} {i : Interval} {c : CodePoint}
      {w : Text} (hm : .set intervals t ∈ chars.moves s) (hi : i ∈ intervals)
      (hc : i.contains c.toNat = true) (hd : preference.drops (.set intervals t) c = false)
      (h : Route chars preference t states w) : Route chars preference s (s :: states) (c :: w)

/-! ### Spelling along routes -/

theorem Route.char (hm : m ∈ chars.moves s) (hc : reads preference m c = true)
    (h : Route chars preference m.target states w) :
    Route chars preference s (s :: states) (c :: w) := by
  cases m with
  | epsilon t => simp [reads, Move.accepts] at hc
  | foreign name t => simp [reads, Move.accepts] at hc
  | atomic label t =>
    obtain rfl : label = c.toNat := by simpa [reads, Move.accepts] using hc
    exact .atomic hm h
  | set intervals t =>
    simp only [reads, Move.accepts, Bool.and_eq_true, List.any_eq_true, Bool.not_eq_true'] at hc
    obtain ⟨⟨i, hi, hci⟩, hd⟩ := hc
    exact .set hm hi hci hd h

/-- The states differ from each other and from those of `path`. -/
def Clear (path states : List Nat) : Prop := states.Nodup ∧ ∀ x ∈ states, x ∉ path

theorem clear_nil_iff : Clear [] states ↔ states.Nodup := by
  simp [Clear]

/-- A state may go in front of those that are clear of it and of the path. -/
theorem clear_cons_iff : Clear path (s :: states) ↔ s ∉ path ∧ Clear (s :: path) states := by
  rw [Clear, Clear, List.nodup_cons, List.forall_mem_cons]
  simp only [List.mem_cons, not_or]
  constructor
  · rintro ⟨⟨hs, hnodup⟩, hpath, hclear⟩
    exact ⟨hpath, hnodup, fun x hx => ⟨fun heq => hs (heq ▸ hx), hclear x hx⟩⟩
  · rintro ⟨hpath, hnodup, hclear⟩
    exact ⟨⟨fun hs => (hclear s hs).1 rfl, hnodup⟩, hpath, fun x hx => (hclear x hx).2⟩

theorem Spells.exists_route (h : Spells chars preference path s w) :
    ∃ states, Route chars preference s states w ∧ Clear path states := by
  induction h with
  | @final _ s hs hf =>
    refine ⟨[s], .stop (by simpa [Automaton.isFinal] using hf), clear_cons_iff.2 ⟨hs, ?_⟩⟩
    simp [Clear]
  | silent hs hm _ ih =>
    obtain ⟨states, hr, hclear⟩ := ih
    exact ⟨_, .silent hm hr, clear_cons_iff.2 ⟨hs, hclear⟩⟩
  | char hs hm hc _ ih =>
    obtain ⟨states, hr, hclear⟩ := ih
    exact ⟨_, hr.char hm hc, clear_cons_iff.2 ⟨hs, hclear⟩⟩

theorem Route.spells (h : Route chars preference s states w) (hclear : Clear path states) :
    Spells chars preference path s w := by
  -- The path grows by the state that is left, and the states still to come stay clear of it.
  induction h generalizing path with
  | stop hm =>
    obtain ⟨hs, -⟩ := clear_cons_iff.1 hclear
    exact .final hs (by simp [Automaton.isFinal, hm])
  | silent hm _ ih =>
    obtain ⟨hs, hclear⟩ := clear_cons_iff.1 hclear
    exact .silent hs hm (ih hclear)
  | atomic hm _ ih =>
    obtain ⟨hs, hclear⟩ := clear_cons_iff.1 hclear
    exact .char hs hm (by simp [reads, Move.accepts]) (ih hclear)
  | @set _ t _ intervals i c _ hm hi hc hd _ ih =>
    obtain ⟨hs, hclear⟩ := clear_cons_iff.1 hclear
    have haccepts : (Move.set intervals t).accepts c.toNat = true :=
      List.any_eq_true.2 ⟨i, hi, hc⟩
    exact .char hs hm (by simp [reads, haccepts, hd]) (ih hclear)

/-- What is spelled clear of a path is what is read along the routes that stay clear of it. -/
theorem spells_iff_exists_route : Spells chars preference path s w ↔
    ∃ states, Route chars preference s states w ∧ Clear path states :=
  ⟨Spells.exists_route, fun ⟨_, hr, hclear⟩ => hr.spells hclear⟩

/-! ### What is typed already -/

/-- Two texts agree if they are the same as far as both go. -/
theorem agree_iff_take : Agree v w ↔
    w.take (min w.length v.length) = v.take (min w.length v.length) := by
  rcases Nat.le_total w.length v.length with hle | hle
  · rw [Nat.min_eq_left hle, List.take_length, ← List.prefix_iff_eq_take]
    refine ⟨fun h => h.elim (fun hpre => ?_) id, Or.inr⟩
    rw [hpre.eq_of_length_le hle]
  · rw [Nat.min_eq_right hle, List.take_length, eq_comm, ← List.prefix_iff_eq_take]
    refine ⟨fun h => h.elim id fun hpre => ?_, Or.inl⟩
    rw [hpre.eq_of_length_le hle]

theorem tail_eq_drop_min (typed token : Text) :
    tail typed token = token.drop (min token.length typed.length) := by
  rcases Nat.le_total token.length typed.length with hle | hle
  · rw [Nat.min_eq_left hle, tail, List.drop_eq_nil_of_le hle, List.drop_length]
  · rw [Nat.min_eq_right hle, tail]

/-! ### Completions -/

variable {task : Task} {entry : Nat}

/-- If every move is understood and no label is too large for a character, the completions of a kind can be
told, each once: they are what is left to type of the words read along the routes from its entry that
visit no state twice, as far as these go as what is typed does. -/
theorem completions_read_along_routes {kind : Int} (hread : Readable task.chars)
    (he : task.entry kind = some entry) :
    ∃ found, (complete task {} [kind]).outcome = .ok found ∧ found.Nodup ∧
      ∀ v, v ∈ found ↔ ∃ states w, Route task.chars task.preference entry states w ∧
        states.Nodup ∧ w ≠ [] ∧
        w.take (min w.length task.typed.length) =
          task.typed.take (min w.length task.typed.length) ∧
        v = w.drop (min w.length task.typed.length) := by
  obtain ⟨ws, hws, hfound⟩ := hread.exists_complete [kind]
  have hmem : ∀ w, w ∈ ws ↔ w ≠ [] ∧ Agree task.typed w ∧
      ∃ states, Route task.chars task.preference entry states w ∧ states.Nodup := by
    intro w
    simp [mem_words_iff hws, he, spells_iff_exists_route, clear_nil_iff]
  refine ⟨_, hfound, nodup_eraseDups _, fun v => ?_⟩
  rw [List.mem_eraseDups, List.mem_map]
  constructor
  · rintro ⟨w, hw, rfl⟩
    obtain ⟨hne, hagree, states, hr, hnodup⟩ := (hmem w).1 hw
    exact ⟨states, w, hr, hnodup, hne, agree_iff_take.1 hagree, tail_eq_drop_min _ w⟩
  · rintro ⟨states, w, hr, hnodup, hne, hagree, rfl⟩
    exact ⟨w, (hmem w).2 ⟨hne, agree_iff_take.2 hagree, states, hr, hnodup⟩, tail_eq_drop_min _ w⟩

/-- The task of completing `a` by `B` rather than `b`, or by `c`, with loops on the way and a label for no
character. -/
def looping : Task where
  chars := ⟨#[⟨0, [.atomic 97 1, .epsilon 0]⟩, ⟨1, [.epsilon 0, .set [⟨66, 67⟩, ⟨98, 100⟩] 2]⟩,
    ⟨2, [.epsilon 1, .atomic (-1) 3, .epsilon 3]⟩, ⟨3, []⟩]⟩
  entry := fun kind => if kind = 1 then some 0 else none
  typed := ['a']
  preference := .upper

theorem looping_read_along_routes :
    Readable looping.chars ∧ looping.entry 1 = some 0 ∧
      ∃ found, (complete looping {} [1]).outcome = .ok found ∧ found.Nodup ∧
        (['B'] : Text) ∈ found ∧ (['c'] : Text) ∈ found := by
  have hread : Readable looping.chars := readable_of_lt (by decide)
  have he : looping.entry 1 = some 0 := rfl
  have hB : Text.lower 'B' = (['b'] : Text) := by decide +kernel
  have hc : Text.upper 'c' = (['C'] : Text) := by decide +kernel
  have hroute : ∀ c ∈ (['B', 'c'] : Text), Route looping.chars .upper 0 [0, 1, 2, 3] ['a', c] := by
    intro c hmem
    have hset : reads .upper (.set [⟨66, 67⟩, ⟨98, 100⟩] 2) c = true := by
      rcases List.mem_pair.1 hmem with rfl | rfl
      · simp [reads, Preference.drops, Move.accepts, hB]
      · simp [reads, Preference.drops, Preference.offers, Move.accepts, Interval.contains, hc]
    have hlast : Route looping.chars .upper 2 [2, 3] [] := .silent (by decide) (.stop rfl)
    have hmid : Route looping.chars .upper 1 [1, 2, 3] [c] := hlast.char (by decide) hset
    exact .atomic (t := 1) (by decide) hmid
  obtain ⟨found, hok, hnodup, hmem⟩ := completions_read_along_routes hread he
  exact ⟨hread, he, found, hok, hnodup,
    (hmem _).2 ⟨_, _, hroute 'B' (by simp), by decide, by simp, rfl, rfl⟩,
    (hmem _).2 ⟨_, _, hroute 'c' (by simp), by decide, by simp, rfl, rfl⟩⟩

end Typeahead.Completion
