import Typeahead.Proofs.Enumeration
import Typeahead.Proofs.Match

/-!
Which tokens a walk over the character automaton finds: the words that are spelled from its points to a
state without moves, without coming back to a state on the way, as far as they agree with what is typed.
-/
namespace Typeahead.Completion

variable {chars : Automaton} {preference : Preference} {path : List Nat} {points : List Point}
  {ws : List Text} {p q : Point} {m : Move} {s t : Nat} {v w : Text} {c : CodePoint}

/-- The move is followed with `c`: it consumes the character, and no case preference drops it. Only
sets of characters are subject to a case preference. -/
def reads (preference : Preference) (m : Move) (c : CodePoint) : Bool :=
  m.accepts c.toNat &&
    match m with
    | .set .. => !preference.drops m c
    | _ => true

/-- A word leads from a state to one without moves, along states that differ from each other and from
those of `path`. -/
inductive Spells (chars : Automaton) (preference : Preference) : List Nat → Nat → Text → Prop where
  | final {path : List Nat} {s : Nat} (hs : s ∉ path) (hf : chars.isFinal s = true) :
      Spells chars preference path s []
  | silent {path : List Nat} {s t : Nat} {w : Text} (hs : s ∉ path)
      (hm : .epsilon t ∈ chars.moves s) (h : Spells chars preference (s :: path) t w) :
      Spells chars preference path s w
  | char {path : List Nat} {s : Nat} {m : Move} {c : CodePoint} {w : Text} (hs : s ∉ path)
      (hm : m ∈ chars.moves s) (hc : reads preference m c = true)
      (h : Spells chars preference (s :: path) m.target w) :
      Spells chars preference path s (c :: w)

/-- One of the texts starts as the other. -/
def Agree (v w : Text) : Prop := v <+: w ∨ w <+: v

instance : Decidable (Agree v w) := inferInstanceAs (Decidable (v <+: w ∨ w <+: v))

@[simp] theorem agree_nil_right : Agree v [] := Or.inr (List.nil_prefix)

@[simp] theorem agree_nil_left : Agree [] w := Or.inl (List.nil_prefix)

/-- Texts agree with a character at the front if they are empty or start with it as well. -/
theorem agree_cons_iff :
    Agree v (c :: w) ↔ (v = [] ∨ ∃ rest, v = c :: rest) ∧ Agree v.tail w := by
  cases v with
  | nil => simp
  | cons d rest =>
    simp [Agree, List.cons_prefix_cons, @eq_comm CodePoint c d, ← and_or_left]

@[simp] theorem tail_append (typed v : Text) : tail typed (typed ++ v) = v := by
  simp [tail]

/-- A word of which something is left to add goes on from what is typed. -/
theorem Agree.eq_append (h : Agree v w) (hne : tail v w ≠ []) : w = v ++ tail v w := by
  rcases h with ⟨u, rfl⟩ | hpre
  · rw [tail_append]
  · exact absurd (List.drop_eq_nil_of_le hpre.length_le) hne

/-! ### What the moves of a point lead to -/

theorem charAt?_eq_some_iff {x : Int} : charAt? x = some c ↔ x = c.toNat := by
  constructor
  · intro h
    by_cases hneg : x < 0
    · rw [charAt?, if_pos hneg] at h
      cases h
    · by_cases hlt : x.toNat < 0x110000
      · rw [charAt?, if_neg hneg, dif_pos hlt] at h
        injection h with h
        rw [← h]
        exact (Int.toNat_of_nonneg (by omega)).symm
      · rw [charAt?, if_neg hneg, dif_neg hlt] at h
        cases h
  · rintro rfl
    have hlt : (c.toNat : Int).toNat < 0x110000 := c.isLt
    have hneg : ¬ (c.toNat : Int) < 0 := by omega
    rw [charAt?, if_neg hneg, dif_pos hlt]
    rfl

/-- A code that no `Char` has is one of a character all the same. -/
example : charAt? 0xD800 = some ⟨0xD800, by decide⟩ := rfl

theorem mem_characters_iff {cs : List CodePoint} (h : characters m = .ok cs) :
    c ∈ cs ↔ m.accepts c.toNat = true := by
  simp only [characters] at h
  split at h
  · simp at h
  · injection h with h
    subst h
    simp only [List.mem_filterMap, charAt?_eq_some_iff, Move.accepts_iff_mem_symbols,
      exists_eq_right]

theorem read_eq_some_iff : p.read t c = some q ↔
    (p.remaining = [] ∨ ∃ rest, p.remaining = c :: rest) ∧
      q = ⟨t, p.soFar ++ [c], p.remaining.tail⟩ := by
  cases hr : p.remaining with
  | nil => simp [Point.read, hr, eq_comm]
  | cons d rest =>
    by_cases hd : d = c
    · simp [Point.read, hr, hd, eq_comm]
    · simp [Point.read, hr, hd]

theorem mem_follow_iff {l : List Point} (h : follow chars preference p m = .ok l) :
    q ∈ l ↔ (m = .epsilon q.state ∧ q = { p with state := q.state }) ∨
      ∃ c, reads preference m c = true ∧ p.read m.target c = some q := by
  cases m with
  | epsilon t =>
    injection h with h
    subst h
    simp only [List.mem_singleton, reads, Move.accepts, Bool.false_and, Bool.false_eq_true,
      false_and, exists_false, or_false, Move.epsilon.injEq]
    constructor
    · rintro rfl
      exact ⟨rfl, rfl⟩
    · rintro ⟨rfl, hq⟩
      exact hq
  | atomic label t =>
    obtain ⟨cs, hcs, h⟩ := Outcome.bind_eq_ok.1 h
    injection h with h
    subst h
    simp [List.mem_filterMap, mem_characters_iff hcs, reads, Move.target]
  | set intervals t =>
    simp only [follow] at h
    split at h
    · obtain ⟨cs, hcs, h⟩ := Outcome.bind_eq_ok.1 h
      injection h with h
      subst h
      simp [List.mem_filterMap, mem_characters_iff hcs, reads, Move.target]
    · rename_i head rest hr
      injection h with h
      subst h
      have hread : ∀ c, p.read t c = some q → c = head := by
        intro c hq
        obtain ⟨hnil | ⟨_, hcons⟩, -⟩ := read_eq_some_iff.1 hq
        · simp [hr] at hnil
        · rw [hr] at hcons
          exact (List.cons.inj hcons).1.symm
      simp only [reduceCtorEq, false_and, false_or, Move.target]
      constructor
      · intro hq
        split at hq
        · rename_i hhead
          exact ⟨head, by simpa [reads] using hhead, by simpa using hq⟩
        · simp at hq
      · rintro ⟨c, hc, hq⟩
        obtain rfl := hread c hq
        rw [if_pos (by simpa [reads] using hc)]
        simpa using hq
  | foreign name t => simp [follow] at h

theorem mem_expand_iff {l : List Point} (h : expand chars preference p = .ok l) :
    q ∈ l ↔ (.epsilon q.state ∈ chars.moves p.state ∧ q = { p with state := q.state }) ∨
      ∃ m ∈ chars.moves p.state, ∃ c, reads preference m c = true ∧
        p.read m.target c = some q := by
  obtain ⟨lists, hl, h⟩ := Outcome.bind_eq_ok.1 h
  injection h with h
  subst h
  obtain ⟨hmoves, hback⟩ := Outcome.mem_of_mapM_eq_ok hl
  rw [List.mem_flatten]
  constructor
  · rintro ⟨l, hl, hq⟩
    obtain ⟨m, hm, hfollow⟩ := hback l hl
    rcases (mem_follow_iff hfollow).1 hq with ⟨rfl, hq⟩ | hread
    · exact Or.inl ⟨hm, hq⟩
    · exact Or.inr ⟨m, hm, hread⟩
  · rintro (⟨hm, hq⟩ | ⟨m, hm, hread⟩)
    · obtain ⟨l, hl, hfollow⟩ := hmoves _ hm
      exact ⟨l, hl, (mem_follow_iff hfollow).2 (Or.inl ⟨rfl, hq⟩)⟩
    · obtain ⟨l, hl, hfollow⟩ := hmoves m hm
      exact ⟨l, hl, (mem_follow_iff hfollow).2 (Or.inr hread)⟩

theorem mem_tokenAt_iff :
    w ∈ tokenAt chars p ↔ w = p.soFar ∧ w ≠ [] ∧ chars.isFinal p.state = true := by
  simp only [tokenAt]
  split
  · rename_i h
    simp only [Bool.and_eq_true, Bool.not_eq_true', List.isEmpty_eq_false_iff] at h
    simp only [List.mem_singleton]
    constructor
    · rintro rfl
      exact ⟨rfl, h⟩
    · exact fun hw => hw.1
  · rename_i h
    simp only [List.not_mem_nil, false_iff]
    rintro ⟨rfl, hne, hf⟩
    exact h (by simp [hne, hf])

/-! ### What a walk finds -/

/-- A word is found from a point if it goes on from there as what is typed does. -/
def FoundFrom (chars : Automaton) (preference : Preference) (path : List Nat) (p : Point)
    (w : Text) : Prop :=
  w ≠ [] ∧ ∃ v, Spells chars preference path p.state v ∧ w = p.soFar ++ v ∧ Agree p.remaining v

/-- A point finds the token that ends there and what the points that its moves lead to find. -/
theorem foundFrom_iff {next : List Point} (hp : p.state ∉ path)
    (he : expand chars preference p = .ok next) :
    FoundFrom chars preference path p w ↔
      w ∈ tokenAt chars p ∨ ∃ q ∈ next, FoundFrom chars preference (p.state :: path) q w := by
  rw [mem_tokenAt_iff]
  constructor
  · rintro ⟨hne, v, hv, rfl, ha⟩
    cases hv with
    | final _ hf => exact Or.inl ⟨by simp, hne, hf⟩
    | @silent _ _ t _ _ hm h =>
      refine Or.inr ⟨{ p with state := t }, ?_, hne, v, h, rfl, ha⟩
      exact (mem_expand_iff he).2 (Or.inl ⟨hm, rfl⟩)
    | @char _ _ m c v _ hm hc h =>
      obtain ⟨hr, ha⟩ := agree_cons_iff.1 ha
      refine Or.inr ⟨⟨m.target, p.soFar ++ [c], p.remaining.tail⟩, ?_, hne, v, h, by simp, ha⟩
      exact (mem_expand_iff he).2 (Or.inr ⟨m, hm, c, hc, read_eq_some_iff.2 ⟨hr, rfl⟩⟩)
  · rintro (⟨hw, hne, hf⟩ | ⟨q, hq, hne, v, hv, rfl, ha⟩)
    · exact ⟨hne, [], .final hp hf, by simp [hw], by simp⟩
    · rcases (mem_expand_iff he).1 hq with ⟨hm, hq⟩ | ⟨m, hm, c, hc, hread⟩
      · rw [hq] at ha ⊢
        exact ⟨by rwa [hq] at hne, v, .silent hp hm hv, rfl, ha⟩
      · obtain ⟨hr, rfl⟩ := read_eq_some_iff.1 hread
        exact ⟨hne, c :: v, .char hp hm hc hv, by simp, agree_cons_iff.2 ⟨hr, ha⟩⟩

/-- A walk finds exactly what can be found from its points. -/
theorem mem_enumerate_iff (h : enumerate chars preference path points = .ok ws) :
    w ∈ ws ↔ ∃ p ∈ points, FoundFrom chars preference path p w := by
  fun_induction enumerate chars preference path points generalizing ws with
  | case1 path =>
    injection h with h
    simp [← h]
  | case2 path p points hp ih =>
    have hnot : ¬ FoundFrom chars preference path p w := by
      rintro ⟨-, v, hv, -⟩
      have hmem : p.state ∈ path := by simpa using hp
      cases hv <;> contradiction
    rw [ih h]
    simp [hnot]
  | case3 path p points hp fault he => simp at h
  | case4 path p points hp next he ihin ihrest =>
    obtain ⟨inner, hin, h⟩ := Outcome.bind_eq_ok.1 h
    obtain ⟨others, ho, h⟩ := Outcome.bind_eq_ok.1 h
    injection h with h
    simp only [← h, List.mem_append, ihin hin, ihrest ho, List.mem_cons, exists_eq_or_imp,
      foundFrom_iff (by simpa using hp) he]

/-! ### Spelling and paths -/

/-- What is spelled is matched. -/
theorem Spells.matches (h : Spells chars preference path s w) : chars.Matches s w := by
  induction h with
  | @final _ s _ hf => exact ⟨s, .refl s, hf⟩
  | silent _ hm _ ih =>
    obtain ⟨t, ht, hf⟩ := ih
    exact ⟨t, .silent hm ht, hf⟩
  | char _ hm hc _ ih =>
    obtain ⟨t, ht, hf⟩ := ih
    simp only [reads, Bool.and_eq_true] at hc
    exact ⟨t, .symbol hm hc.1 ht, hf⟩

theorem reads_both : reads .both m c = m.accepts c.toNat := by
  cases m <;> simp [reads]

/-- Where no state can be reached again and no case is dropped, whatever is matched is spelled. -/
theorem spells_of_matches (hl : chars.LoopFree s) (h : chars.Matches s w)
    (hpath : ∀ t, Relation.ReflTransGen chars.Leads s t → t ∉ path) :
    Spells chars .both path s w := by
  -- A state that was left cannot be met again later on.
  have hnext : ∀ {s t : Nat} {path : List Nat}, chars.Leads s t → chars.LoopFree s →
      (∀ u, Relation.ReflTransGen chars.Leads s u → u ∉ path) →
      chars.LoopFree t ∧ ∀ u, Relation.ReflTransGen chars.Leads t u → u ∉ s :: path := by
    intro s t path hst hl hpath
    refine ⟨fun u hu => hl u (.head hst hu), fun u hu hmem => ?_⟩
    rcases List.mem_cons.1 hmem with rfl | hmem
    · exact hl u .refl (.head' hst hu)
    · exact hpath u (.head hst hu) hmem
  obtain ⟨t, ht, hf⟩ := h
  generalize hx : w.codes = x at ht
  induction ht generalizing path w with
  | refl s =>
    obtain rfl : w = [] := by simpa [Text.codes] using hx
    exact .final (hpath s .refl) hf
  | @silent s _ _ _ hm _ ih =>
    obtain ⟨hl', hpath'⟩ := hnext ⟨_, hm, rfl⟩ hl hpath
    exact .silent (hpath s .refl) hm (ih hl' hpath' hf hx)
  | @symbol s _ m x _ hm hc _ ih =>
    cases w with
    | nil => simp at hx
    | cons c w =>
      injection hx with hc' hx
      subst hc'
      obtain ⟨hl', hpath'⟩ := hnext ⟨m, hm, rfl⟩ hl hpath
      exact .char (hpath s .refl) hm (reads_both.trans hc) (ih hl' hpath' hf hx)

/-! ### What the candidate kinds give -/

variable {task : Task} {kinds : List Int}

theorem mem_enumerate_entry_iff {entry : Nat} {typed : Text}
    (h : enumerate chars preference [] [⟨entry, [], typed⟩] = .ok ws) :
    w ∈ ws ↔ w ≠ [] ∧ Agree typed w ∧ Spells chars preference [] entry w := by
  rw [mem_enumerate_iff h]
  constructor
  · rintro ⟨p, hp, hne, v, hv, hw, ha⟩
    obtain rfl := List.mem_singleton.1 hp
    obtain rfl : w = v := hw
    exact ⟨hne, ha, hv⟩
  · rintro ⟨hne, ha, hv⟩
    exact ⟨_, List.mem_singleton_self _, hne, w, hv, rfl, ha⟩

/-- The words of some kinds are those that are spelled from their entries and agree with what is
typed. -/
theorem mem_words_iff (h : words task kinds = .ok ws) : w ∈ ws ↔
    w ≠ [] ∧ Agree task.typed w ∧ ∃ kind ∈ kinds, ∃ entry, task.entry kind = some entry ∧
      Spells task.chars task.preference [] entry w := by
  induction kinds generalizing ws with
  | nil =>
    injection h with h
    simp [← h]
  | cons kind kinds ih =>
    simp only [words] at h
    split at h
    · rename_i hentry
      simp [ih h, hentry]
    · rename_i entry hentry
      obtain ⟨first, hfirst, h⟩ := Outcome.bind_eq_ok.1 h
      obtain ⟨others, ho, h⟩ := Outcome.bind_eq_ok.1 h
      injection h with h
      simp only [← h, List.mem_append, mem_enumerate_entry_iff hfirst, ih ho, List.mem_cons,
        exists_eq_or_imp, hentry, Option.some.injEq, exists_eq_left', ← and_or_left]

end Typeahead.Completion
