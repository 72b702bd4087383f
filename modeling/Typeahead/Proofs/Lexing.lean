import Mathlib
import Typeahead.Proofs.Munch
import Typeahead.Proofs.Threads

/-!
Which match a lexer finds. If the token rules are flat then the match that the lexer ends with is that
of the rule that wins at the front of the text, with the kind of the rule on the main channel, and it
finds none exactly where no rule spans anything.
-/
namespace Typeahead

variable {n : Network} {a : Automaton} {alphabet : Interval} {t : Thread} {threads : List Thread}
  {front : Network.Front} {r r' : Rule} {rules : List Rule} {text text' u v rest : Text} {c : CodePoint}
  {k k' : Nat} {best : Option (Nat × Network.Meaning)}

theorem forall₂_exists_of_mem {α β : Type} {R : α → β → Prop} {l : List α} {l' : List β} {x : α}
    (h : List.Forall₂ R l l') (hx : x ∈ l) : ∃ y ∈ l', R x y := by
  induction h with
  | nil => simp at hx
  | cons hr _ ih =>
    rcases List.mem_cons.1 hx with rfl | hx
    · exact ⟨_, List.mem_cons_self, hr⟩
    · obtain ⟨y, hy, hxy⟩ := ih hx
      exact ⟨y, List.mem_cons_of_mem _ hy, hxy⟩

/-! ### Spans of longer texts -/

namespace Rule

theorem Wins.mem {position stop : Nat} (h : r.Wins a rules text position stop) : r ∈ rules := by
  obtain ⟨before, after, rfl, -⟩ := h.earliest
  simp

/-- Only one rule wins, with one length. -/
theorem Wins.unique (h : r.Wins a rules text 0 k) (h' : r'.Wins a rules text 0 k') :
    k = k' ∧ r = r' := by
  obtain rfl : k = k' :=
    Nat.le_antisymm (h'.longest r h.mem k h.spans) (h.longest r' h'.mem k' h'.spans)
  refine ⟨rfl, ?_⟩
  obtain ⟨before, after, hrules, hno⟩ := h.earliest
  obtain ⟨before', after', hrules', hno'⟩ := h'.earliest
  -- Neither rule stands among those before the other.
  rcases List.append_eq_append_iff.1 (hrules.symm.trans hrules') with
    ⟨l, hl, hcons⟩ | ⟨l, hl, hcons⟩
  · cases l with
    | nil => exact (List.cons.inj hcons).1
    | cons r₀ l =>
      obtain rfl := (List.cons.inj hcons).1
      exact absurd h.spans (hno' r (by simp [hl]))
  · cases l with
    | nil => exact (List.cons.inj hcons).1.symm
    | cons r₀ l =>
      obtain rfl := (List.cons.inj hcons).1
      exact absurd h'.spans (hno r' (by simp [hl]))

/-- Whether a rule wins depends on nothing but what the rules span. -/
theorem Wins.congr (h : r.Wins a rules text 0 k)
    (heq : ∀ r ∈ rules, ∀ k, r.Spans a text' 0 k ↔ r.Spans a text 0 k) :
    r.Wins a rules text' 0 k where
  spans := (heq r h.mem k).2 h.spans
  longest r' hr' k' hs := h.longest r' hr' k' ((heq r' hr' k').1 hs)
  earliest := by
    obtain ⟨before, after, rfl, hno⟩ := h.earliest
    refine ⟨before, after, rfl, fun r' hr' hs => hno r' hr' ?_⟩
    exact (heq r' (List.mem_append_left _ hr') k).1 hs

/-- The earliest of the rules that match a whole text wins. -/
theorem wins_of_matches {before after : List Rule} (hne : text ≠ []) (hm : a.Matches r.entry text)
    (hno : ∀ r' ∈ before, ¬ a.Matches r'.entry text) :
    r.Wins a (before ++ r :: after) text 0 text.length where
  spans := spans_zero_iff.2 ⟨List.length_pos_iff.2 hne, le_rfl, by rwa [List.take_length]⟩
  longest _ _ _ hs := hs.le
  earliest := by
    refine ⟨before, after, rfl, fun r' hr' hs => hno r' hr' ?_⟩
    obtain ⟨-, -, hm'⟩ := spans_zero_iff.1 hs
    rwa [List.take_length] at hm'

/-- What is appended to a text does not matter to the spans that end before it. -/
theorem spans_append_of_le (hk : k ≤ v.length) : r.Spans a (v ++ u) 0 k ↔ r.Spans a v 0 k := by
  rw [spans_zero_iff, spans_zero_iff, List.take_append_of_le_length hk, List.length_append]
  constructor
  · rintro ⟨hpos, -, hm⟩
    exact ⟨hpos, hk, hm⟩
  · rintro ⟨hpos, -, hm⟩
    exact ⟨hpos, by omega, hm⟩

/-- With one more character a rule spans what it did, and the whole text if it matches that. -/
theorem spans_concat_of_not_matches (hm : ¬ a.Matches r.entry (v ++ [c])) :
    r.Spans a (v ++ [c]) 0 k ↔ r.Spans a v 0 k := by
  by_cases hk : k ≤ v.length
  · exact spans_append_of_le hk
  · refine iff_of_false (fun hs => hm ?_) fun hs => hk hs.le
    obtain ⟨-, -, hm'⟩ := spans_zero_iff.1 hs
    have hlen : (v ++ [c]).length ≤ k := by
      rw [List.length_append, List.length_singleton]
      omega
    rwa [List.take_of_length_le hlen] at hm'

/-- Behind a character over which a rule does not lead it spans nothing more. -/
theorem spans_append_of_not_path (hno : ∀ p, ¬ a.Path r.entry (v ++ [c]).codes p) :
    r.Spans a (v ++ c :: rest) 0 k ↔ r.Spans a v 0 k := by
  by_cases hk : k ≤ v.length
  · exact spans_append_of_le hk
  · refine iff_of_false (fun hs => ?_) fun hs => hk hs.le
    obtain ⟨j, rfl⟩ := Nat.exists_eq_add_of_lt (Nat.lt_of_not_le hk)
    obtain ⟨-, -, p, hp, -⟩ := spans_zero_iff.1 hs
    have htake : (v ++ c :: rest).take (v.length + j + 1) = v ++ [c] ++ rest.take j := by
      rw [Nat.add_assoc, List.take_length_add_append, List.take_succ_cons, List.append_assoc]
      rfl
    rw [htake, Text.codes_append] at hp
    obtain ⟨q, hq, -⟩ := hp.split
    exact hno q hq

end Rule

namespace Network

/-! ### The first thread that matches -/

namespace Tracks

theorem lacksAction_eq_false (ht : n.Tracks alphabet a v r threads)
    (h : n.toAutomaton alphabet = .ok a) (hmem : t ∈ threads) : n.lacksAction t = false := by
  obtain ⟨s, rfl, hf⟩ := ht.exists_of_mem h hmem
  rw [lacksAction, Bool.and_eq_false_iff, List.any_eq_false]
  refine Or.inr fun arc harc => ?_
  have hflat := hf.flat arc harc
  cases arc <;> simp_all [Arc.isFlat]

theorem isMatch_iff (ht : n.Tracks alphabet a v r threads) (h : n.toAutomaton alphabet = .ok a)
    {s p : Nat} (hs : n.position? (s : Int) = some p) (hp : a.Path r.entry v.codes p) :
    n.isMatch ⟨s, [], []⟩ = true ↔ a.isFinal p = true := by
  obtain ⟨start, hr, hg⟩ := ht.rule
  rw [isFinal_iff h hs, ← (hr.flat_of_path h hg.entry hp hs).stop_iff]
  simp [isMatch]

/-- A thread that matches means the kind of its rule, on the main channel. -/
theorem meaning_eq (ht : n.Tracks alphabet a v r threads) (h : n.toAutomaton alphabet = .ok a)
    {s p : Nat} (hs : n.position? (s : Int) = some p) (hp : a.Path r.entry v.codes p)
    (hm : n.isMatch ⟨s, [], []⟩ = true) : n.meaning ⟨s, [], []⟩ = .ok ⟨some r.kind, 0⟩ := by
  obtain ⟨start, hr, hg⟩ := ht.rule
  obtain ⟨s', hs', hleads⟩ := exists_leads h hg.entry hp
  obtain rfl := position?_inj hs hs'
  have hstop : n.isStop s = true := by simpa [isMatch] using hm
  have hkind := hr.ownKind_eq hg hleads hstop
  simp [meaning, hkind, bind, Except.bind, pure, Except.pure]

/-- A rule has a thread that matches exactly if it matches the characters read. -/
theorem find?_isMatch (ht : n.Tracks alphabet a v r threads) (h : n.toAutomaton alphabet = .ok a) :
    (threads.find? n.isMatch = none ∧ ¬ a.Matches r.entry v) ∨
      ∃ t, threads.find? n.isMatch = some t ∧ n.meaning t = .ok ⟨some r.kind, 0⟩ ∧
        a.Matches r.entry v := by
  cases hfind : threads.find? n.isMatch with
  | none =>
    refine Or.inl ⟨rfl, ?_⟩
    rintro ⟨p, hp, hfinal⟩
    obtain ⟨start, hr, hg⟩ := ht.rule
    obtain ⟨s, hs, -⟩ := exists_leads h hg.entry hp
    have hmem : (⟨s, [], []⟩ : Thread) ∈ threads := (ht.occupies _).2 ⟨s, p, hs, hp, rfl⟩
    exact List.find?_eq_none.1 hfind _ hmem ((ht.isMatch_iff h hs hp).2 hfinal)
  | some t =>
    have hm := List.find?_some hfind
    obtain ⟨s, p, hs, hp, rfl⟩ := (ht.occupies t).1 (List.mem_of_find?_eq_some hfind)
    exact Or.inr ⟨_, rfl, ht.meaning_eq h hs hp hm, p, hp, (ht.isMatch_iff h hs hp).1 hm⟩

end Tracks

/-- Threads of all rules, each list tracked. -/
abbrev TracksAll (n : Network) (alphabet : Interval) (a : Automaton) (rules : List Rule) (v : Text)
    (front : Front) : Prop :=
  List.Forall₂ (n.Tracks alphabet a v) rules front

theorem exists_rule_of_mem (hf : n.TracksAll alphabet a rules v front) (hmem : threads ∈ front) :
    ∃ r ∈ rules, n.Tracks alphabet a v r threads :=
  forall₂_exists_of_mem (List.Forall₂.flip (R := flip (n.Tracks alphabet a v)) hf) hmem

/-- The first thread that matches is of the earliest rule that matches. -/
theorem find?_flatten (hf : n.TracksAll alphabet a rules v front)
    (h : n.toAutomaton alphabet = .ok a) :
    (front.flatten.find? n.isMatch = none ∧ ∀ r ∈ rules, ¬ a.Matches r.entry v) ∨
      ∃ (t : Thread) (r : Rule) (before after : List Rule), front.flatten.find? n.isMatch = some t ∧
        n.meaning t = .ok ⟨some r.kind, 0⟩ ∧ rules = before ++ r :: after ∧ a.Matches r.entry v ∧
        ∀ r' ∈ before, ¬ a.Matches r'.entry v := by
  induction hf with
  | nil => exact Or.inl ⟨rfl, by simp⟩
  | @cons r threads rules front ht _ ih =>
    rw [List.flatten_cons, List.find?_append]
    rcases ht.find?_isMatch h with ⟨hnone, hno⟩ | ⟨t, hsome, hmeaning, hm⟩
    · rw [hnone, Option.none_or]
      rcases ih with ⟨hnone', hno'⟩ | ⟨t, r', before, after, hsome, hmeaning, rfl, hm, hno'⟩
      · exact Or.inl ⟨hnone', List.forall_mem_cons.2 ⟨hno, hno'⟩⟩
      · exact Or.inr ⟨t, r', r :: before, after, hsome, hmeaning, rfl, hm,
          List.forall_mem_cons.2 ⟨hno, hno'⟩⟩
    · exact Or.inr ⟨t, r, [], rules, by rw [hsome, Option.some_or], hmeaning, rfl, hm, by simp⟩

/-- What is accepted is the meaning of the earliest rule that matches the characters read. -/
theorem accepted_cases (hf : n.TracksAll alphabet a rules v front)
    (h : n.toAutomaton alphabet = .ok a) :
    (n.accepted front = .ok none ∧ ∀ r ∈ rules, ¬ a.Matches r.entry v) ∨
      ∃ (r : Rule) (before after : List Rule), n.accepted front = .ok (some ⟨some r.kind, 0⟩) ∧
        rules = before ++ r :: after ∧ a.Matches r.entry v ∧
        ∀ r' ∈ before, ¬ a.Matches r'.entry v := by
  have hlacks : front.any (·.any n.lacksAction) = false := by
    rw [List.any_eq_false]
    intro threads hthreads
    obtain ⟨r, -, ht⟩ := exists_rule_of_mem hf hthreads
    rw [Bool.not_eq_true, List.any_eq_false]
    intro t hmem
    simp [ht.lacksAction_eq_false h hmem]
  rcases find?_flatten hf h with
    ⟨hnone, hno⟩ | ⟨t, r, before, after, hsome, hmeaning, hrules, hm, hno⟩
  · exact Or.inl ⟨by simp [accepted, hlacks, hnone], hno⟩
  · refine Or.inr ⟨r, before, after, ?_, hrules, hm, hno⟩
    simp [accepted, hlacks, hsome, hmeaning, bind, Except.bind, pure, Except.pure]

/-! ### Fronts -/

/-- All token rules are flat, and there is one rule for each of them. -/
abbrev FlatRules (n : Network) (alphabet : Interval) (rules : List Rule) : Prop :=
  List.Forall₂ (fun start r => n.FlatRule alphabet start ∧ n.Gives start r) n.tokenRules rules

theorem FlatRules.exists_of_mem (hrules : n.FlatRules alphabet rules) (hr : r ∈ rules) :
    ∃ start, n.FlatRule alphabet start ∧ n.Gives start r := by
  obtain ⟨start, -, hstart⟩ :=
    forall₂_exists_of_mem (List.Forall₂.flip (R := flip fun start r => _) hrules) hr
  exact ⟨start, hstart⟩

theorem tracksAll_startFront (h : n.toAutomaton alphabet = .ok a)
    (hrules : n.FlatRules alphabet rules) : n.TracksAll alphabet a rules [] n.startFront := by
  rw [TracksAll, startFront, List.forall₂_map_right_iff]
  exact List.Forall₂.flip (hrules.imp fun _ _ hr => Tracks.settle_start hr.1 hr.2 h)

theorem TracksAll.advance (hf : n.TracksAll alphabet a rules v front)
    (h : n.toAutomaton alphabet = .ok a) (hc : alphabet.contains c.toNat = true) :
    n.TracksAll alphabet a rules (v ++ [c]) (n.advance c.toNat front) := by
  rw [TracksAll, Network.advance, List.forall₂_map_right_iff]
  exact hf.imp fun _ _ ht => ht.read h hc _

/-- No flat rule consumes the end of the text. -/
theorem TracksAll.accepted_end (hf : n.TracksAll alphabet a rules v front)
    (h : n.toAutomaton alphabet = .ok a) : n.accepted (n.advance endSymbol front) = .ok none := by
  have hempty : n.advance endSymbol front = front.map fun _ => [] := by
    refine List.map_congr_left fun threads hthreads => ?_
    obtain ⟨r, -, ht⟩ := exists_rule_of_mem hf hthreads
    have hnone : threads.flatMap (n.consume endSymbol) = [] := by
      rw [List.flatMap_eq_nil_iff]
      intro t hmem
      obtain ⟨s, rfl, hflat⟩ := ht.exists_of_mem h hmem
      rw [List.eq_nil_iff_forall_not_mem]
      intro u hu
      obtain ⟨arc, harc, haccepts, -⟩ := (mem_consume_iff hflat).1 hu
      rw [hflat.nonneg arc harc _ (by decide)] at haccepts
      cases haccepts
    simp [hnone, settle, Region.reach, Region.explore]
  have hflatten : (front.map fun _ => ([] : List Thread)).flatten = [] := by simp
  have hlacks : (front.map fun _ => ([] : List Thread)).any (·.any n.lacksAction) = false := by simp
  rw [hempty, accepted, hlacks, hflatten]
  rfl

/-! ### The match that is found -/

/-- The match is that of the rule that wins at the front of the text; there is none only if no rule
spans anything. -/
def IsBest (a : Automaton) (rules : List Rule) (text : Text) : Option (Nat × Meaning) → Prop
  | none => ∀ r ∈ rules, ∀ k, ¬ r.Spans a text 0 k
  | some (length, meaning) => ∃ r : Rule, r.Wins a rules text 0 length ∧ meaning = ⟨some r.kind, 0⟩

theorem IsBest.congr (hb : IsBest a rules text best)
    (heq : ∀ r ∈ rules, ∀ k, r.Spans a text' 0 k ↔ r.Spans a text 0 k) :
    IsBest a rules text' best := by
  cases best with
  | none => exact fun r hr k hs => hb r hr k ((heq r hr k).1 hs)
  | some m =>
    obtain ⟨r, hwins, hmeaning⟩ := hb
    exact ⟨r, hwins.congr heq, hmeaning⟩

/-- Trying the rules ends with the best match of the text, if it starts with that of the characters
read. -/
theorem TracksAll.exists_attemptFrom (hf : n.TracksAll alphabet a rules v front)
    (h : n.toAutomaton alphabet = .ok a) (hrest : ∀ c ∈ rest, alphabet.contains c.toNat = true)
    (hb : IsBest a rules v best) :
    ∃ consumed best', n.attemptFrom front v.length best rest = .settled consumed best' ∧
      IsBest a rules (v ++ rest) best' := by
  induction rest generalizing v front best with
  | nil =>
    refine ⟨v.length, best, ?_, by simpa using hb⟩
    rw [attemptFrom, hf.accepted_end h]
  | cons c rest ih =>
    have hf' := hf.advance h (hrest c List.mem_cons_self)
    have hlater : ∀ c' ∈ rest, alphabet.contains c'.toNat = true :=
      fun c' hc' => hrest c' (List.mem_cons_of_mem c hc')
    have hlen : v.length + 1 = (v ++ [c]).length := by simp
    have hsplit : v ++ c :: rest = v ++ [c] ++ rest := by simp
    rw [attemptFrom]
    by_cases hdead : (n.advance c.toNat front).all (·.isEmpty) = true
    · -- No rule leads over the next character, so none spans more than it has.
      refine ⟨v.length, best, by simp [hdead], hb.congr fun r hr k => ?_⟩
      refine Rule.spans_append_of_not_path fun p hp => ?_
      obtain ⟨threads, hthreads, ht⟩ := forall₂_exists_of_mem hf' hr
      obtain ⟨start, -, hg⟩ := ht.rule
      obtain ⟨s, hs, -⟩ := exists_leads h hg.entry hp
      have hmem := (ht.occupies _).2 ⟨s, p, hs, hp, rfl⟩
      rw [List.isEmpty_iff.1 (List.all_eq_true.1 hdead threads hthreads)] at hmem
      exact List.not_mem_nil hmem
    · simp only [hdead, Bool.false_eq_true, if_false]
      rw [hsplit, hlen]
      rcases accepted_cases hf' h with
        ⟨haccepted, hno⟩ | ⟨r, before, after, haccepted, rfl, hm, hno⟩
      · rw [haccepted]
        exact ih hf' hlater (hb.congr fun r hr k => Rule.spans_concat_of_not_matches (hno r hr))
      · rw [haccepted]
        exact ih hf' hlater ⟨r, Rule.wins_of_matches (by simp) hm hno, rfl⟩

/-- The lexer finds the best match at the front of any text over the alphabet. -/
theorem exists_attempt (h : n.toAutomaton alphabet = .ok a) (hrules : n.FlatRules alphabet rules)
    (htext : ∀ c ∈ text, alphabet.contains c.toNat = true) :
    ∃ consumed best, n.attempt text = .settled consumed best ∧ IsBest a rules text best := by
  have hf := tracksAll_startFront h hrules
  have haccepted : n.accepted n.startFront = .ok none := by
    rcases accepted_cases hf h with ⟨haccepted, -⟩ | ⟨r, before, after, -, rfl, ⟨p, hp, hfinal⟩, -⟩
    · exact haccepted
    · -- A match without characters would reach the stop state of the rule silently.
      obtain ⟨start, hr, hg⟩ := hrules.exists_of_mem (List.mem_append_right _ List.mem_cons_self)
      obtain ⟨s, hs, -⟩ := exists_leads h hg.entry hp
      have hstop : n.isStop s = true :=
        (hr.flat_of_path h hg.entry hp hs).stop_iff.2 ((isFinal_iff h hs).1 hfinal)
      rw [hr.nonempty s ((path_iff h hg.entry hs).2 hp)] at hstop
      cases hstop
  have hb : IsBest a rules [] none := fun r _ k hs => Nat.not_lt_of_le hs.le hs.lt
  rw [attempt, haccepted]
  exact hf.exists_attemptFrom h htext hb

end Network
end Typeahead
