import Typeahead.Network.Lexing
import Typeahead.Proofs.Conversion
import Typeahead.Proofs.Match

/-!
The threads of token rules that call nothing. Their states are flat: an arc consumes something or is
an epsilon arc, and a state without arcs is a stop state of the rule. The threads that a lexer keeps
for such a rule then stand exactly where the characters read so far lead from the rule's entry into
the automaton.
-/
namespace Typeahead

open Relation (ReflTransGen)

variable {n : Network} {a : Automaton} {alphabet : Interval} {arc : Arc} {x : Int}
  {s start p entry : Nat} {t : Thread} {threads : List Thread} {P : Nat → Prop} {r : Rule} {v : Text}
  {c : CodePoint}

namespace Arc

/-- The arc consumes something or is an epsilon arc: it calls no rule, tests nothing and performs
nothing. -/
def isFlat : Arc → Bool
  | epsilon _ | atom .. | range .. | set .. | notSet .. | wildcard _ => true
  | rule .. | predicate _ | precedence .. | action .. | unknown .. => false

/-- Only negated sets and wildcards depend on the alphabet, and only by whether it has the symbol. -/
theorem accepts_congr {alphabet' : Interval} (h : alphabet.contains x = alphabet'.contains x) :
    arc.accepts alphabet x = arc.accepts alphabet' x := by
  cases arc <;> simp [accepts, h]

end Arc

namespace Network

/-! ### Flat rules -/

/-- The state has flat arcs only, none of them consumes a negative symbol, and it is a stop state
exactly if it has none. -/
structure Flat (n : Network) (s : Nat) : Prop where
  flat : ∀ arc ∈ n.arcs s, arc.isFlat = true
  nonneg : ∀ arc ∈ n.arcs s, ∀ x < 0, arc.accepts .codePoints x = false
  stop_iff : n.isStop s = true ↔ n.arcs s = []

/-- From `start` only flat states can be reached, only stop states of the same rule, and no stop
state without consuming something. -/
structure FlatRule (n : Network) (alphabet : Interval) (start : Nat) : Prop where
  flat : ∀ s, ReflTransGen n.Leads start s → n.Flat s
  own : ∀ s, ReflTransGen n.Leads start s → n.isStop s = true →
    (n.station? s).map (·.rule) = (n.station? start).map (·.rule)
  nonempty : ∀ s, n.Path alphabet start [] s → n.isStop s = false

/-- The rule enters the automaton at the position of `start` and has the kind of the rule of
`start`, on the main channel. -/
structure Gives (n : Network) (start : Nat) (r : Rule) : Prop where
  entry : n.position? (start : Int) = some r.entry
  kind : n.ownKind start = .ok (some r.kind)
  positive : 0 < r.kind
  channel : r.channel = 0

theorem FlatRule.flat_of_path (hr : n.FlatRule alphabet start) (h : n.toAutomaton alphabet = .ok a)
    (he : n.position? (start : Int) = some entry) {w : List Int} (hpath : a.Path entry w p)
    (hs : n.position? (s : Int) = some p) : n.Flat s := by
  obtain ⟨s', hs', hleads⟩ := exists_leads h he hpath
  obtain rfl := position?_inj hs hs'
  exact hr.flat s hleads

/-- The stop states that are reached have the kind of the rule. -/
theorem FlatRule.ownKind_eq (hr : n.FlatRule alphabet start) (hg : n.Gives start r)
    (hleads : ReflTransGen n.Leads start s) (hstop : n.isStop s = true) :
    n.ownKind s = .ok (some r.kind) := by
  rw [← hg.kind, ownKind, ownKind, hr.own s hleads hstop]

/-! ### Where threads stand -/

/-- The threads have no calls and no actions and stand at the states whose positions satisfy `P`. -/
def Occupies (n : Network) (threads : List Thread) (P : Nat → Prop) : Prop :=
  ∀ t, t ∈ threads ↔ ∃ s p : Nat, n.position? (s : Int) = some p ∧ P p ∧ t = ⟨s, [], []⟩

theorem moveTo_eq_some {target : Int} {t t' : Thread} :
    t.moveTo target = some t' ↔ ∃ s : Nat, target = s ∧ t' = { t with state := s } := by
  simp only [Thread.moveTo, Option.map_eq_some_iff, Int.mem_toNat?, eq_comm (a := t')]

/-- Epsilon arcs are passed, and there are no others that consume nothing, not even the end. -/
theorem pass_eq_some (hs : n.Flat s) (harc : arc ∈ n.arcs s) {atEnd : Bool} {t : Thread} :
    Thread.pass ⟨s, [], []⟩ atEnd arc = some t ↔
      arc.isSilent = true ∧ ∃ u : Nat, arc.target = u ∧ t = ⟨u, [], []⟩ := by
  have hflat := hs.flat arc harc
  have hend : arc.accepts .codePoints endSymbol = false := hs.nonneg arc harc _ (by decide)
  cases arc <;> simp_all [Thread.pass, Arc.isFlat, Arc.isSilent, Arc.target, moveTo_eq_some]

/-- A thread passes the epsilon moves at its position. -/
theorem Flat.occupies_silent (hf : n.Flat s) (h : n.toAutomaton alphabet = .ok a)
    (hs : n.position? (s : Int) = some p) (atEnd : Bool) :
    n.Occupies (n.silent atEnd ⟨s, [], []⟩) fun q => .epsilon q ∈ a.moves p := by
  intro t
  have hmem : t ∈ n.silent atEnd ⟨s, [], []⟩ ↔ ∃ arc ∈ n.arcs s, arc.isSilent = true ∧
      ∃ u : Nat, arc.target = u ∧ t = ⟨u, [], []⟩ := by
    by_cases hstop : n.isStop s = true
    · simp [silent, hstop, hf.stop_iff.1 hstop]
    · simp only [silent, hstop, Bool.false_eq_true, if_false, List.mem_filterMap]
      exact exists_congr fun arc => and_congr_right fun harc => pass_eq_some hf harc
  rw [hmem]
  constructor
  · rintro ⟨arc, harc, hsilent, u, hu, rfl⟩
    obtain ⟨m, hm, u', hu', hpos, hmove⟩ := exists_move h hs harc
    obtain rfl := Int.ofNat_inj.1 (hu.symm.trans hu')
    rw [(Arc.isSilent_of_toMove hmove).1 hsilent] at hm
    exact ⟨u, m.target, hpos, hm, rfl⟩
  · rintro ⟨u, q, hpos, hm, rfl⟩
    obtain ⟨arc, harc, u', hu', hpos', hmove⟩ := exists_arc h hs hm
    obtain rfl := position?_inj hpos hpos'
    exact ⟨arc, harc, (Arc.isSilent_of_toMove hmove).2 rfl, u, hu', rfl⟩

theorem mem_consume_iff (hf : n.Flat s) :
    t ∈ n.consume x ⟨s, [], []⟩ ↔ ∃ arc ∈ n.arcs s, arc.accepts .codePoints x = true ∧
      ∃ u : Nat, arc.target = u ∧ t = ⟨u, [], []⟩ := by
  by_cases hstop : n.isStop s = true
  · simp [consume, hstop, hf.stop_iff.1 hstop]
  · simp only [consume, hstop, Bool.false_eq_true, if_false, List.mem_filterMap, List.mem_filter,
      moveTo_eq_some, and_assoc]

/-- A thread consumes a symbol of the alphabet as the moves at its position do. -/
theorem Flat.occupies_consume (hf : n.Flat s) (h : n.toAutomaton alphabet = .ok a)
    (hs : n.position? (s : Int) = some p)
    (hx : alphabet.contains x = Interval.codePoints.contains x) :
    n.Occupies (n.consume x ⟨s, [], []⟩) fun q =>
      ∃ m ∈ a.moves p, m.accepts x = true ∧ m.target = q := by
  intro t
  rw [mem_consume_iff hf]
  constructor
  · rintro ⟨arc, harc, haccepts, u, hu, rfl⟩
    obtain ⟨m, hm, u', hu', hpos, hmove⟩ := exists_move h hs harc
    obtain rfl := Int.ofNat_inj.1 (hu.symm.trans hu')
    refine ⟨u, m.target, hpos, ⟨m, hm, ?_, rfl⟩, rfl⟩
    rw [Arc.accepts_of_toMove hmove, Arc.accepts_congr hx, haccepts]
  · rintro ⟨u, q, hpos, ⟨m, hm, haccepts, rfl⟩, rfl⟩
    obtain ⟨arc, harc, u', hu', hpos', hmove⟩ := exists_arc h hs hm
    obtain rfl := position?_inj hpos hpos'
    refine ⟨arc, harc, ?_, u, hu', rfl⟩
    rw [← Arc.accepts_congr hx, ← Arc.accepts_of_toMove hmove, haccepts]

/-- Without consuming anything a thread follows the paths that spell nothing. -/
theorem FlatRule.follows_iff (hr : n.FlatRule alphabet start) (h : n.toAutomaton alphabet = .ok a)
    (he : n.position? (start : Int) = some entry) {w : List Int} (hw : a.Path entry w p)
    (hs : n.position? (s : Int) = some p) {atEnd : Bool} {depth : Nat} :
    ReflTransGen ((n.region depth).Follows (fun t => (t.state, t.calls)) (n.silent atEnd))
        ⟨s, [], []⟩ t ↔
      ∃ u q : Nat, n.position? (u : Int) = some q ∧ a.Path p [] q ∧ t = ⟨u, [], []⟩ := by
  have hsilent : ∀ {u q : Nat}, n.position? (u : Int) = some q → a.Path p [] q →
      n.Occupies (n.silent atEnd ⟨u, [], []⟩) fun q' => .epsilon q' ∈ a.moves q :=
    fun hu hq => (hr.flat_of_path h he (hw.append hq) hu).occupies_silent h hu atEnd
  constructor
  · intro ht
    induction ht with
    | refl => exact ⟨s, p, hs, .refl p, rfl⟩
    | tail _ hstep ih =>
      obtain ⟨u, q, hu, hq, rfl⟩ := ih
      obtain ⟨u', q', hu', hm, rfl⟩ := (hsilent hu hq _).1 hstep.2
      exact ⟨u', q', hu', hq.append (.silent hm (.refl q')), rfl⟩
  · rintro ⟨u, q, hu, hq, rfl⟩
    have hlast := hq.pass_on (P := fun q =>
      a.Path p [] q ∧ ∀ u : Nat, n.position? (u : Int) = some q →
        ReflTransGen ((n.region depth).Follows (fun t => (t.state, t.calls)) (n.silent atEnd))
          ⟨s, [], []⟩ ⟨u, [], []⟩)
    refine (hlast ⟨.refl p, fun u hu => ?_⟩ fun q q' hm ih => ?_).2 u hu
    · rw [position?_inj hu hs]
    · obtain ⟨hq, ih⟩ := ih
      refine ⟨hq.append (.silent hm (.refl q')), fun u' hu' => ?_⟩
      obtain ⟨u, hu, -⟩ := exists_leads h he (hw.append hq)
      obtain ⟨arc, harc, -⟩ := exists_arc h hu hm
      refine (ih u hu).tail ⟨?_, (hsilent hu hq _).2 ⟨u', q', hu', hm, rfl⟩⟩
      simp [region, lt_size_of_mem_arcs harc]

/-- Settling follows the paths that spell nothing. -/
theorem Occupies.settle (ho : n.Occupies threads P) (h : n.toAutomaton alphabet = .ok a)
    (hr : n.FlatRule alphabet start) (he : n.position? (start : Int) = some entry)
    (hP : ∀ p, P p → ∃ w, a.Path entry w p) (atEnd : Bool) :
    n.Occupies (n.settle atEnd threads) fun q => ∃ p, P p ∧ a.Path p [] q := by
  -- No two threads that are met stand at one point, since none of them has calls or actions.
  let Met (t : Thread) : Prop :=
    ∃ (s p : Nat) (w : List Int),
      n.position? (s : Int) = some p ∧ a.Path entry w p ∧ t = ⟨s, [], []⟩
  have hstart : ∀ t ∈ threads, Met t := by
    intro t ht
    obtain ⟨s, p, hs, hp, rfl⟩ := (ho t).1 ht
    obtain ⟨w, hw⟩ := hP p hp
    exact ⟨s, p, w, hs, hw, rfl⟩
  have hnext : ∀ t u, Met t → u ∈ n.silent atEnd t → Met u := by
    rintro t u ⟨s, p, w, hs, hw, rfl⟩ hu
    have hf := hr.flat_of_path h he hw hs
    obtain ⟨u, q, hq, hm, rfl⟩ := (hf.occupies_silent h hs atEnd u).1 hu
    exact ⟨u, q, w ++ [], hq, hw.append (.silent hm (.refl q)), rfl⟩
  have hinj : ∀ t u, Met t → Met u → (t.state, t.calls) = (u.state, u.calls) → t = u := by
    rintro t u ⟨s, p, w, -, -, rfl⟩ ⟨s', p', w', -, -, rfl⟩ heq
    cases heq
    rfl
  intro t
  rw [Network.settle, Region.mem_reach_iff_of_inj hstart hnext hinj]
  constructor
  · rintro ⟨u, hu, hut⟩
    obtain ⟨s, p, hs, hp, rfl⟩ := (ho u).1 hu
    obtain ⟨w, hw⟩ := hP p hp
    obtain ⟨u, q, hu, hq, rfl⟩ := (hr.follows_iff h he hw hs).1 hut
    exact ⟨u, q, hu, ⟨p, hp, hq⟩, rfl⟩
  · rintro ⟨u, q, hu, ⟨p, hp, hq⟩, rfl⟩
    obtain ⟨w, hw⟩ := hP p hp
    obtain ⟨s, hs, -⟩ := exists_leads h he hw
    exact ⟨⟨s, [], []⟩, (ho _).2 ⟨s, p, hs, hp, rfl⟩,
      (hr.follows_iff h he hw hs).2 ⟨u, q, hu, hq, rfl⟩⟩

/-! ### The threads of a rule -/

/-- The rule is made of a flat rule of the network, and its threads stand where the characters read
so far lead to. -/
structure Tracks (n : Network) (alphabet : Interval) (a : Automaton) (v : Text) (r : Rule)
    (threads : List Thread) : Prop where
  rule : ∃ start, n.FlatRule alphabet start ∧ n.Gives start r
  occupies : n.Occupies threads (a.Path r.entry v.codes)

namespace Tracks

/-- A thread in a flat state of the rule. -/
theorem exists_of_mem (ht : n.Tracks alphabet a v r threads) (h : n.toAutomaton alphabet = .ok a)
    (hmem : t ∈ threads) : ∃ s : Nat, t = ⟨s, [], []⟩ ∧ n.Flat s := by
  obtain ⟨start, hr, hg⟩ := ht.rule
  obtain ⟨s, p, hs, hp, rfl⟩ := (ht.occupies t).1 hmem
  exact ⟨s, rfl, hr.flat_of_path h hg.entry hp hs⟩

theorem settle_start (hr : n.FlatRule alphabet start) (hg : n.Gives start r)
    (h : n.toAutomaton alphabet = .ok a) :
    n.Tracks alphabet a [] r (n.settle false [⟨start, [], []⟩]) := by
  refine ⟨⟨start, hr, hg⟩, ?_⟩
  have hfirst : n.Occupies [⟨start, [], []⟩] (· = r.entry) := by
    intro t
    rw [List.mem_singleton]
    constructor
    · rintro rfl
      exact ⟨start, r.entry, hg.entry, rfl, rfl⟩
    · rintro ⟨s, p, hs, rfl, rfl⟩
      rw [position?_inj hs hg.entry]
  intro t
  rw [hfirst.settle h hr hg.entry (by rintro p rfl; exact ⟨[], .refl _⟩) false t]
  simp

/-- The threads that consume a character stand where the moves that consume it lead. -/
theorem occupies_consume (ht : n.Tracks alphabet a v r threads) (h : n.toAutomaton alphabet = .ok a)
    (hc : alphabet.contains c.toNat = true) :
    n.Occupies (threads.flatMap (n.consume c.toNat)) fun q =>
      ∃ p, a.Path r.entry v.codes p ∧ ∃ m ∈ a.moves p, m.accepts c.toNat = true ∧ m.target = q := by
  obtain ⟨start, hr, hg⟩ := ht.rule
  have hcode : alphabet.contains c.toNat = Interval.codePoints.contains c.toNat := by
    rw [hc, Text.contains_codePoints]
  intro u
  rw [List.mem_flatMap]
  constructor
  · rintro ⟨t, htm, hu⟩
    obtain ⟨s, p, hs, hp, rfl⟩ := (ht.occupies t).1 htm
    have hf := hr.flat_of_path h hg.entry hp hs
    obtain ⟨s', q, hs', hq, rfl⟩ := (hf.occupies_consume h hs hcode u).1 hu
    exact ⟨s', q, hs', ⟨p, hp, hq⟩, rfl⟩
  · rintro ⟨s', q, hs', ⟨p, hp, hq⟩, rfl⟩
    obtain ⟨s, hs, -⟩ := exists_leads h hg.entry hp
    have hf := hr.flat_of_path h hg.entry hp hs
    exact ⟨⟨s, [], []⟩, (ht.occupies _).2 ⟨s, p, hs, hp, rfl⟩,
      (hf.occupies_consume h hs hcode _).2 ⟨s', q, hs', hq, rfl⟩⟩

/-- Reading one more character keeps track of the paths. -/
theorem read (ht : n.Tracks alphabet a v r threads) (h : n.toAutomaton alphabet = .ok a)
    (hc : alphabet.contains c.toNat = true) (atEnd : Bool) :
    n.Tracks alphabet a (v ++ [c]) r
      (n.settle atEnd (threads.flatMap (n.consume c.toNat))) := by
  obtain ⟨start, hr, hg⟩ := ht.rule
  refine ⟨⟨start, hr, hg⟩, fun u => ?_⟩
  rw [(ht.occupies_consume h hc).settle h hr hg.entry ?_ atEnd u]
  · simp only [Text.codes_append, Text.codes_cons, Text.codes_nil, Automaton.Path.concat_iff]
    constructor
    · rintro ⟨s, q, hs, ⟨p', ⟨p, hp, m, hm, hx, rfl⟩, hq⟩, rfl⟩
      exact ⟨s, q, hs, ⟨p, hp, m, hm, hx, hq⟩, rfl⟩
    · rintro ⟨s, q, hs, ⟨p, hp, m, hm, hx, hq⟩, rfl⟩
      exact ⟨s, q, hs, ⟨m.target, ⟨p, hp, m, hm, hx, rfl⟩, hq⟩, rfl⟩
  · rintro q ⟨p, hp, m, hm, hx, rfl⟩
    exact ⟨_, hp.append (.symbol hm hx (.refl _))⟩

end Tracks
end Network
end Typeahead
