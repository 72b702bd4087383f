import Mathlib.Data.List.Nodup
import Typeahead.Network.Convert
import Typeahead.Outcome
import Typeahead.Proofs.Complement
import Typeahead.Proofs.Path

/-!
Networks and their automata have the same paths. An arc and the move made of it lead to the same state
and consume the same symbols, so a word leads from one state of a network to another exactly if it
leads from the position of the one to the position of the other.
-/
namespace Typeahead

variable {n : Network} {a : Automaton} {alphabet : Interval} {arc : Arc} {m : Move} {x : Int}
  {w : List Int} {s t p q : Nat}

/-- A path from the state with identifier `i` to the one with identifier `j` spells the word. -/
def Automaton.PathById (a : Automaton) (i : Int) (w : List Int) (j : Int) : Prop :=
  ∃ p q, a.find? i = some p ∧ a.find? j = some q ∧ a.Path p w q

namespace Arc

theorem target_of_toMove (h : arc.toMove alphabet p = .ok m) : m.target = p := by
  unfold toMove at h
  split at h <;> cases h <;> rfl

theorem isForeign_of_toMove (h : arc.toMove alphabet p = .ok m) : m.isForeign = false := by
  unfold toMove at h
  split at h <;> cases h <;> rfl

/-- The arcs that consume nothing become the epsilon moves. -/
theorem isSilent_of_toMove (h : arc.toMove alphabet p = .ok m) :
    arc.isSilent = true ↔ m = .epsilon p := by
  unfold toMove at h
  split at h <;> cases h <;> simp [isSilent]

/-- Inclusive ranges, complements and wildcards come out as intervals with the same symbols. -/
theorem accepts_of_toMove (h : arc.toMove alphabet p = .ok m) :
    m.accepts x = arc.accepts alphabet x := by
  have hcomplement : ∀ l : List Interval, (Interval.complement l alphabet).any (·.contains x) =
      (alphabet.contains x && !l.any (·.contains x)) := by
    intro l
    rw [Bool.eq_iff_iff, List.any_eq_true, Interval.contains_complement_iff, Bool.and_eq_true,
      Bool.not_eq_true', List.any_eq_false]
    simp only [Bool.not_eq_true]
  have hrange : ∀ first last, Interval.contains ⟨first, last + 1⟩ x =
      (decide (first ≤ x) && decide (x ≤ last)) := by
    intro first last
    rw [Bool.eq_iff_iff, Interval.contains_iff, Bool.and_eq_true, decide_eq_true_eq, decide_eq_true_eq]
    exact and_congr_right fun _ => Int.lt_add_one_iff
  unfold toMove at h
  split at h <;> cases h <;> simp [Move.accepts, accepts, hcomplement, hrange]

end Arc

namespace Network

/-- Paths of a network and the words they spell. An arc that calls a rule only enters it. -/
inductive Path (n : Network) (alphabet : Interval) : Nat → List Int → Nat → Prop where
  | refl (s : Nat) : Path n alphabet s [] s
  | silent {s t u : Nat} {arc : Arc} {w : List Int} (harc : arc ∈ n.arcs s)
      (ht : arc.target = t) (hs : arc.isSilent = true) (h : Path n alphabet t w u) :
      Path n alphabet s w u
  | symbol {s t u : Nat} {arc : Arc} {x : Int} {w : List Int} (harc : arc ∈ n.arcs s)
      (ht : arc.target = t) (hx : arc.accepts alphabet x = true) (h : Path n alphabet t w u) :
      Path n alphabet s (x :: w) u

/-- Some arc of `s` leads to `t`. -/
def Leads (n : Network) (s t : Nat) : Prop := ∃ arc ∈ n.arcs s, arc.target = t

/-! ### Positions -/

theorem nodup_numbers (n : Network) : n.numbers.Nodup := List.nodup_range.filter _

theorem position?_eq_some_iff {number : Int} :
    n.position? number = some p ↔ ∃ s : Nat, (s : Int) = number ∧ n.numbers[p]? = some s := by
  rw [position?, List.findIdx?_eq_some_iff_getElem]
  constructor
  · rintro ⟨hp, heq, -⟩
    exact ⟨n.numbers[p], beq_iff_eq.1 heq, List.getElem?_eq_getElem hp⟩
  · rintro ⟨s, rfl, hs⟩
    obtain ⟨hp, rfl⟩ := List.getElem?_eq_some_iff.1 hs
    refine ⟨hp, beq_self_eq_true _, fun j hj => ?_⟩
    -- A number stands at one position only.
    have hne : n.numbers[j] ≠ n.numbers[p] := fun heq =>
      Nat.ne_of_lt hj ((n.nodup_numbers.getElem_inj_iff).1 heq)
    simpa [Int.ofNat_inj] using hne

theorem position?_natCast : n.position? (s : Int) = some p ↔ n.numbers[p]? = some s := by
  rw [position?_eq_some_iff]
  constructor
  · rintro ⟨s', hs', h⟩
    rwa [Int.ofNat_inj.1 hs'] at h
  · intro h
    exact ⟨s, rfl, h⟩

theorem exists_position? (hs : (n.station? s).isSome = true) :
    ∃ p, n.position? (s : Int) = some p := by
  have hlt : s < n.stations.size := by
    apply Nat.lt_of_not_le
    intro hle
    simp [station?, Array.getElem?_eq_none hle] at hs
  have hmem : s ∈ n.numbers := List.mem_filter.2 ⟨List.mem_range.2 hlt, hs⟩
  obtain ⟨p, hp⟩ := List.mem_iff_getElem?.1 hmem
  exact ⟨p, position?_natCast.2 hp⟩

theorem position?_inj (hs : n.position? (s : Int) = some p) (ht : n.position? (t : Int) = some p) :
    s = t :=
  Option.some.inj ((position?_natCast.1 hs).symm.trans (position?_natCast.1 ht))

theorem lt_size_of_mem_arcs (harc : arc ∈ n.arcs s) : s < n.stations.size := by
  apply Nat.lt_of_not_le
  intro hle
  simp [arcs, station?, Array.getElem?_eq_none hle] at harc

/-! ### Arcs and moves -/

theorem convertArc_eq_ok (h : n.convertArc alphabet arc = .ok m) :
    ∃ t : Nat, arc.target = t ∧ n.position? (t : Int) = some m.target ∧
      arc.toMove alphabet m.target = .ok m := by
  obtain ⟨p, hp, hm⟩ := Outcome.bind_eq_ok.1 h
  obtain rfl := Arc.target_of_toMove hm
  unfold position at hp
  split at hp
  · rename_i hfound
    cases hp
    obtain ⟨t, ht, -⟩ := position?_eq_some_iff.1 hfound
    exact ⟨t, ht.symm, ht ▸ hfound, hm⟩
  · cases hp

/-- The node at a state's position has the state's number and its arcs, one by one. -/
theorem exists_node (h : n.toAutomaton alphabet = .ok a) (hp : n.position? (s : Int) = some p) :
    ∃ moves, a.nodes[p]? = some ⟨s, moves⟩ ∧
      (n.arcs s).mapM (n.convertArc alphabet) = .ok moves := by
  obtain ⟨nodes, hnodes, ha⟩ := Outcome.bind_eq_ok.1 h
  cases ha
  have hnode := congrArg (·[p]?) (Outcome.map_of_mapM_eq_ok hnodes)
  simp only [List.getElem?_map, position?_natCast.1 hp, Option.map_some] at hnode
  obtain ⟨node, hget, hok⟩ := Option.map_eq_some_iff.1 hnode.symm
  obtain ⟨moves, hmoves, hnode⟩ := Outcome.bind_eq_ok.1 hok.symm
  cases hnode
  exact ⟨moves, by simpa using hget, hmoves⟩

/-- The moves at a state's position are its arcs, one by one. -/
theorem mapM_arcs (h : n.toAutomaton alphabet = .ok a) (hp : n.position? (s : Int) = some p) :
    (n.arcs s).mapM (n.convertArc alphabet) = .ok (a.moves p) := by
  obtain ⟨moves, hnode, hmoves⟩ := exists_node h hp
  rw [hmoves]
  simp [Automaton.moves, hnode]

theorem size_of_toAutomaton (h : n.toAutomaton alphabet = .ok a) : a.size = n.numbers.length := by
  obtain ⟨nodes, hnodes, ha⟩ := Outcome.bind_eq_ok.1 h
  cases ha
  simpa [Automaton.size] using (congrArg List.length (Outcome.map_of_mapM_eq_ok hnodes)).symm

/-- Positions of the automaton are positions of states. -/
theorem exists_of_lt_size (h : n.toAutomaton alphabet = .ok a) (hp : p < a.size) :
    ∃ s : Nat, n.position? (s : Int) = some p := by
  rw [size_of_toAutomaton h] at hp
  exact ⟨_, position?_natCast.2 (List.getElem?_eq_getElem hp)⟩

theorem id_of_position? (h : n.toAutomaton alphabet = .ok a) (hp : n.position? (s : Int) = some p) :
    a.id p = s := by
  obtain ⟨moves, hnode, -⟩ := exists_node h hp
  simp [Automaton.id, hnode]

/-- The state whose identifier is a number is the one at the position of that number. -/
theorem find?_of_position? (h : n.toAutomaton alphabet = .ok a)
    (hp : n.position? (s : Int) = some p) : a.find? (s : Int) = some p := by
  have hlt : p < a.size := by
    rw [size_of_toAutomaton h]
    exact (List.getElem?_eq_some_iff.1 (position?_natCast.1 hp)).1
  cases hq : a.find? (s : Int) with
  | none =>
    have hno := List.find?_eq_none.1 hq p (by simpa using hlt)
    simp [id_of_position? h hp] at hno
  | some q =>
    have hmem : q < a.size := by simpa using List.mem_of_find?_eq_some hq
    obtain ⟨u, hu⟩ := exists_of_lt_size h hmem
    have hid : a.id q = s := by simpa using List.find?_some hq
    rw [id_of_position? h hu] at hid
    obtain rfl := Int.ofNat_inj.1 hid
    exact congrArg some (Option.some.inj (hu.symm.trans hp))

theorem exists_move (h : n.toAutomaton alphabet = .ok a) (hp : n.position? (s : Int) = some p)
    (harc : arc ∈ n.arcs s) :
    ∃ m ∈ a.moves p, ∃ t : Nat, arc.target = t ∧ n.position? (t : Int) = some m.target ∧
      arc.toMove alphabet m.target = .ok m := by
  obtain ⟨m, hm, hconvert⟩ := (Outcome.mem_of_mapM_eq_ok (mapM_arcs h hp)).1 arc harc
  exact ⟨m, hm, convertArc_eq_ok hconvert⟩

theorem exists_arc (h : n.toAutomaton alphabet = .ok a) (hp : n.position? (s : Int) = some p)
    (hm : m ∈ a.moves p) :
    ∃ arc ∈ n.arcs s, ∃ t : Nat, arc.target = t ∧ n.position? (t : Int) = some m.target ∧
      arc.toMove alphabet m.target = .ok m := by
  obtain ⟨arc, harc, hconvert⟩ := (Outcome.mem_of_mapM_eq_ok (mapM_arcs h hp)).2 m hm
  exact ⟨arc, harc, convertArc_eq_ok hconvert⟩

/-- A state has no arcs exactly if there are no moves at its position. -/
theorem isFinal_iff (h : n.toAutomaton alphabet = .ok a) (hp : n.position? (s : Int) = some p) :
    a.isFinal p = true ↔ n.arcs s = [] := by
  have hlen : (n.arcs s).length = (a.moves p).length := by
    simpa using congrArg List.length (Outcome.map_of_mapM_eq_ok (mapM_arcs h hp))
  rw [Automaton.isFinal, List.isEmpty_iff, ← List.length_eq_zero_iff, ← hlen,
    List.length_eq_zero_iff]

/-- An automaton made of a network has only moves that are understood. -/
theorem plain_of_toAutomaton (h : n.toAutomaton alphabet = .ok a) : a.Plain := by
  intro p m hm
  obtain ⟨s, hs⟩ := exists_of_lt_size h (Automaton.lt_size_of_mem_moves hm)
  obtain ⟨arc, -, t, -, -, hmove⟩ := exists_arc h hs hm
  exact Arc.isForeign_of_toMove hmove

/-! ### Paths -/

/-- A word leads from one state of a network to another exactly if it does so in the automaton. -/
theorem path_iff (h : n.toAutomaton alphabet = .ok a) (hs : n.position? (s : Int) = some p)
    (ht : n.position? (t : Int) = some q) : n.Path alphabet s w t ↔ a.Path p w q := by
  constructor
  · intro hpath
    induction hpath generalizing p with
    | refl s =>
      obtain rfl : p = q := Option.some.inj (hs.symm.trans ht)
      exact .refl p
    | silent harc htarget hsilent _ ih =>
      obtain ⟨m, hm, r, hr, hrp, hmove⟩ := exists_move h hs harc
      obtain rfl := Int.ofNat_inj.1 (htarget.symm.trans hr)
      rw [(Arc.isSilent_of_toMove hmove).1 hsilent] at hm
      exact .silent hm (ih hrp ht)
    | symbol harc htarget hx _ ih =>
      obtain ⟨m, hm, r, hr, hrp, hmove⟩ := exists_move h hs harc
      obtain rfl := Int.ofNat_inj.1 (htarget.symm.trans hr)
      exact .symbol hm ((Arc.accepts_of_toMove hmove).trans hx) (ih hrp ht)
  · intro hpath
    induction hpath generalizing s with
    | refl p =>
      obtain rfl := position?_inj hs ht
      exact .refl s
    | silent hm _ ih =>
      obtain ⟨arc, harc, r, hr, hrp, hmove⟩ := exists_arc h hs hm
      exact .silent harc hr ((Arc.isSilent_of_toMove hmove).2 rfl) (ih hrp ht)
    | symbol hm hx _ ih =>
      obtain ⟨arc, harc, r, hr, hrp, hmove⟩ := exists_arc h hs hm
      exact .symbol harc hr ((Arc.accepts_of_toMove hmove).symm.trans hx) (ih hrp ht)

/-- A path of the network from a state that has a position leads to such a state. -/
theorem Path.exists_position (hpath : n.Path alphabet s w t) (h : n.toAutomaton alphabet = .ok a)
    (hs : n.position? (s : Int) = some p) : ∃ q, n.position? (t : Int) = some q := by
  induction hpath generalizing p with
  | refl => exact ⟨p, hs⟩
  | silent harc htarget _ _ ih | symbol harc htarget _ _ ih =>
    obtain ⟨m, -, r, hr, hrp, -⟩ := exists_move h hs harc
    obtain rfl := Int.ofNat_inj.1 (htarget.symm.trans hr)
    exact ih hrp

theorem Path.pathById (hpath : n.Path alphabet s w t) (h : n.toAutomaton alphabet = .ok a)
    (hs : n.position? (s : Int) = some p) : a.PathById s w t := by
  obtain ⟨q, ht⟩ := hpath.exists_position h hs
  exact ⟨p, q, find?_of_position? h hs, find?_of_position? h ht, (path_iff h hs ht).1 hpath⟩

/-- Paths of the automaton stay at the positions of states that arcs lead to. -/
theorem exists_leads (h : n.toAutomaton alphabet = .ok a) (hs : n.position? (s : Int) = some p)
    (hpath : a.Path p w q) :
    ∃ t : Nat, n.position? (t : Int) = some q ∧ Relation.ReflTransGen n.Leads s t := by
  induction hpath generalizing s with
  | refl => exact ⟨s, hs, .refl⟩
  | silent hm _ ih =>
    obtain ⟨arc, harc, r, hr, hrp, -⟩ := exists_arc h hs hm
    obtain ⟨t, ht, hrt⟩ := ih hrp
    exact ⟨t, ht, .head ⟨arc, harc, hr⟩ hrt⟩
  | symbol hm _ _ ih =>
    obtain ⟨arc, harc, r, hr, hrp, -⟩ := exists_arc h hs hm
    obtain ⟨t, ht, hrt⟩ := ih hrp
    exact ⟨t, ht, .head ⟨arc, harc, hr⟩ hrt⟩

end Network
end Typeahead
