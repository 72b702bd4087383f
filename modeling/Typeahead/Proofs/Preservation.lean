import Mathlib.Data.List.Forall2
import Typeahead.Proofs.Conversion

/-!
What conversion keeps of a network. A network can be converted exactly if all its arcs lead to states that
were not removed and are of known kinds. Then the automaton has one node for each of these states, in order
and with the state's number, whose moves do one by one what the state's arcs do, so the same words lead from
the one state to the other.
-/
namespace Typeahead

variable {n : Network} {a : Automaton} {alphabet : Interval} {arc : Arc} {m : Move} {s t p : Nat}

theorem Outcome.forall₂_of_mapM_eq_ok {α β : Type} {f : α → Except Fault β} {l : List α} {r : List β}
    (h : l.mapM f = .ok r) : List.Forall₂ (fun x y => f x = .ok y) l r := by
  induction l generalizing r with
  | nil =>
    cases h
    exact .nil
  | cons x l ih =>
    obtain ⟨y, ys, hx, hl, rfl⟩ := mapM_cons_eq_ok h
    exact .cons hx (ih hl)

/-- The arc is of a known kind, or it consumes nothing whatever its kind. -/
def Arc.isKnown : Arc → Bool
  | unknown _ _ silent => silent
  | _ => true

theorem Arc.exists_toMove_iff : (∃ m, arc.toMove alphabet p = .ok m) ↔ arc.isKnown = true := by
  unfold toMove isKnown
  split <;> simp

namespace Network

/-- A state with the given number was not removed. -/
def Has (n : Network) (number : Int) : Prop := ∃ s ∈ n.numbers, (s : Int) = number

instance (n : Network) (number : Int) : Decidable (n.Has number) :=
  inferInstanceAs (Decidable (∃ s ∈ n.numbers, (s : Int) = number))

/-- Every arc leads to a state that was not removed, and is of a known kind. -/
def Convertible (n : Network) : Prop :=
  ∀ s ∈ n.numbers, ∀ arc ∈ n.arcs s, n.Has arc.target ∧ arc.isKnown = true

instance (n : Network) : Decidable n.Convertible :=
  inferInstanceAs (Decidable (∀ s ∈ n.numbers, ∀ arc ∈ n.arcs s, n.Has arc.target ∧ arc.isKnown = true))

theorem has_iff {number : Int} : n.Has number ↔ ∃ p, n.position number = .ok p := by
  have hposition : ∀ p, n.position number = .ok p ↔ n.position? number = some p := by
    intro p
    unfold position
    cases n.position? number <;> simp
  simp only [hposition, position?_eq_some_iff]
  constructor
  · rintro ⟨s, hs, heq⟩
    obtain ⟨p, hp⟩ := List.mem_iff_getElem?.1 hs
    exact ⟨p, s, heq, hp⟩
  · rintro ⟨p, s, heq, hp⟩
    exact ⟨s, List.mem_of_getElem? hp, heq⟩

theorem exists_convertArc_iff :
    (∃ m, n.convertArc alphabet arc = .ok m) ↔ n.Has arc.target ∧ arc.isKnown = true := by
  rw [has_iff]
  constructor
  · rintro ⟨m, hm⟩
    obtain ⟨p, hp, hm⟩ := Outcome.bind_eq_ok.1 hm
    exact ⟨⟨p, hp⟩, Arc.exists_toMove_iff.1 ⟨m, hm⟩⟩
  · rintro ⟨⟨p, hp⟩, hknown⟩
    exact Outcome.exists_bind_eq_ok hp (Arc.exists_toMove_iff.2 hknown)

theorem exists_convertStation_iff : (∃ node, n.convertStation alphabet s = .ok node) ↔
    ∀ arc ∈ n.arcs s, n.Has arc.target ∧ arc.isKnown = true := by
  constructor
  · rintro ⟨node, hnode⟩ arc harc
    obtain ⟨moves, hmoves, -⟩ := Outcome.bind_eq_ok.1 hnode
    obtain ⟨m, -, hm⟩ := (Outcome.mem_of_mapM_eq_ok hmoves).1 arc harc
    exact exists_convertArc_iff.1 ⟨m, hm⟩
  · intro harcs
    obtain ⟨moves, hmoves⟩ := Outcome.exists_mapM_eq_ok (f := n.convertArc alphabet)
      fun arc harc => exists_convertArc_iff.2 (harcs arc harc)
    exact Outcome.exists_bind_eq_ok hmoves ⟨_, rfl⟩

theorem exists_toAutomaton_iff : (∃ a, n.toAutomaton alphabet = .ok a) ↔ n.Convertible := by
  constructor
  · rintro ⟨a, ha⟩ s hs
    obtain ⟨nodes, hnodes, -⟩ := Outcome.bind_eq_ok.1 ha
    obtain ⟨node, -, hnode⟩ := (Outcome.mem_of_mapM_eq_ok hnodes).1 s hs
    exact exists_convertStation_iff.1 ⟨node, hnode⟩
  · intro hn
    obtain ⟨nodes, hnodes⟩ := Outcome.exists_mapM_eq_ok (f := n.convertStation alphabet)
      fun s hs => exists_convertStation_iff.2 (hn s hs)
    exact Outcome.exists_bind_eq_ok hnodes ⟨_, rfl⟩

/-! ### What is kept -/

theorem mem_numbers_iff : s ∈ n.numbers ↔ ∃ p, n.position? (s : Int) = some p := by
  simp only [position?_natCast, List.mem_iff_getElem?]

end Network

/-- The move does what the arc does: it leads to the state whose identifier the arc names, consumes nothing
exactly if the arc does, and consumes the same symbols. -/
structure Automaton.Renders (a : Automaton) (alphabet : Interval) (arc : Arc) (m : Move) : Prop where
  inside : m.target < a.size
  id_target : a.id m.target = arc.target
  silent : m = .epsilon m.target ↔ arc.isSilent = true
  accepts (x : Int) : m.accepts x = arc.accepts alphabet x

namespace Network

/-- The node has the number of the state, and its moves do one by one what the arcs of the state do. -/
structure Becomes (n : Network) (a : Automaton) (alphabet : Interval) (s : Nat) (node : Node) : Prop where
  id_eq : node.id = s
  moves : List.Forall₂ (a.Renders alphabet) (n.arcs s) node.moves

theorem lt_size_of_position? (h : n.toAutomaton alphabet = .ok a)
    (hp : n.position? (s : Int) = some p) : p < a.size := by
  rw [size_of_toAutomaton h]
  exact (List.getElem?_eq_some_iff.1 (position?_natCast.1 hp)).1

theorem renders_of_convertArc (h : n.toAutomaton alphabet = .ok a)
    (hm : n.convertArc alphabet arc = .ok m) : a.Renders alphabet arc m := by
  obtain ⟨t, ht, hp, hmove⟩ := convertArc_eq_ok hm
  refine ⟨lt_size_of_position? h hp, ?_, (Arc.isSilent_of_toMove hmove).symm,
    fun x => Arc.accepts_of_toMove hmove⟩
  rw [id_of_position? h hp, ht]

/-- The nodes of the automaton are the states that were not removed, in order, and the moves of a node are
the arcs of its state, in order. -/
theorem forall₂_nodes (h : n.toAutomaton alphabet = .ok a) :
    List.Forall₂ (n.Becomes a alphabet) n.numbers a.nodes.toList := by
  obtain ⟨nodes, hnodes, ha⟩ := Outcome.bind_eq_ok.1 h
  have htoList : a.nodes.toList = nodes := by
    cases ha
    rfl
  rw [htoList]
  refine (Outcome.forall₂_of_mapM_eq_ok hnodes).imp fun s node hnode => ?_
  obtain ⟨moves, hmoves, heq⟩ := Outcome.bind_eq_ok.1 hnode
  cases heq
  refine ⟨rfl, (Outcome.forall₂_of_mapM_eq_ok hmoves).imp fun arc m hm => ?_⟩
  exact renders_of_convertArc h hm

theorem pathById_iff {w : List Int} (h : n.toAutomaton alphabet = .ok a) (hs : s ∈ n.numbers)
    (ht : t ∈ n.numbers) : n.Path alphabet s w t ↔ a.PathById s w t := by
  obtain ⟨p, hp⟩ := mem_numbers_iff.1 hs
  obtain ⟨q, hq⟩ := mem_numbers_iff.1 ht
  rw [path_iff h hp hq, Automaton.PathById, find?_of_position? h hp, find?_of_position? h hq]
  simp

/-- A network whose arcs all lead to states that were not removed, and are of known kinds, can be converted
over every alphabet. The automaton has one node for each of these states, in order and with the number of
the state, whose moves do one by one what the arcs of the state do; and a word leads from one state to
another exactly if it leads from the node with the number of the one to the node with that of the other. -/
theorem conversion_keeps_paths (hn : n.Convertible) (alphabet : Interval) :
    ∃ a, n.toAutomaton alphabet = .ok a ∧
      List.Forall₂ (n.Becomes a alphabet) n.numbers a.nodes.toList ∧
      ∀ s ∈ n.numbers, ∀ t ∈ n.numbers, ∀ w, n.Path alphabet s w t ↔ a.PathById s w t := by
  obtain ⟨a, ha⟩ : ∃ a, n.toAutomaton alphabet = .ok a := exists_toAutomaton_iff.2 hn
  exact ⟨a, ha, forall₂_nodes ha, fun s hs t ht w => pathById_iff ha hs ht⟩

/-- Arcs of all kinds, over sets whose intervals overlap, stand in no order or are reversed. One state was
removed. -/
def manifold : Network where
  stations := #[some { arcs := [.epsilon 2, .rule 3 1 2, .unknown 4 "" true] }, none,
    some { arcs := [.atom 3 97, .range 4 98 100, .predicate 5] },
    some { arcs := [.set 4 (some [⟨120, 123⟩, ⟨104, 102⟩]), .precedence 5 2] },
    some { arcs := [.notSet 5 (some [⟨110, 120⟩, ⟨97, 112⟩, ⟨50, 40⟩]), .action 0 0 0] },
    some { arcs := [.wildcard 0] }]

theorem manifold_path_kept :
    manifold.Convertible ∧ ∃ a, manifold.toAutomaton ⟨0x20, 0x7F⟩ = .ok a ∧
      List.Forall₂ (manifold.Becomes a ⟨0x20, 0x7F⟩) [0, 2, 3, 4, 5] a.nodes.toList ∧
      a.PathById 0 [99, 122, 33] 0 := by
  have hn : manifold.Convertible := by decide
  obtain ⟨a, ha, hnodes, hpaths⟩ := conversion_keeps_paths hn ⟨0x20, 0x7F⟩
  refine ⟨hn, a, ha, hnodes, (hpaths 0 (by decide) 0 (by decide) _).1 ?_⟩
  exact .silent (t := 2) (show .epsilon 2 ∈ manifold.arcs 0 by decide) rfl rfl <|
    .symbol (t := 4) (show .range 4 98 100 ∈ manifold.arcs 2 by decide) rfl rfl <|
    .symbol (t := 5) (show .notSet 5 _ ∈ manifold.arcs 4 from List.mem_cons_self) rfl rfl <|
    .symbol (t := 0) (show .wildcard 0 ∈ manifold.arcs 5 by decide) rfl rfl (.refl 0)

end Network
end Typeahead
