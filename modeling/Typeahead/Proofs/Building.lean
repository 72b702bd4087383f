import Mathlib.Logic.Relation
import Typeahead.Automaton.Builder
import Typeahead.Outcome

/-!
What holds of a builder whatever it is asked to do. Handing out the automaton changes no state, and every
other step, refused or not, comes down to two kinds of edits: a new state, and one more move between states
that exist. Hence the state at a position always has the position as its identifier, every move leads to a
state of the builder, and an automaton that was handed out finds the same states for ever.
-/
namespace Typeahead.Builder

open Relation (ReflTransGen)

variable {b b' : Builder} {s t : Nat} {m : Move} {w : Text} {fault : Fault}

/-! ### Edits -/

/-- The smallest changes to the states of a builder. -/
inductive Edit : Builder → Builder → Prop where
  | newState {b : Builder} : Edit b b.newState
  | addMove {b : Builder} {s : Nat} {m : Move} (hs : s < b.size) (ht : m.target < b.size) :
      Edit b (b.addMove s m)

theorem edits_withTarget {target : Option Nat} (ht : ∀ t ∈ target, t < b.size) :
    ReflTransGen Edit b (b.withTarget target).2 ∧
      (b.withTarget target).1 < (b.withTarget target).2.size ∧
      b.size ≤ (b.withTarget target).2.size := by
  cases target with
  | none => exact ⟨.single .newState, by simp [withTarget], by simp [withTarget]⟩
  | some t => exact ⟨.refl, ht t rfl, Nat.le_refl _⟩

/-- A move is added to a state that was there and leads to one that is there now. -/
theorem edits_addLabelled {target : Option Nat} {label : Nat → Except Fault Move} (hs : s < b.size)
    (ht : ∀ t ∈ target, t < b.size) (hlabel : ∀ t m, label t = .ok m → m.target = t) :
    ReflTransGen Edit b (b.addLabelled s target label).2 ∧
      ∀ t, (b.addLabelled s target label).1 = .ok t → t < (b.addLabelled s target label).2.size := by
  obtain ⟨hedits, hlt, hle⟩ := edits_withTarget ht
  rw [addLabelled]
  cases hm : label (b.withTarget target).1 with
  | error fault => simpa [hm] using hedits
  | ok m =>
    have hadd : Edit (b.withTarget target).2 ((b.withTarget target).2.addMove s m) :=
      .addMove (Nat.lt_of_lt_of_le hs hle) (hlabel _ m hm ▸ hlt)
    simp only [hm]
    refine ⟨hedits.tail hadd, fun t htarget => ?_⟩
    cases htarget
    simpa using hlt

theorem edits_atomic (hs : s < b.size) (label : Value) {target : Option Nat}
    (ht : ∀ t ∈ target, t < b.size) :
    ReflTransGen Edit b (b.atomic s label target).2 ∧
      ∀ t, (b.atomic s label target).1 = .ok t → t < (b.atomic s label target).2.size := by
  refine edits_addLabelled hs ht fun t m hm => ?_
  obtain ⟨code, -, hm⟩ := Outcome.bind_eq_ok.1 hm
  cases hm
  rfl

theorem edits_charSet (hs : s < b.size) (intervals : Value) {target : Option Nat}
    (ht : ∀ t ∈ target, t < b.size) : ReflTransGen Edit b (b.charSet s intervals target).2 := by
  refine (edits_addLabelled hs ht fun t m hm => ?_).1
  obtain ⟨code, -, hm⟩ := Outcome.bind_eq_ok.1 hm
  cases hm
  rfl

theorem edits_literal (hs : s < b.size) (w : Text) : ReflTransGen Edit b (b.literal s w).2 := by
  induction w generalizing b s with
  | nil => exact .refl
  | cons c w ih =>
    have hadd : Edit b.newState (b.newState.addMove s (.atomic c.toNat b.size)) :=
      .addMove (by simp; omega) (by simp [Move.target])
    exact .head .newState (.head hadd (ih (by simp)))

theorem edits_chainFrom (hs : s < b.size) (labels : List Value) :
    ReflTransGen Edit b (b.chainFrom s labels).2 := by
  induction labels generalizing b s with
  | nil => exact .refl
  | cons label labels ih =>
    have hnone : ∀ t ∈ (none : Option Nat), t < b.size := nofun
    obtain ⟨hedits, hlt⟩ := edits_atomic hs label hnone
    rw [chainFrom]
    split
    · rename_i t b' hatomic
      rw [hatomic] at hedits hlt
      exact hedits.trans (ih (hlt t rfl))
    · rename_i fault b' hatomic
      rwa [hatomic] at hedits

theorem edits_perform {step : Step} (h : ∀ s ∈ step.mentions, s < b.size) (hbuild : step ≠ .build) :
    ReflTransGen Edit b (b.perform step).2 := by
  cases step with
  | newState => exact .single .newState
  | epsilon s t =>
    obtain ⟨hs, ht⟩ : s < b.size ∧ t < b.size := by simpa [Step.mentions] using h
    exact .single (.addMove hs ht)
  | foreign name s t =>
    obtain ⟨hs, ht⟩ : s < b.size ∧ t < b.size := by simpa [Step.mentions] using h
    exact .single (.addMove hs ht)
  | atomic s label target =>
    obtain ⟨hs, ht⟩ : s < b.size ∧ ∀ t ∈ target, t < b.size := by simpa [Step.mentions] using h
    exact (edits_atomic hs label ht).1
  | charSet s intervals target =>
    obtain ⟨hs, ht⟩ : s < b.size ∧ ∀ t ∈ target, t < b.size := by simpa [Step.mentions] using h
    exact edits_charSet hs intervals ht
  | literal s text => exact edits_literal (h s (by simp [Step.mentions])) text
  | chain s labels =>
    simp only [perform, chain]
    split
    · exact edits_chainFrom (h s (by simp [Step.mentions])) _
    · exact .refl
  | build => exact absurd rfl hbuild
  | length => exact .refl
  | lookup id => exact .refl

theorem edits_step (b : Builder) {step : Step} (hbuild : step ≠ .build) :
    ReflTransGen Edit b (b.step step).2 := by
  rw [Builder.step]
  split
  · rename_i hmentions
    exact edits_perform (by simpa using hmentions) hbuild
  · exact .refl

/-- The state at a position has the position as its identifier, and every move leads to a state of the
builder. -/
structure Orderly (b : Builder) : Prop where
  id_eq (s : Nat) (node : Node) : b.nodes[s]? = some node → node.id = s
  inside (s : Nat) : ∀ m ∈ b.automaton.moves s, m.target < b.size

theorem Orderly.edit (h : b.Orderly) (he : Edit b b') : b'.Orderly := by
  cases he with
  | newState =>
    constructor
    · intro s node hnode
      simp only [newState, Array.getElem?_push] at hnode
      split at hnode
      · rename_i hs
        cases hnode
        simp [hs, size]
      · exact h.id_eq s node hnode
    · intro s m hm
      rw [moves_newState] at hm
      rw [size_newState]
      exact Nat.lt_succ_of_lt (h.inside s m hm)
  | addMove ht htarget =>
    constructor
    · intro s node hnode
      simp only [addMove, Array.getElem?_modify] at hnode
      split at hnode
      · obtain ⟨old, hold, rfl⟩ := Option.map_eq_some_iff.1 hnode
        exact h.id_eq s old hold
      · exact h.id_eq s node hnode
    · intro s m hm
      rw [moves_addMove ht] at hm
      rw [size_addMove]
      split at hm
      · rcases List.mem_append.1 hm with hm | hm
        · exact h.inside s m hm
        · exact List.mem_singleton.1 hm ▸ htarget
      · exact h.inside s m hm

theorem Orderly.edits (h : b.Orderly) (he : ReflTransGen Edit b b') : b'.Orderly := by
  induction he with
  | refl => exact h
  | tail _ he ih => exact ih.edit he

theorem Orderly.step (h : b.Orderly) (step : Step) : (b.step step).2.Orderly := by
  by_cases hbuild : step = .build
  · subst hbuild
    exact ⟨h.id_eq, h.inside⟩
  · exact h.edits (b.edits_step hbuild)

theorem Orderly.run (h : b.Orderly) (steps : List Step) : (b.run steps).Orderly := by
  induction steps generalizing b with
  | nil => exact h
  | cons step steps ih => exact ih (h.step step)

/-- No state is lost and no move of a state; new moves stand behind the old ones. -/
structure Grows (b b' : Builder) : Prop where
  size_le : b.size ≤ b'.size
  moves (s : Nat) : b.automaton.moves s <+: b'.automaton.moves s

theorem Grows.refl (b : Builder) : b.Grows b := ⟨Nat.le_refl _, fun _ => List.prefix_rfl⟩

theorem Grows.trans {b'' : Builder} (h : b.Grows b') (h' : b'.Grows b'') : b.Grows b'' :=
  ⟨Nat.le_trans h.size_le h'.size_le, fun s => (h.moves s).trans (h'.moves s)⟩

theorem Grows.edit (he : Edit b b') : b.Grows b' := by
  cases he with
  | newState => exact ⟨by simp, fun s => ⟨[], by simp⟩⟩
  | addMove hs _ =>
    refine ⟨by simp, fun s => ?_⟩
    rw [moves_addMove hs]
    split
    · exact List.prefix_append _ _
    · exact List.prefix_rfl

theorem Grows.edits (he : ReflTransGen Edit b b') : b.Grows b' := by
  induction he with
  | refl => exact .refl b
  | tail _ he ih => exact ih.trans (.edit he)

theorem Grows.step (b : Builder) (step : Step) : b.Grows (b.step step).2 := by
  by_cases hbuild : step = .build
  · subst hbuild
    exact ⟨Nat.le_refl _, fun _ => List.prefix_rfl⟩
  · exact .edits (b.edits_step hbuild)

theorem Grows.run (b : Builder) (steps : List Step) : b.Grows (b.run steps) := by
  induction steps generalizing b with
  | nil => exact .refl b
  | cons step steps ih => exact (Grows.step b step).trans (ih _)

/-- The builder after some steps from the start. -/
def after (steps : List Step) : Builder := ({} : Builder).run steps

end Typeahead.Builder
