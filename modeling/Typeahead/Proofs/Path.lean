import Mathlib.Logic.Relation
import Typeahead.Automaton
import Typeahead.Token

/-!
Paths of an automaton and the words they spell. An epsilon move spells nothing, every other move
spells one symbol that it consumes, and a move that no traversal understands is on no path.
-/
namespace Typeahead.Automaton

variable {a : Automaton} {s t u : Nat} {v w : List Int} {x k : Int}

inductive Path (a : Automaton) : Nat → List Int → Nat → Prop where
  | refl (s : Nat) : Path a s [] s
  | silent {s t u : Nat} {w : List Int} (hm : .epsilon t ∈ a.moves s) (h : Path a t w u) :
      Path a s w u
  | symbol {s u : Nat} {m : Move} {x : Int} {w : List Int} (hm : m ∈ a.moves s)
      (hx : m.accepts x = true) (h : Path a m.target w u) : Path a s (x :: w) u

/-- A path that stops as soon as the last symbol is consumed. -/
inductive Arrives (a : Automaton) : Nat → List Int → Nat → Prop where
  | start (s : Nat) : Arrives a s [] s
  | consume {s t : Nat} {w : List Int} {m : Move} {x : Int} (h : a.Path s w t)
      (hm : m ∈ a.moves t) (hx : m.accepts x = true) : Arrives a s (w ++ [x]) m.target

/-- A token of kind `k` may come next from `s`. -/
def Expects (a : Automaton) (s : Nat) (k : Int) : Prop :=
  ∃ t, a.Path s [] t ∧ ∃ m ∈ a.moves t, m.accepts k = true

/-- Every move that can be met from `s` without consuming anything is understood. -/
def Understood (a : Automaton) (s : Nat) : Prop :=
  ∀ t, a.Path s [] t → ∀ m ∈ a.moves t, m.isForeign = false

/-- Every move is understood. -/
def Plain (a : Automaton) : Prop := ∀ s, ∀ m ∈ a.moves s, m.isForeign = false

/-- The kinds of the tokens are spelled by a path from `s`. -/
def Walks (a : Automaton) (s : Nat) (tokens : List Token) : Prop :=
  ∃ w t, tokens.map (·.kind) = w.map some ∧ a.Path s w t

/-- Some move of `s` leads to `t`. -/
def Leads (a : Automaton) (s t : Nat) : Prop := ∃ m ∈ a.moves s, m.target = t

/-- No state that can be reached from `s` can be reached from itself again. -/
def LoopFree (a : Automaton) (s : Nat) : Prop :=
  ∀ t, Relation.ReflTransGen a.Leads s t → ¬ Relation.TransGen a.Leads t t

/-- The positions of an automaton and whatever its moves lead to. -/
def IsState (a : Automaton) (s : Nat) : Prop := s < a.size ∨ ∃ t, a.Leads t s

/-- Different states have different identifiers. -/
def DistinctIds (a : Automaton) : Prop :=
  ∀ s t, a.IsState s → a.IsState t → a.id s = a.id t → s = t

theorem distinctIds_of_closed (hc : ∀ s < a.size, ∀ m ∈ a.moves s, m.target < a.size)
    (hid : ∀ s < a.size, ∀ t < a.size, a.id s = a.id t → s = t) : a.DistinctIds := by
  have hlt : ∀ s, a.IsState s → s < a.size := by
    rintro s (hs | ⟨t, m, hm, rfl⟩)
    · exact hs
    · exact hc t (lt_size_of_mem_moves hm) m hm
  intro s t hs ht
  exact hid s (hlt s hs) t (hlt t ht)

theorem plain_of_lt (h : ∀ s < a.size, ∀ m ∈ a.moves s, m.isForeign = false) : a.Plain := by
  intro s m hm
  exact h s (lt_size_of_mem_moves hm) m hm

theorem Plain.understood (h : a.Plain) (s : Nat) : a.Understood s := by
  intro t _
  exact h t

/-- Moves that only lead upwards make no loops. -/
theorem loopFree_of_lt (h : ∀ s < a.size, ∀ m ∈ a.moves s, s < m.target) (s : Nat) :
    a.LoopFree s := by
  have hlt : ∀ {t u}, Relation.TransGen a.Leads t u → t < u := by
    have hstep : ∀ {t u}, a.Leads t u → t < u := by
      rintro t u ⟨m, hm, rfl⟩
      exact h t (lt_size_of_mem_moves hm) m hm
    intro t u htu
    induction htu with
    | single h => exact hstep h
    | tail _ h ih => exact Nat.lt_trans ih (hstep h)
  exact fun t _ ht => Nat.lt_irrefl t (hlt ht)

theorem isState_target {m : Move} (hm : m ∈ a.moves s) : a.IsState m.target :=
  Or.inr ⟨s, m, hm, rfl⟩

namespace Path

theorem append (h : a.Path s v t) (h' : a.Path t w u) : a.Path s (v ++ w) u := by
  induction h with
  | refl => exact h'
  | silent hm _ ih => exact .silent hm (ih h')
  | symbol hm hx _ ih => exact .symbol hm hx (ih h')

/-- A path can be cut wherever its word can be. -/
theorem split (h : a.Path s (v ++ w) u) : ∃ t, a.Path s v t ∧ a.Path t w u := by
  generalize hvw : v ++ w = l at h
  induction h generalizing v with
  | refl s =>
    obtain ⟨rfl, rfl⟩ := List.append_eq_nil_iff.1 hvw
    exact ⟨s, .refl s, .refl s⟩
  | silent hm _ ih =>
    obtain ⟨t, h₁, h₂⟩ := ih hvw
    exact ⟨t, .silent hm h₁, h₂⟩
  | @symbol s u m x l hm hx h ih =>
    cases v with
    | nil =>
      subst hvw
      exact ⟨s, .refl s, .symbol hm hx h⟩
    | cons y v =>
      injection hvw with hy hvw
      subst hy
      obtain ⟨t, h₁, h₂⟩ := ih hvw
      exact ⟨t, .symbol hm hx h₁, h₂⟩

/-- What epsilon moves pass on holds all along a path that spells nothing. -/
theorem pass_on {P : Nat → Prop} (h : a.Path s [] t) (hs : P s)
    (hstep : ∀ q r, .epsilon r ∈ a.moves q → P q → P r) : P t := by
  generalize hw : ([] : List Int) = w at h
  induction h with
  | refl => exact hs
  | silent hm _ ih => exact ih (hstep _ _ hm hs) hw
  | symbol => simp at hw

/-- Before its first symbol a path makes epsilon moves only. -/
theorem uncons (h : a.Path s (x :: w) u) :
    ∃ t m, a.Path s [] t ∧ m ∈ a.moves t ∧ m.accepts x = true ∧ a.Path m.target w u := by
  generalize hl : x :: w = l at h
  induction h with
  | refl => simp at hl
  | silent hm _ ih =>
    obtain ⟨t, m, ht, hrest⟩ := ih hl
    exact ⟨t, m, .silent hm ht, hrest⟩
  | @symbol s _ m _ _ hm hx h _ =>
    injection hl with hy hw
    subst hy hw
    exact ⟨s, m, .refl s, hm, hx, h⟩

/-- A path is one that spells all but the last symbol, a move that consumes it, and epsilon moves. -/
theorem concat_iff : a.Path s (w ++ [x]) u ↔
    ∃ t, a.Path s w t ∧ ∃ m ∈ a.moves t, m.accepts x = true ∧ a.Path m.target [] u := by
  constructor
  · intro h
    obtain ⟨q, hq, hqu⟩ := h.split
    obtain ⟨t, m, hqt, hm, hx, hmu⟩ := hqu.uncons
    exact ⟨t, by simpa using hq.append hqt, m, hm, hx, hmu⟩
  · rintro ⟨t, ht, m, hm, hx, hu⟩
    exact ht.append (.symbol hm hx hu)

theorem expects (h : a.Path s (x :: w) u) : a.Expects s x := by
  obtain ⟨t, m, ht, hm, hx, -⟩ := h.uncons
  exact ⟨t, ht, m, hm, hx⟩

end Path

theorem Arrives.path (h : a.Arrives s w t) : a.Path s w t := by
  cases h with
  | start => exact .refl s
  | consume h hm hx => exact h.append (.symbol hm hx (.refl _))

/-- After its last symbol a path makes epsilon moves only. -/
theorem Path.arrives (h : a.Path s w t) : ∃ u, a.Arrives s w u ∧ a.Path u [] t := by
  -- The part of the path already followed is carried along, as a path that has just consumed.
  suffices hp : ∀ q v r, a.Arrives q v r → a.Path r [] s →
      ∃ u, a.Arrives q (v ++ w) u ∧ a.Path u [] t from hp s [] s (.start s) (.refl s)
  induction h with
  | refl s =>
    intro q v r hr hs
    exact ⟨r, by simpa using hr, hs⟩
  | silent hm _ ih =>
    intro q v r hr hs
    exact ih q v r hr (hs.append (.silent hm (.refl _)))
  | @symbol s u m x w hm hx _ ih =>
    intro q v r hr hs
    have hq : a.Path q v s := by simpa using hr.path.append hs
    simpa using ih q (v ++ [x]) m.target (.consume hq hm hx) (.refl _)

/-- A kind is spelled after a word exactly if some state where the word arrives expects it. -/
theorem path_append_singleton_iff :
    (∃ t, a.Path s (w ++ [k]) t) ↔ ∃ f, a.Arrives s w f ∧ a.Expects f k := by
  constructor
  · rintro ⟨t, h⟩
    obtain ⟨q, hq, hk⟩ := h.split
    obtain ⟨f, hf, hfq⟩ := hq.arrives
    obtain ⟨r, hr, m, hm, hx⟩ := hk.expects
    exact ⟨f, hf, r, by simpa using hfq.append hr, m, hm, hx⟩
  · rintro ⟨f, hf, q, hq, m, hm, hx⟩
    exact ⟨m.target, hf.path.append (by simpa using hq.append (.symbol hm hx (.refl _)))⟩

end Typeahead.Automaton
