import Mathlib
import Typeahead.Proofs.Totality

/-!
Completions against the scanner. What is completed from the entry of a rule, put after what is typed, is
what the rule matches to its end, wherever in a text it stands. If the character automaton has no loops
and no case is dropped, nothing that the rule matches to its end is missing among the completions.
-/
namespace Typeahead

/-- The position at which the longest match from `position` on ends; `position` if there is none. -/
def Automaton.matchEnd (a : Automaton) (text : Text) (entry position : Nat) : Except Fault Nat :=
  (a.longestMatch entry (text.drop position)).map (position + ·)

namespace Automaton

variable {a : Automaton} {entry : Nat} {text : Text}

theorem matches_of_matchEnd {before : Text} (ht : text ≠ [])
    (h : a.matchEnd (before ++ text) entry before.length = .ok (before.length + text.length)) :
    a.Matches entry text := by
  rw [matchEnd, List.drop_left] at h
  obtain ⟨n, hn, hlen⟩ := Outcome.map_eq_ok.1 h
  exact (eq_length_iff_matches hn ht).1 (by omega)

theorem Plain.matchEnd_of_matches (hp : a.Plain) (ht : text ≠ []) (hm : a.Matches entry text)
    (before : Text) :
    a.matchEnd (before ++ text) entry before.length = .ok (before.length + text.length) := by
  obtain ⟨n, hn⟩ := hp.exists_longestMatch entry text
  rw [matchEnd, List.drop_left, hn, (eq_length_iff_matches hn ht).2 hm]
  rfl

end Automaton

namespace Completion

variable {task : Task} {kinds : List Int} {found : List Text} {entry : Nat} {v : Text}

/-- The completions of some kinds, the empty one apart, are what is spelled from their entries after what
is typed. -/
theorem mem_complete_iff (h : (complete task {} kinds).outcome = .ok found) (hne : v ≠ []) :
    v ∈ found ↔ ∃ kind ∈ kinds, ∃ entry, task.entry kind = some entry ∧
      Spells task.chars task.preference [] entry (task.typed ++ v) := by
  rw [outcome_complete_empty] at h
  obtain ⟨ws, hws, rfl⟩ := Outcome.map_eq_ok.1 h
  rw [List.mem_eraseDups, List.mem_map]
  constructor
  · rintro ⟨w, hw, rfl⟩
    obtain ⟨-, hagree, hspells⟩ := (mem_words_iff hws).1 hw
    rwa [hagree.eq_append hne] at hspells
  · intro hspells
    refine ⟨task.typed ++ v, (mem_words_iff hws).2 ⟨?_, ?_, hspells⟩, tail_append _ _⟩
    · simp [hne]
    · exact Or.inl (List.prefix_append _ _)

/-- If every move is understood, a completion is matched to its end from the entry it comes from; without
loops and without a case that is dropped, whatever is matched to its end is a completion. -/
theorem completions_match_to_end {kind : Int} (he : task.entry kind = some entry)
    (h : (complete task {} [kind]).outcome = .ok found) (before : Text) (hne : v ≠ []) :
    (task.chars.Plain → v ∈ found →
      task.chars.matchEnd (before ++ task.typed ++ v) entry before.length =
        .ok (before.length + task.typed.length + v.length)) ∧
    (task.chars.LoopFree entry → task.preference = .both →
      task.chars.matchEnd (before ++ task.typed ++ v) entry before.length =
        .ok (before.length + task.typed.length + v.length) → v ∈ found) := by
  have hmem : v ∈ found ↔ Spells task.chars task.preference [] entry (task.typed ++ v) := by
    rw [mem_complete_iff h hne]
    simp [he]
  have htext : task.typed ++ v ≠ [] := by simp [hne]
  rw [List.append_assoc, Nat.add_assoc, ← List.length_append]
  constructor
  · intro hp hv
    exact hp.matchEnd_of_matches htext (hmem.1 hv).matches before
  · intro hl hboth hend
    rw [hmem, hboth]
    exact spells_of_matches hl (Automaton.matches_of_matchEnd htext hend) fun _ _ => List.not_mem_nil

/-- The task of completing `a` to `ab` or `ac`. -/
def branching : Task where
  chars := ⟨#[⟨0, [.epsilon 1]⟩, ⟨1, [.atomic 97 2]⟩, ⟨2, [.set [⟨98, 100⟩] 3]⟩, ⟨3, []⟩]⟩
  entry := fun kind => if kind = 1 then some 0 else none
  typed := ['a']
  preference := .both

theorem branching_matches_to_end :
    branching.chars.matchEnd ['z', 'a', 'c'] 0 1 = .ok 3 ∧
      ∃ found, (complete branching {} [1]).outcome = .ok found ∧ (['b'] : Text) ∈ found := by
  have hfound : (complete branching {} [1]).outcome = .ok [['b'], ['c']] := by
    cbv
  have hp : branching.chars.Plain := Automaton.plain_of_lt (by decide)
  have hend : branching.chars.matchEnd ['z', 'a', 'b'] 0 1 = .ok 3 := by
    cbv
  have hl : branching.chars.LoopFree 0 := Automaton.loopFree_of_lt (by decide) 0
  refine ⟨(completions_match_to_end rfl hfound ['z'] (v := ['c']) (by simp)).1 hp (by simp),
    _, hfound, ?_⟩
  exact (completions_match_to_end rfl hfound ['z'] (v := ['b']) (by simp)).2 hl rfl hend

end Completion
end Typeahead
