import Mathlib
import Typeahead.Proofs.Answer
import Typeahead.Proofs.Drain
import Typeahead.Proofs.Legality

/-!
Where nothing can fail. If every move of the character automaton is understood then every text can be
divided into tokens, and if moreover no label is too large for a character then every partly typed token
can be completed. If every move of the token automaton is understood as well, there are suggestions for
every text, be it an empty list of them.
-/
namespace Typeahead

variable {chars tokens : Automaton} {rules : List Rule} {initial : Option Nat} {text : Text}

/-! ### Scanning -/

namespace Automaton.Plain

theorem exists_consume (h : chars.Plain) (states : List Nat) (symbol : Int) :
    ∃ next, chars.consume states symbol = .ok next := by
  have hnone : (states.flatMap chars.moves).find? Move.isForeign = none := by
    rw [List.find?_eq_none]
    intro m hm
    obtain ⟨s, -, hm⟩ := List.mem_flatMap.1 hm
    simp [h s m hm]
  rw [consume, hnone]
  exact ⟨_, rfl⟩

theorem exists_matchFrom (h : chars.Plain) (current : List Nat) (consumed best : Nat) (text : Text) :
    ∃ n, chars.matchFrom current consumed best text = .ok n := by
  induction text generalizing current consumed best with
  | nil => exact ⟨best, rfl⟩
  | cons c rest ih =>
    rw [matchFrom]
    split
    · exact ⟨best, rfl⟩
    · obtain ⟨next, hnext⟩ := h.exists_consume current c.toNat
      rw [hnext]
      exact ih _ _ _

theorem exists_longestMatch (h : chars.Plain) (entry : Nat) (text : Text) :
    ∃ n, chars.longestMatch entry text = .ok n := h.exists_matchFrom _ 0 0 text

theorem exists_winner (h : chars.Plain) (rules : List Rule) (text : Text) :
    ∃ w, RuleScan.winner chars rules text = .ok w := by
  have hfound : ∃ found, rules.mapM (fun r => do
      return Match.ofLength? (← chars.longestMatch r.entry text) r) = .ok found := by
    apply Outcome.exists_mapM_eq_ok
    intro r _
    obtain ⟨n, hn⟩ := h.exists_longestMatch r.entry text
    rw [hn]
    exact ⟨_, rfl⟩
  obtain ⟨found, hfound⟩ := hfound
  rw [RuleScan.winner, hfound]
  exact ⟨_, rfl⟩

/-- Every text can be divided: each token leaves less to divide. -/
theorem exists_divides (h : chars.Plain) (rules : List Rule) (position : Nat) (text : Text) :
    ∃ ts rest, Divides chars rules position text ts rest := by
  induction hn : text.length using Nat.strongRecOn generalizing text position with
  | ind n ih =>
    by_cases hne : text = []
    · exact ⟨[], text, .stop (Or.inl hne)⟩
    · obtain ⟨w, hw⟩ := h.exists_winner rules text
      cases w with
      | none => exact ⟨[], text, .stop (Or.inr hw)⟩
      | some m =>
        obtain ⟨ts, rest, hd⟩ := ih _ (hn ▸ m.length_drop_lt hne) (position + m.length) _ rfl
        exact ⟨_, rest, .token hne hw hd⟩

theorem exists_tokenize (h : chars.Plain) {r : Recognizer}
    (hr : Recognizer.ofRules chars tokens rules initial = .ok r) (text : Text) :
    ∃ t, r.tokenize text = .ok t := by
  obtain ⟨ts, rest, hd⟩ := h.exists_divides rules 0 text
  exact ⟨⟨ts, rest⟩, (Recognizer.tokenize_eq_ok_iff hr).2 hd⟩

end Automaton.Plain

/-! ### Completion -/

namespace Completion

/-- Every move is understood, and no label is too large for a character. -/
def Readable (chars : Automaton) : Prop :=
  ∀ s, ∀ m ∈ chars.moves s, m.isForeign = false ∧ oversized? m = none

theorem readable_of_lt
    (h : ∀ s < chars.size, ∀ m ∈ chars.moves s, m.isForeign = false ∧ oversized? m = none) :
    Readable chars := by
  intro s m hm
  exact h s (Automaton.lt_size_of_mem_moves hm) m hm

namespace Readable

theorem plain (h : Readable chars) : chars.Plain := by
  intro s m hm
  exact (h s m hm).1

theorem exists_follow (h : Readable chars) (preference : Preference) (p : Point) {m : Move}
    (hm : m ∈ chars.moves p.state) :
    ∃ points, follow chars preference p m = .ok points := by
  obtain ⟨hforeign, hsize⟩ := h p.state m hm
  have hchars : characters m = .ok (m.symbols.filterMap charAt?) := by simp only [characters, hsize]
  cases m with
  | epsilon t => exact ⟨_, rfl⟩
  | atomic label t =>
    rw [follow, hchars]
    exact ⟨_, rfl⟩
  | set intervals t =>
    rw [follow]
    split
    · rw [hchars]
      exact ⟨_, rfl⟩
    · exact ⟨_, rfl⟩
  | foreign name t => simp [Move.isForeign] at hforeign

theorem exists_expand (h : Readable chars) (preference : Preference) (p : Point) :
    ∃ points, expand chars preference p = .ok points := by
  obtain ⟨lists, hl⟩ := Outcome.exists_mapM_eq_ok (f := follow chars preference p)
    fun m hm => h.exists_follow preference p hm
  rw [expand, hl]
  exact ⟨_, rfl⟩

theorem exists_enumerate (h : Readable chars) (preference : Preference) (path : List Nat)
    (points : List Point) :
    ∃ ws, enumerate chars preference path points = .ok ws := by
  fun_induction enumerate chars preference path points with
  | case1 path => exact ⟨[], rfl⟩
  | case2 path p points hp ih => exact ih
  | case3 path p points hp fault he =>
    obtain ⟨next, hnext⟩ := h.exists_expand preference p
    rw [hnext] at he
    cases he
  | case4 path p points hp next he ihin ihrest =>
    obtain ⟨inner, hin⟩ := ihin
    obtain ⟨others, ho⟩ := ihrest
    rw [hin, ho]
    exact ⟨_, rfl⟩

theorem exists_words {task : Task} (h : Readable task.chars) (kinds : List Int) :
    ∃ ws, words task kinds = .ok ws := by
  induction kinds with
  | nil => exact ⟨[], rfl⟩
  | cons kind kinds ih =>
    obtain ⟨others, ho⟩ := ih
    rw [words]
    split
    · exact ⟨others, ho⟩
    · rename_i entry _
      obtain ⟨first, hf⟩ := h.exists_enumerate task.preference [] [⟨entry, [], task.typed⟩]
      rw [hf, ho]
      exact ⟨_, rfl⟩

/-- Every partly typed token can be completed: each word of the kinds gives what is left of it to type,
once. -/
theorem exists_complete {task : Task} (h : Readable task.chars) (kinds : List Int) :
    ∃ ws, words task kinds = .ok ws ∧
      (complete task {} kinds).outcome = .ok (ws.map (tail task.typed)).eraseDups := by
  obtain ⟨ws, hws⟩ := h.exists_words kinds
  refine ⟨ws, hws, ?_⟩
  rw [outcome_complete_empty, hws]
  rfl

end Readable
end Completion

/-! ### Suggestions -/

namespace Suggester

variable {s : Suggester}

/-- Every text can be scanned, into tokens that have kinds, and nothing in either automaton stops a
traversal. -/
structure Faultless (s : Suggester) : Prop where
  scans : ∀ text, ∃ t, s.tokenize text = .ok t ∧ ∀ token ∈ t.tokens, ∃ k, token.kind = some k
  chars : Completion.Readable s.recognizer.chars
  tokens : s.recognizer.tokens.Plain

theorem faultless_ofRules (hr : Recognizer.ofRules chars tokens rules initial = .ok s.recognizer)
    (hc : Completion.Readable chars) (ht : tokens.Plain) : s.Faultless := by
  obtain ⟨hchars, htokens, -, -⟩ := Recognizer.of_ofRules_eq_ok hr
  refine ⟨fun text => ?_, hchars ▸ hc, htokens ▸ ht⟩
  obtain ⟨t, hscan⟩ := hc.plain.exists_tokenize hr text
  refine ⟨_, tokenize_of_recognizer hscan, fun token hmem => ?_⟩
  exact ((Recognizer.tokenize_eq_ok_iff hr).1 hscan).kind_isSome (mem_seen_iff.1 hmem).1

namespace Faultless

/-- Of every completion it can be decided whether it is valid: the token that it adds has a kind. -/
theorem decides (h : s.Faultless) (request : Request) (f : Nat) (c : Text) :
    s.Decides request f c := by
  obtain ⟨t, ht, hkinds⟩ := h.scans (request.text ++ c)
  refine ⟨_, by rw [addedToken, ht]; rfl, fun token htoken => ?_⟩
  simp only [Option.ite_none_right_eq_some] at htoken
  obtain ⟨k, hk⟩ := hkinds token (List.mem_of_getLast? htoken.2)
  rw [hk]
  exact (h.tokens.understood f).exists_accepts k

theorem exists_offers (h : s.Faultless) (request : Request) (f : Nat) :
    s.offers request f = .ok (s.offered request f) := by
  obtain ⟨kinds, hk⟩ := (h.tokens.understood f).exists_expected
  have hread : Completion.Readable (s.task request).chars := h.chars
  obtain ⟨ws, hws⟩ := hread.exists_words kinds
  have ho : s.offers request f = .ok ws := by
    simp only [offers, hk]
    exact hws
  rw [offered_of_offers ho, ho]

/-- There are suggestions for every text. -/
theorem exists_suggest (h : s.Faultless) (text : Text) :
    ∃ l, (s.suggest text).outcome = .ok l := by
  obtain ⟨t, ht, hkinds⟩ := h.scans text
  obtain ⟨w, hw⟩ := exists_kinds hkinds
  have hfault : (s.frontier t.tokens).fault = none := by
    rw [frontier, hw]
    exact Frontier.fault_eq_none_of_plain h.tokens w _
  have hanswer : s.Answerable text t :=
    ⟨hfault, fun f _ => h.exists_offers _ f, fun f _ w _ => h.decides _ f _⟩
  exact hanswer.exists_suggest ht

end Faultless
end Suggester
end Typeahead
