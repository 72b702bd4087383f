import Mathlib
import Typeahead.Proofs.Legality

/-!
Nothing is forgotten. If no state of the character automaton can be reached from itself, kinds belong to
one rule each, identifiers are unambiguous and no case is dropped, then whatever completes one more token
that may come next is suggested.
-/
namespace Typeahead

variable {chars tokens : Automaton} {rules : List Rule} {initial : Option Nat}

/-- Where a kind belongs to one rule, the entry of the kind is that of the rule. -/
theorem Recognizer.ruleEntry_of_nodup (hn : (rules.map (·.kind)).Nodup) {r : Rule} (hr : r ∈ rules) :
    ruleEntry rules r.kind = some r.entry := by
  induction rules with
  | nil => simp at hr
  | cons r' rules ih =>
    obtain ⟨hnew, hn⟩ := List.nodup_cons.1 hn
    rcases List.mem_cons.1 hr with rfl | hr
    · simp [ruleEntry]
    · have hne : r'.kind ≠ r.kind := by
        intro heq
        exact hnew (List.mem_map.2 ⟨r, hr, heq.symm⟩)
      rw [← ih hn hr]
      simp [ruleEntry, hne]

/-- One token that covers a text is a match of the rule whose kind it has. -/
theorem Divides.matches_of_singleton {position : Nat} {text : Text} {t : Token}
    (h : Divides chars rules position text [t] []) (ht : t.text = text) :
    text ≠ [] ∧ ∃ r ∈ rules, t.kind = some r.kind ∧ chars.Matches r.entry text := by
  generalize hts : [t] = ts at h
  cases h with
  | stop => simp at hts
  | @token _ _ _ m ts hne hw _ =>
    obtain ⟨rfl, -⟩ := List.cons.inj hts
    obtain ⟨hr, hlen⟩ := RuleScan.of_winner_eq_some hw
    refine ⟨hne, m.meaning, hr, rfl, ?_⟩
    have hm := (chars.longestMatch_longest hlen).matched m.positive
    rwa [show text.take m.length = text from ht] at hm

namespace Suggester

variable {s : Suggester} {text c : Text} {l : List Text} {before : Tokenization} {t : Token}

/-- A token that can be walked after those of the text is expected at a frontier state. -/
theorem exists_frontier_of_walks {w : List Int} {k : Int}
    (h : (s.suggest text).outcome = .ok l) (hb : s.recognizer.tokenize text = .ok before)
    (hw : (s.seen before).map (·.kind) = w.map some) (hk : t.kind = some k)
    (hwalk : s.recognizer.tokens.Walks s.recognizer.initial (s.seen before ++ [t])) :
    ∃ f ∈ (s.frontier (s.seen before)).search.found, s.recognizer.tokens.Expects f k := by
  obtain ⟨-, hfound, -⟩ := frontier_of_suggest h hb hw
  obtain ⟨v, q, hv, hq⟩ := hwalk
  have hvw : v = w ++ [k] := by
    apply (List.map_inj_right fun _ _ => Option.some.inj).1
    rw [← hv, List.map_append, hw, List.map_append]
    simp [hk]
  subst hvw
  obtain ⟨f, hf, hx⟩ := Automaton.path_append_singleton_iff.1 ⟨q, hq⟩
  exact ⟨f, (hfound f).2 hf, hx⟩

/-- What is offered at a frontier state is what the rules whose kinds are expected there spell, as far as
it agrees with what is typed. -/
theorem mem_offered_iff (hr : Recognizer.ofRules chars tokens rules initial = .ok s.recognizer)
    (hkinds : (rules.map (·.kind)).Nodup) (hd : s.recognizer.tokens.DistinctIds) {request : Request}
    {f : Nat} (ho : s.offers request f = .ok (s.offered request f)) {w : Text} :
    w ∈ s.offered request f ↔ w ≠ [] ∧ Completion.Agree request.rest w ∧
      ∃ r ∈ rules, s.recognizer.tokens.Expects f r.kind ∧
        Completion.Spells chars (.ofLabel s.label) [] r.entry w := by
  obtain ⟨kinds, hk, hwords⟩ := Outcome.bind_eq_ok.1 ho
  obtain ⟨hchars, -, hentry, -⟩ := Recognizer.of_ofRules_eq_ok hr
  rw [Completion.mem_words_iff hwords]
  simp only [task, hchars, hentry, Automaton.mem_expected_iff hd hk]
  refine and_congr_right fun _ => and_congr_right fun _ => ?_
  constructor
  · rintro ⟨kind, hx, entry, he, hspells⟩
    obtain ⟨r, hfind, rfl⟩ := Option.map_eq_some_iff.1 he
    obtain rfl : r.kind = kind := by simpa using List.find?_some hfind
    exact ⟨r, List.mem_of_find?_eq_some hfind, hx, hspells⟩
  · rintro ⟨r, hrule, hx, hspells⟩
    exact ⟨r.kind, hx, r.entry, Recognizer.ruleEntry_of_nodup hkinds hrule, hspells⟩

/-- Whatever is completed by a rule whose kind is expected at a frontier state is offered there. -/
theorem mem_offered (hr : Recognizer.ofRules chars tokens rules initial = .ok s.recognizer)
    (hkinds : (rules.map (·.kind)).Nodup) (hloop : ∀ r ∈ rules, chars.LoopFree r.entry)
    (hd : s.recognizer.tokens.DistinctIds) (hp : Preference.ofLabel s.label = .both)
    {request : Request} {f : Nat} (ho : s.offers request f = .ok (s.offered request f)) {r : Rule}
    (hrule : r ∈ rules) (hx : s.recognizer.tokens.Expects f r.kind) {w : Text} (hne : w ≠ [])
    (hpre : request.rest <+: w) (hm : chars.Matches r.entry w) : w ∈ s.offered request f := by
  refine (mem_offered_iff hr hkinds hd ho).2 ⟨hne, Or.inl hpre, r, hrule, hx, ?_⟩
  rw [hp]
  exact Completion.spells_of_matches (hloop r hrule) hm fun _ _ => List.not_mem_nil

/-- Whatever completes one more token that may come next is suggested. -/
theorem next_token_suggested
    (hr : Recognizer.ofRules chars tokens rules initial = .ok s.recognizer)
    (hkinds : (rules.map (·.kind)).Nodup) (hloop : ∀ r ∈ rules, chars.LoopFree r.entry)
    (hd : tokens.DistinctIds) (hp : Preference.ofLabel s.label = .both)
    (h : (s.suggest text).outcome = .ok l) (hb : s.recognizer.tokenize text = .ok before)
    (ha : s.recognizer.tokenize (text ++ c) = .ok ⟨before.tokens ++ [t], []⟩)
    (hch : t.channel = s.settings.channel) (htext : t.text = before.rest ++ c)
    (hwalk : tokens.Walks s.recognizer.initial (s.seen before ++ [t])) : c ∈ l := by
  obtain ⟨-, htokens, -, -⟩ := Recognizer.of_ofRules_eq_ok hr
  rw [← htokens] at hd hwalk
  -- The new token is a match of the rule that it has its kind from.
  obtain ⟨us, position, hus, hdiv⟩ := ((Recognizer.tokenize_eq_ok_iff hr).1 hb).append
    ((Recognizer.tokenize_eq_ok_iff hr).1 ha) (List.prefix_append _ _)
  obtain rfl := List.append_cancel_left hus
  obtain ⟨hne, r, hrule, hk, hm⟩ := hdiv.matches_of_singleton htext
  -- Its kind is expected at a frontier state, where it is offered.
  obtain ⟨w, hw⟩ := exists_kinds_seen hr hb
  obtain ⟨f, hf, hx⟩ := exists_frontier_of_walks h hb hw hk hwalk
  have ht := tokenize_of_recognizer hb
  obtain ⟨-, hoffers, -⟩ := suggest_of_tokenize ht h
  have hoffered := mem_offered hr hkinds hloop hd hp (hoffers f hf) hrule hx hne
    (List.prefix_append _ _) hm
  -- What remains is that it is admitted.
  refine (mem_suggest_iff ht h).2 ⟨f, hf, _, hoffered, by simp [Completion.tail], ?_⟩
  obtain ⟨-, -, hunderstood⟩ := frontier_of_suggest h hb hw
  refine admits_iff.2 ⟨t, addedToken_eq_some_iff.2 ⟨_, ha, ?_, ?_⟩, ?_⟩
  · simp [Request.of, seen, Tokenization.onChannel, hch]
  · simp [seen, Tokenization.onChannel, hch]
  · rw [hk]
    exact (Automaton.accepts_eq_true_iff hd (hunderstood hd f hf)).2 hx

theorem c_suggested_after_a :
    ∃ l, (regrouping.suggest ['a']).outcome = .ok l ∧ (['c'] : Text) ∈ l := by
  refine ⟨_, suggest_regrouping, next_token_suggested (ofRules_plain (by simp) (by decide))
    (by decide) ?_ ?_ rfl suggest_regrouping regrouping_scans_a regrouping_scans_ac rfl rfl ?_⟩
  · exact fun r _ => Automaton.loopFree_of_lt (by decide) r.entry
  · exact Automaton.distinctIds_of_closed (by decide) (by decide)
  · refine ⟨[1, 3], 2, rfl, ?_⟩
    exact .symbol (m := .atomic 1 1) (by decide) rfl
      (.symbol (m := .atomic 3 2) (by decide) rfl (.refl 2))

end Suggester
end Typeahead
