import Mathlib
import Typeahead.Proofs.Admission
import Typeahead.Proofs.Division
import Typeahead.Proofs.Expected
import Typeahead.Proofs.Frontier
import Typeahead.Proofs.Words

/-!
What a suggestion promises. Scanning the text with a suggestion added gives more tokens than before, and
the last of them may follow the tokens of the text. That the text may be divided anew is left open; if
it is not, the suggestion completes exactly one token, and what results can be walked.
-/
namespace Typeahead

variable {chars tokens : Automaton} {rules : List Rule} {initial : Option Nat}

theorem Divides.kind_isSome {position : Nat} {text rest : Text} {ts : List Token}
    (h : Divides chars rules position text ts rest) {t : Token} (ht : t ∈ ts) :
    ∃ k, t.kind = some k := by
  induction h with
  | stop => simp at ht
  | token _ _ _ ih =>
    rcases List.mem_cons.1 ht with rfl | ht
    · exact ⟨_, rfl⟩
    · exact ih ht

/-- Tokens that all have a kind have a list of kinds. -/
theorem exists_kinds {ts : List Token} (h : ∀ t ∈ ts, ∃ k, t.kind = some k) :
    ∃ w : List Int, ts.map (·.kind) = w.map some := by
  induction ts with
  | nil => exact ⟨[], rfl⟩
  | cons t ts ih =>
    obtain ⟨k, hk⟩ := h t List.mem_cons_self
    obtain ⟨w, hw⟩ := ih fun u hu => h u (List.mem_cons_of_mem t hu)
    exact ⟨k :: w, by rw [List.map_cons, List.map_cons, hk, hw]⟩

@[simp] theorem Tokenization.rest_onChannel {ch : Int} {t : Tokenization} :
    (t.onChannel ch).rest = t.rest := rfl

namespace Suggester

variable {s : Suggester} {text c : Text} {l : List Text} {before after : Tokenization}

theorem tokenize_eq_ok_iff {t : Tokenization} : s.tokenize text = .ok t ↔
    ∃ t', s.recognizer.tokenize text = .ok t' ∧ t'.onChannel s.settings.channel = t :=
  Outcome.map_eq_ok

theorem tokenize_of_recognizer (h : s.recognizer.tokenize text = .ok before) :
    s.tokenize text = .ok (before.onChannel s.settings.channel) :=
  tokenize_eq_ok_iff.2 ⟨before, h, rfl⟩

/-- The tokens of a division that the token automaton sees. -/
def seen (s : Suggester) (t : Tokenization) : List Token := (t.onChannel s.settings.channel).tokens

theorem mem_seen_iff {t : Tokenization} {token : Token} :
    token ∈ s.seen t ↔ token ∈ t.tokens ∧ token.channel = s.settings.channel := by
  simp [seen, Tokenization.onChannel]

/-- The tokens that are seen of a text divided by rules have kinds. -/
theorem exists_kinds_seen (hr : Recognizer.ofRules chars tokens rules initial = .ok s.recognizer)
    (h : s.recognizer.tokenize text = .ok before) :
    ∃ w : List Int, (s.seen before).map (·.kind) = w.map some := by
  have hd := (Recognizer.tokenize_eq_ok_iff hr).1 h
  exact exists_kinds fun t ht => hd.kind_isSome (mem_seen_iff.1 ht).1

/-! ### The scan of a suggestion -/

/-- More tokens are seen of a text with `c` added than of the text, and the last one is of a kind that is
accepted at a frontier state of the text. -/
structure Grows (s : Suggester) (text c : Text) (before after : Tokenization) (last : Token)
    (f : Nat) : Prop where
  scanned : s.recognizer.tokenize text = .ok before
  rescanned : s.recognizer.tokenize (text ++ c) = .ok after
  more : (s.seen before).length < (s.seen after).length
  isLast : (s.seen after).getLast? = some last
  found : f ∈ (s.frontier (s.seen before)).search.found
  accepted : s.recognizer.tokens.accepts f last.kind = .ok true

theorem addedToken_eq_some_iff {request : Request} {token : Token} :
    s.addedToken request c = .ok (some token) ↔
      ∃ t, s.recognizer.tokenize (request.text ++ c) = .ok t ∧
        request.tokens.length < (s.seen t).length ∧ (s.seen t).getLast? = some token := by
  simp only [addedToken, Outcome.bind_eq_ok, tokenize_eq_ok_iff, pure, Except.pure,
    Except.ok.injEq, Option.ite_none_right_eq_some]
  constructor
  · rintro ⟨_, ⟨t, ht, rfl⟩, hlt, hlast⟩
    exact ⟨t, ht, hlt, hlast⟩
  · rintro ⟨t, ht, hlt, hlast⟩
    exact ⟨_, ⟨t, ht, rfl⟩, hlt, hlast⟩

/-- Every suggestion makes the tokens grow. -/
theorem grows_of_mem_suggest (h : (s.suggest text).outcome = .ok l) (hc : c ∈ l) :
    ∃ before after last f, s.Grows text c before after last f := by
  obtain ⟨t, ht, -⟩ := suggest_eq_ok h
  obtain ⟨before, hb, rfl⟩ := tokenize_eq_ok_iff.1 ht
  obtain ⟨f, hf, -, -, -, ha⟩ := (mem_suggest_iff ht h).1 hc
  obtain ⟨last, hadd, hacc⟩ := admits_iff.1 ha
  obtain ⟨after, hafter, hlt, hlast⟩ := addedToken_eq_some_iff.1 hadd
  exact ⟨before, after, last, f, hb, hafter, hlt, hlast, hf, hacc⟩

/-- Adding nothing adds no token. -/
theorem Grows.ne_nil {last : Token} {f : Nat} (h : s.Grows text c before after last f) :
    c ≠ [] := by
  rintro rfl
  have hafter := h.rescanned
  rw [List.append_nil, h.scanned] at hafter
  injection hafter with hafter
  exact absurd h.more (by simp [hafter])

/-! ### The walk of a suggestion -/

/-- The search over the kinds of some tokens ends well and finds a state. -/
def Yields (s : Suggester) (ts : List Token) : Prop :=
  (s.frontier ts).fault = none ∧ (s.frontier ts).search.found ≠ []

/-- The kinds of the tokens are spelled by a path, and the search over them ends well and finds a state.
It may fail only on a move that is not understood, and only if different states have one identifier. -/
def Walkable (s : Suggester) (ts : List Token) : Prop :=
  s.recognizer.tokens.Walks s.recognizer.initial ts ∧
    (s.Yields ts ∨ (s.frontier ts).fault ≠ none ∧ ¬ s.recognizer.tokens.DistinctIds)

/-- What is known of the frontier states of a text with suggestions. -/
theorem frontier_of_suggest (h : (s.suggest text).outcome = .ok l)
    (hb : s.recognizer.tokenize text = .ok before) {w : List Int}
    (hw : (s.seen before).map (·.kind) = w.map some) :
    (s.frontier (s.seen before)).fault = none ∧
      (∀ f, f ∈ (s.frontier (s.seen before)).search.found ↔
        s.recognizer.tokens.Arrives s.recognizer.initial w f) ∧
      (s.recognizer.tokens.DistinctIds → ∀ f,
        f ∈ (s.frontier (s.seen before)).search.found → s.recognizer.tokens.Understood f) := by
  obtain ⟨hnone, hoffers, -⟩ := suggest_of_tokenize (tokenize_of_recognizer hb) h
  refine ⟨hnone, fun f => ?_, fun hd f hf => ?_⟩
  · simp only [frontier, seen] at hw hnone ⊢
    rw [hw] at hnone ⊢
    exact Frontier.mem_found_iff hnone
  · obtain ⟨kinds, hk, -⟩ := Outcome.bind_eq_ok.1 (hoffers f hf)
    exact Automaton.understood_of_expected hd hk

/-- The tokens of a text can be followed by a token of a kind that is accepted at a frontier state. -/
theorem Grows.walkable (hr : Recognizer.ofRules chars tokens rules initial = .ok s.recognizer)
    (h : (s.suggest text).outcome = .ok l) {last : Token} {f : Nat}
    (hg : s.Grows text c before after last f) :
    s.Walkable (s.seen before ++ [last]) := by
  obtain ⟨w, hw⟩ := exists_kinds_seen hr hg.scanned
  obtain ⟨k, hk⟩ := ((Recognizer.tokenize_eq_ok_iff hr).1 hg.rescanned).kind_isSome
    (mem_seen_iff.1 (List.mem_of_getLast? hg.isLast)).1
  have hkinds : (s.seen before ++ [last]).map (·.kind) = (w ++ [k]).map some := by
    rw [List.map_append, hw, List.map_append]
    simp [hk]
  obtain ⟨hnone, hfound, hunderstood⟩ := frontier_of_suggest h hg.scanned hw
  have hacc := hg.accepted
  rw [hk] at hacc
  obtain ⟨q, hq⟩ := Automaton.path_append_singleton_iff.2
    ⟨f, (hfound f).1 hg.found, Automaton.expects_of_accepts hacc⟩
  refine ⟨⟨w ++ [k], q, hkinds, hq⟩, ?_⟩
  by_cases hfault : (s.frontier (s.seen before ++ [last])).fault = none
  · refine Or.inl ⟨hfault, ?_⟩
    simp only [frontier, hkinds] at hfault ⊢
    exact Frontier.found_ne_nil hfault hq
  · refine Or.inr ⟨hfault, fun hd => hfault ?_⟩
    simp only [frontier, hkinds, hw] at hnone ⊢
    exact Frontier.fault_append_singleton hnone fun q hq => hunderstood hd q ((hfound q).2 hq)

/-! ### Where the tokens of the text stay -/

/-- What is typed with a suggestion is matched by one of the rules. -/
theorem matches_of_mem_suggest
    (hr : Recognizer.ofRules chars tokens rules initial = .ok s.recognizer)
    (h : (s.suggest text).outcome = .ok l) (hb : s.recognizer.tokenize text = .ok before)
    (hc : c ∈ l) (hne : c ≠ []) : ∃ r ∈ rules, chars.Matches r.entry (before.rest ++ c) := by
  have ht := tokenize_of_recognizer hb
  obtain ⟨f, hf, w, hw, htail, -⟩ := (mem_suggest_iff ht h).1 hc
  obtain ⟨-, hoffers, -⟩ := suggest_of_tokenize ht h
  obtain ⟨kinds, -, hwords⟩ := Outcome.bind_eq_ok.1 (hoffers f hf)
  obtain ⟨-, hagree, kind, -, entry, hentry, hspells⟩ := (Completion.mem_words_iff hwords).1 hw
  obtain ⟨hchars, -, hruleEntry, -⟩ := Recognizer.of_ofRules_eq_ok hr
  have hw' : w = before.rest ++ c := by
    subst htail
    exact hagree.eq_append hne
  simp only [task, hruleEntry, Recognizer.ruleEntry, Option.map_eq_some_iff] at hentry
  obtain ⟨r, hfind, rfl⟩ := hentry
  refine ⟨r, List.mem_of_find?_eq_some hfind, ?_⟩
  rw [← hw', ← hchars]
  exact hspells.matches

/-- A suggestion that leaves the tokens of the text as they are completes one token more. -/
theorem Grows.eq_append (hr : Recognizer.ofRules chars tokens rules initial = .ok s.recognizer)
    (h : (s.suggest text).outcome = .ok l) (hc : c ∈ l) {last : Token} {f : Nat}
    (hg : s.Grows text c before after last f) (hpre : before.tokens <+: after.tokens) :
    after.tokens = before.tokens ++ [last] ∧ last.channel = s.settings.channel ∧
      last.text = before.rest ++ c ∧ after.rest = [] ∧ s.seen after = s.seen before ++ [last] := by
  obtain ⟨r, hrule, hm⟩ := matches_of_mem_suggest hr h hg.scanned hc hg.ne_nil
  obtain ⟨us, position, htokens, hdiv⟩ := ((Recognizer.tokenize_eq_ok_iff hr).1 hg.scanned).append
    ((Recognizer.tokenize_eq_ok_iff hr).1 hg.rescanned) hpre
  obtain ⟨t, rfl, htext, hrest⟩ := hdiv.eq_singleton hrule (by simp [hg.ne_nil]) hm
  have hseen : s.seen after = s.seen before ++ [t].filter (·.channel == s.settings.channel) := by
    simp [seen, Tokenization.onChannel, htokens]
  -- The token is seen, since more tokens are.
  have hch : t.channel = s.settings.channel := by
    have hmore := hg.more
    rw [hseen] at hmore
    by_cases hch : t.channel = s.settings.channel
    · exact hch
    · simp [hch] at hmore
  simp only [hch, beq_self_eq_true, List.filter_cons_of_pos, List.filter_nil] at hseen
  have hlast := hg.isLast
  rw [hseen, List.getLast?_append] at hlast
  obtain rfl : t = last := by simpa using hlast
  exact ⟨htokens, hch, htext, hrest, hseen⟩

/-- Rules for `a`, `ab`, `c`, `bc` and `bcd`, of which `c`, `bc` and `bcd` may come after `a`. -/
def regrouping : Suggester :=
  plain
    ⟨#[⟨0, [.atomic 97 1]⟩, ⟨1, []⟩, ⟨2, [.atomic 97 3]⟩, ⟨3, [.atomic 98 4]⟩, ⟨4, []⟩,
      ⟨5, [.atomic 99 6]⟩, ⟨6, []⟩, ⟨7, [.atomic 98 8]⟩, ⟨8, [.atomic 99 9]⟩, ⟨9, []⟩,
      ⟨10, [.atomic 98 11]⟩, ⟨11, [.atomic 99 12]⟩, ⟨12, [.atomic 100 13]⟩, ⟨13, []⟩]⟩
    ⟨#[⟨0, [.atomic 1 1]⟩, ⟨1, [.atomic 3 2, .atomic 4 2, .atomic 5 2]⟩, ⟨2, []⟩]⟩
    [⟨1, "A", 0, 0⟩, ⟨2, "AB", 2, 0⟩, ⟨3, "C", 5, 0⟩, ⟨4, "BC", 7, 0⟩, ⟨5, "BCD", 10, 0⟩]

theorem suggest_regrouping :
    (regrouping.suggest ['a']).outcome = .ok [['c'], ['b', 'c'], ['b', 'c', 'd']] := by
  cbv

/-- The one token of `a`. -/
def loneA : Tokenization := ⟨[⟨some 1, 0, ['a'], 0⟩], []⟩

/-- The two tokens of `ac`. -/
def aThenC : Tokenization := ⟨[⟨some 1, 0, ['a'], 0⟩, ⟨some 3, 0, ['c'], 1⟩], []⟩

theorem loneA_prefix_aThenC : loneA.tokens <+: aThenC.tokens := ⟨[⟨some 3, 0, ['c'], 1⟩], rfl⟩

theorem regrouping_scans_a : regrouping.recognizer.tokenize ['a'] = .ok loneA := by
  cbv

theorem regrouping_scans_ac : regrouping.recognizer.tokenize ['a', 'c'] = .ok aThenC := by
  cbv

/-- A suggestion makes a text of which more tokens are seen, and the last of them may follow the tokens
that are seen of the text. If the tokens of the text stay, nothing is left over and all of them can be
walked. -/
theorem suggestion_may_follow
    (hr : Recognizer.ofRules chars tokens rules initial = .ok s.recognizer)
    (h : (s.suggest text).outcome = .ok l) (hc : c ∈ l) :
    ∃ before after last, s.recognizer.tokenize text = .ok before ∧
      s.recognizer.tokenize (text ++ c) = .ok after ∧
      (s.seen before).length < (s.seen after).length ∧ (s.seen after).getLast? = some last ∧
      s.Walkable (s.seen before ++ [last]) ∧
      (before.tokens <+: after.tokens → after.rest = [] ∧ s.Walkable (s.seen after)) := by
  obtain ⟨before, after, last, f, hg⟩ := grows_of_mem_suggest h hc
  have hwalk := hg.walkable hr h
  refine ⟨before, after, last, hg.scanned, hg.rescanned, hg.more, hg.isLast, hwalk, fun hpre => ?_⟩
  obtain ⟨-, -, -, hrest, hseen⟩ := hg.eq_append hr h hc hpre
  exact ⟨hrest, hseen ▸ hwalk⟩

/-- The token of `a` stays when `c` is added. -/
theorem c_may_follow_a :
    regrouping.recognizer.tokenize ['a'] = .ok loneA ∧
      regrouping.recognizer.tokenize ['a', 'c'] = .ok aThenC ∧
      (regrouping.seen loneA).length < (regrouping.seen aThenC).length ∧
      regrouping.Walkable (regrouping.seen loneA ++ [⟨some 3, 0, ['c'], 1⟩]) ∧
      loneA.tokens <+: aThenC.tokens ∧ aThenC.rest = [] ∧
      regrouping.Walkable (regrouping.seen aThenC) := by
  obtain ⟨before, after, last, hb, ha, hmore, hlast, hwalk, hstay⟩ :=
    suggestion_may_follow (ofRules_plain (by simp) (by decide)) suggest_regrouping
      (c := ['c']) (by simp)
  obtain rfl : loneA = before := Except.ok.inj (regrouping_scans_a.symm.trans hb)
  obtain rfl : aThenC = after := Except.ok.inj (regrouping_scans_ac.symm.trans ha)
  obtain rfl : ⟨some 3, 0, ['c'], 1⟩ = last := Option.some.inj hlast
  exact ⟨hb, ha, hmore, hwalk, loneA_prefix_aThenC, hstay loneA_prefix_aThenC⟩

/-- After `a`, the suggestions `bc` and `bcd` make texts that start with `ab`, which nothing allows, and
go on with `c`. With `bcd`, a `d` is left over as well. -/
theorem bc_and_bcd_divide_a_anew :
    (∃ chars tokens rules,
        Recognizer.ofRules chars tokens rules none = .ok regrouping.recognizer) ∧
      (∃ l, (regrouping.suggest ['a']).outcome = .ok l ∧
        (['b', 'c'] : Text) ∈ l ∧ (['b', 'c', 'd'] : Text) ∈ l) ∧
      (∃ after, regrouping.recognizer.tokenize ['a', 'b', 'c'] = .ok after ∧ after.rest = [] ∧
        (regrouping.frontier (regrouping.seen after)).search.found = []) ∧
      ∃ after, regrouping.recognizer.tokenize ['a', 'b', 'c', 'd'] = .ok after ∧
        after.rest = ['d'] ∧ (regrouping.frontier (regrouping.seen after)).search.found = [] := by
  refine ⟨⟨_, _, _, ofRules_plain (by simp) (by decide)⟩, ⟨_, suggest_regrouping, by simp⟩, ?_, ?_⟩
  · refine ⟨⟨[⟨some 2, 0, ['a', 'b'], 0⟩, ⟨some 3, 0, ['c'], 2⟩], []⟩, ?_, rfl, ?_⟩
    · cbv
    · cbv
  · refine ⟨⟨[⟨some 2, 0, ['a', 'b'], 0⟩, ⟨some 3, 0, ['c'], 2⟩], ['d']⟩, ?_, rfl, ?_⟩
    · cbv
    · cbv

/-- A suggestion under which the tokens of the text stay adds exactly one token: a seen one that reads
what was left over and the suggestion, leaves nothing over and can be walked with the others. -/
theorem suggestion_adds_one_token
    (hr : Recognizer.ofRules chars tokens rules initial = .ok s.recognizer)
    (h : (s.suggest text).outcome = .ok l) (hc : c ∈ l) :
    ∃ before after, s.recognizer.tokenize text = .ok before ∧
      s.recognizer.tokenize (text ++ c) = .ok after ∧
      (before.tokens <+: after.tokens → ∃ t, after.tokens = before.tokens ++ [t] ∧
        t.channel = s.settings.channel ∧ t.text = before.rest ++ c ∧ after.rest = [] ∧
        s.Walkable (s.seen after)) := by
  obtain ⟨before, after, last, f, hg⟩ := grows_of_mem_suggest h hc
  refine ⟨before, after, hg.scanned, hg.rescanned, fun hpre => ?_⟩
  obtain ⟨htokens, hch, htext, hrest, hseen⟩ := hg.eq_append hr h hc hpre
  exact ⟨last, htokens, hch, htext, hrest, hseen ▸ hg.walkable hr h⟩

theorem c_adds_one_token :
    regrouping.recognizer.tokenize ['a'] = .ok loneA ∧
      regrouping.recognizer.tokenize ['a', 'c'] = .ok aThenC ∧
      loneA.tokens <+: aThenC.tokens ∧
      ∃ t, aThenC.tokens = loneA.tokens ++ [t] ∧ t.channel = regrouping.settings.channel ∧
        t.text = loneA.rest ++ (['c'] : Text) ∧ aThenC.rest = [] ∧
        regrouping.Walkable (regrouping.seen aThenC) := by
  obtain ⟨before, after, hb, ha, hstay⟩ :=
    suggestion_adds_one_token (ofRules_plain (by simp) (by decide)) suggest_regrouping
      (c := ['c']) (by simp)
  obtain rfl : loneA = before := Except.ok.inj (regrouping_scans_a.symm.trans hb)
  obtain rfl : aThenC = after := Except.ok.inj (regrouping_scans_ac.symm.trans ha)
  exact ⟨hb, ha, loneA_prefix_aThenC, hstay loneA_prefix_aThenC⟩

/-- Rules for `a` and `b`. After `a`, one way leads on with `b`; the other has two epsilon moves to states
with one identifier, so that the second one, behind which nothing is understood, is passed over. -/
def sharedIdentifier : Suggester :=
  plain
    ⟨#[⟨0, [.atomic 97 1]⟩, ⟨1, []⟩, ⟨2, [.atomic 98 3]⟩, ⟨3, []⟩]⟩
    ⟨#[⟨0, [.atomic 1 1, .atomic 1 2]⟩, ⟨1, [.epsilon 4, .epsilon 5]⟩, ⟨2, [.atomic 2 3]⟩, ⟨3, []⟩,
      ⟨4, []⟩, ⟨4, [.foreign "BogusTransition" 4]⟩]⟩
    [⟨1, "A", 0, 0⟩, ⟨2, "B", 2, 0⟩]

/-- What is passed over while suggestions are made comes up in a search over one more token. -/
theorem sharedIdentifier_search_fails :
    (∃ chars tokens rules,
        Recognizer.ofRules chars tokens rules none = .ok sharedIdentifier.recognizer) ∧
      (∃ l, (sharedIdentifier.suggest ['a']).outcome = .ok l ∧ (['b'] : Text) ∈ l) ∧
      ∃ before after, sharedIdentifier.recognizer.tokenize ['a'] = .ok before ∧
        sharedIdentifier.recognizer.tokenize ['a', 'b'] = .ok after ∧
        before.tokens <+: after.tokens ∧
        (sharedIdentifier.frontier (sharedIdentifier.seen after)).fault ≠ none ∧
        (sharedIdentifier.frontier (sharedIdentifier.seen after)).search.found = [] := by
  have hsuggest : (sharedIdentifier.suggest ['a']).outcome = .ok [['b']] := by
    cbv
  refine ⟨⟨_, _, _, ofRules_plain (by simp) (by decide)⟩, ⟨_, hsuggest, by simp⟩, ?_⟩
  refine ⟨⟨[⟨some 1, 0, ['a'], 0⟩], []⟩, ⟨[⟨some 1, 0, ['a'], 0⟩, ⟨some 2, 0, ['b'], 1⟩], []⟩,
    ?_, ?_, ?_, ?_, ?_⟩
  · cbv
  · cbv
  · exact ⟨_, rfl⟩
  · cbv
    simp
  · cbv

end Suggester
end Typeahead
