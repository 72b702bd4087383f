import Mathlib
import Typeahead.Proofs.Completeness
import Typeahead.Proofs.Totality

/-!
Rules whose words form a prefix code: no word that a rule matches starts as another one. Then at most one
word stands at the front of a text, whatever comes after it, so nothing that is appended can change how a
text is divided. A rule that matches what is left over of a text together with a completion adds exactly
its own token, and the suggestions are exactly the completions of rules that may come next.
-/
namespace Typeahead

variable {chars tokens : Automaton} {rules : List Rule} {initial : Option Nat} {text rest v v' c : Text}
  {r r' : Rule} {position : Nat} {ts : List Token}

/-- No rule matches nothing, and no word of a rule starts as another word, of it or of another rule. -/
structure PrefixCode (chars : Automaton) (rules : List Rule) : Prop where
  ne_nil : ∀ r ∈ rules, ∀ v, chars.Matches r.entry v → v ≠ []
  unique : ∀ r ∈ rules, ∀ r' ∈ rules, ∀ v v', chars.Matches r.entry v → chars.Matches r'.entry v' →
    v <+: v' → r = r' ∧ v = v'

/-! ### Division by a prefix code -/

namespace PrefixCode

/-- One word stands at the front of a text. -/
theorem eq_of_prefix (h : PrefixCode chars rules) (hr : r ∈ rules) (hr' : r' ∈ rules)
    (hm : chars.Matches r.entry v) (hm' : chars.Matches r'.entry v') (hv : v <+: text)
    (hv' : v' <+: text) : r = r' ∧ v = v' := by
  rcases List.prefix_or_prefix_of_prefix hv hv' with hpre | hpre
  · exact h.unique r hr r' hr' v v' hm hm' hpre
  · obtain ⟨rfl, rfl⟩ := h.unique r' hr' r hr v' v hm' hm hpre
    exact ⟨rfl, rfl⟩

/-- A word at the front of a text is found, whatever comes after it. -/
theorem winner_append (h : PrefixCode chars rules) (hp : chars.Plain) (hr : r ∈ rules)
    (hm : chars.Matches r.entry v) (after : Text) :
    ∃ hpos, RuleScan.winner chars rules (v ++ after) = .ok (some ⟨v.length, r, hpos⟩) := by
  have hpos : 0 < v.length := List.length_pos_iff.2 (h.ne_nil r hr v hm)
  refine ⟨hpos, ?_⟩
  obtain ⟨w, hw⟩ := hp.exists_winner rules (v ++ after)
  have hwin : ∃ m, w = some m := by
    obtain ⟨found, hlongest, hfound, -⟩ := RuleScan.winner_eq_ok hw
    obtain ⟨n, hn, hmem⟩ := hfound r hr
    have hle : v.length ≤ n := by
      apply (chars.longestMatch_longest hn).longest _ (by simp) hpos
      rwa [List.take_left]
    rw [Match.ofLength?_of_pos r (Nat.lt_of_lt_of_le hpos hle)] at hmem
    apply Option.ne_none_iff_exists'.1
    intro hnone
    exact Match.longest_ne_none hmem (hlongest.trans hnone)
  obtain ⟨m, rfl⟩ := hwin
  obtain ⟨hmr, hlen⟩ := RuleScan.of_winner_eq_some hw
  have hlong := chars.longestMatch_longest hlen
  -- The winner's match is a word at the front as well.
  obtain ⟨hrule, hword⟩ := h.eq_of_prefix hmr hr (hlong.matched m.positive) hm
    (List.take_prefix _ _) (List.prefix_append v after)
  have hlength : m.length = v.length := by
    rw [← hword, List.length_take_of_le hlong.le]
  obtain ⟨length, meaning, positive⟩ := m
  simp only at hrule hlength
  subst hrule hlength
  exact hw

/-- What is appended leaves the tokens of a text alone, and if a rule matches it together with what was
left over, it adds the token of that rule. -/
theorem divides_append (h : PrefixCode chars rules) (hp : chars.Plain) (hr : r ∈ rules)
    (hd : Divides chars rules position text ts rest) (hm : chars.Matches r.entry (rest ++ c)) :
    ∃ t, t.kind = some r.kind ∧ t.channel = r.channel ∧
      Divides chars rules position (text ++ c) (ts ++ [t]) [] := by
  induction hd with
  | @stop position text _ =>
    obtain ⟨hpos, hw⟩ := h.winner_append hp hr hm []
    rw [List.append_nil] at hw
    refine ⟨_, rfl, rfl, .token (List.length_pos_iff.1 hpos) hw ?_⟩
    rw [List.drop_length]
    exact .stop (Or.inl rfl)
  | @token position text rest m ts hne hw _ ih =>
    obtain ⟨t, hkind, hch, hrest⟩ := ih hm
    refine ⟨t, hkind, hch, ?_⟩
    obtain ⟨hmr, hlen⟩ := RuleScan.of_winner_eq_some hw
    have hlong := chars.longestMatch_longest hlen
    obtain ⟨hpos, hw'⟩ := h.winner_append hp hmr (hlong.matched m.positive) (text.drop m.length ++ c)
    have hsplit : text.take m.length ++ (text.drop m.length ++ c) = text ++ c := by
      rw [← List.append_assoc, List.take_append_drop]
    have hmatch : (⟨(text.take m.length).length, m.meaning, hpos⟩ : Match Rule) = m := by
      obtain ⟨length, meaning, positive⟩ := m
      simp only [List.length_take_of_le hlong.le]
    rw [hsplit, hmatch] at hw'
    have htoken : m.token position text = m.token position (text ++ c) := by
      simp only [Match.token, List.take_append_of_le_length hlong.le]
    rw [List.cons_append, htoken]
    refine .token (by simp [hne]) hw' ?_
    rwa [List.drop_append_of_le_length hlong.le]

end PrefixCode

/-- Tokens are on the channels of rules. -/
theorem Divides.exists_channel (h : Divides chars rules position text ts rest) {t : Token}
    (ht : t ∈ ts) : ∃ r ∈ rules, t.channel = r.channel := by
  induction h with
  | stop => simp at ht
  | token _ hw _ ih =>
    rcases List.mem_cons.1 ht with rfl | ht
    · exact ⟨_, (RuleScan.of_winner_eq_some hw).1, rfl⟩
    · exact ih ht

/-! ### Suggestions by a prefix code -/

namespace Suggester

variable {s : Suggester} {l : List Text} {before : Tokenization}

/-- Where all rules are on the channel that is seen, all tokens are seen. -/
theorem seen_eq_tokens (hr : Recognizer.ofRules chars tokens rules initial = .ok s.recognizer)
    (hch : ∀ r ∈ rules, r.channel = s.settings.channel)
    (hb : s.recognizer.tokenize text = .ok before) : s.seen before = before.tokens := by
  apply List.filter_eq_self.2
  intro t ht
  obtain ⟨r, hrule, hchannel⟩ := ((Recognizer.tokenize_eq_ok_iff hr).1 hb).exists_channel ht
  simp [hchannel, hch r hrule]

/-- Whatever is suggested completes a word of a rule that may come next. -/
theorem exists_rule_of_mem_suggest
    (hr : Recognizer.ofRules chars tokens rules initial = .ok s.recognizer)
    (hkinds : (rules.map (·.kind)).Nodup) (hd : s.recognizer.tokens.DistinctIds)
    (h : (s.suggest text).outcome = .ok l) (hb : s.recognizer.tokenize text = .ok before)
    {w : List Int} (hw : (s.seen before).map (·.kind) = w.map some) (hc : c ∈ l) :
    ∃ r ∈ rules, chars.Matches r.entry (before.rest ++ c) ∧
      ∃ q, s.recognizer.tokens.Path s.recognizer.initial (w ++ [r.kind]) q := by
  have ht := tokenize_of_recognizer hb
  have hne : c ≠ [] := by
    obtain ⟨_, _, _, _, hgrows⟩ := grows_of_mem_suggest h hc
    exact hgrows.ne_nil
  obtain ⟨-, hoffers, -⟩ := suggest_of_tokenize ht h
  obtain ⟨f, hf, v, hv, htail, -⟩ := (mem_suggest_iff ht h).1 hc
  obtain ⟨-, hagree, r, hrule, hx, hspells⟩ := (mem_offered_iff hr hkinds hd (hoffers f hf)).1 hv
  have hword : v = before.rest ++ c := by
    subst htail
    exact hagree.eq_append hne
  have harrives := ((frontier_of_suggest h hb hw).2.1 f).1 hf
  exact ⟨r, hrule, hword ▸ hspells.matches,
    Automaton.path_append_singleton_iff.2 ⟨f, harrives, hx⟩⟩

/-- Whatever completes a word of a rule that may come next is suggested, if the rules form a prefix code
and the preference drops nothing that they match. -/
theorem mem_suggest_of_matches
    (hr : Recognizer.ofRules chars tokens rules initial = .ok s.recognizer)
    (hkinds : (rules.map (·.kind)).Nodup) (hd : s.recognizer.tokens.DistinctIds)
    (hcode : PrefixCode chars rules) (hp : chars.Plain)
    (hch : ∀ r ∈ rules, r.channel = s.settings.channel)
    (h : (s.suggest text).outcome = .ok l) (hb : s.recognizer.tokenize text = .ok before)
    {w : List Int} (hw : (s.seen before).map (·.kind) = w.map some) (hrule : r ∈ rules)
    (hm : chars.Matches r.entry (before.rest ++ c))
    (hs : Completion.Spells chars (.ofLabel s.label) [] r.entry (before.rest ++ c)) {q : Nat}
    (hq : s.recognizer.tokens.Path s.recognizer.initial (w ++ [r.kind]) q) : c ∈ l := by
  have ht := tokenize_of_recognizer hb
  obtain ⟨-, hoffers, -⟩ := suggest_of_tokenize ht h
  obtain ⟨-, hfound, hunderstood⟩ := frontier_of_suggest h hb hw
  obtain ⟨f, harrives, hx⟩ := Automaton.path_append_singleton_iff.1 ⟨q, hq⟩
  have hf := (hfound f).2 harrives
  have hoffered : before.rest ++ c ∈ s.offered (.of text (before.onChannel s.settings.channel)) f :=
    (mem_offered_iff hr hkinds hd (hoffers f hf)).2 ⟨hcode.ne_nil r hrule _ hm,
      Or.inl (List.prefix_append _ _), r, hrule, hx, hs⟩
  obtain ⟨t, hkind, hchannel, hdiv⟩ :=
    hcode.divides_append hp hrule ((Recognizer.tokenize_eq_ok_iff hr).1 hb) hm
  have ha : s.recognizer.tokenize (text ++ c) = .ok ⟨before.tokens ++ [t], []⟩ :=
    (Recognizer.tokenize_eq_ok_iff hr).2 hdiv
  have hseen : s.seen ⟨before.tokens ++ [t], []⟩ = s.seen before ++ [t] := by
    simp [seen, Tokenization.onChannel, hchannel, hch r hrule]
  refine (mem_suggest_iff ht h).2 ⟨f, hf, _, hoffered, Completion.tail_append _ _, admits_iff.2
    ⟨t, addedToken_eq_some_iff.2 ⟨_, ha, ?_, ?_⟩, ?_⟩⟩
  · rw [hseen]
    simp [Request.of, seen]
  · simp [hseen]
  · rw [hkind]
    exact (Automaton.accepts_eq_true_iff hd (hunderstood hd f hf)).2 hx

/-- There are suggestions for every text, and they are the completions of the words that may come next. -/
theorem suggestions_of_prefixCode
    (hr : Recognizer.ofRules chars tokens rules initial = .ok s.recognizer)
    (hkinds : (rules.map (·.kind)).Nodup) (hd : tokens.DistinctIds) (hplain : tokens.Plain)
    (hcode : PrefixCode chars rules) (hread : Completion.Readable chars)
    (hch : ∀ r ∈ rules, r.channel = s.settings.channel)
    (hspells : ∀ r ∈ rules, ∀ v, chars.Matches r.entry v →
      Completion.Spells chars (.ofLabel s.label) [] r.entry v) (text : Text) :
    ∃ t l, s.recognizer.tokenize text = .ok t ∧ (s.suggest text).outcome = .ok l ∧
      ∀ c, c ∈ l ↔ ∃ r ∈ rules, chars.Matches r.entry (t.rest ++ c) ∧
        ∃ w q, t.tokens.map (·.kind) = w.map some ∧
          tokens.Path s.recognizer.initial (w ++ [r.kind]) q := by
  obtain ⟨-, htokens, -, -⟩ := Recognizer.of_ofRules_eq_ok hr
  obtain ⟨before, hb⟩ := hread.plain.exists_tokenize hr text
  obtain ⟨l, hl⟩ := (faultless_ofRules hr hread hplain).exists_suggest text
  refine ⟨before, l, hb, hl, fun c => ?_⟩
  rw [← htokens] at hd ⊢
  rw [← seen_eq_tokens hr hch hb]
  constructor
  · intro hc
    obtain ⟨w, hw⟩ := exists_kinds_seen hr hb
    obtain ⟨r, hrule, hm, q, hq⟩ := exists_rule_of_mem_suggest hr hkinds hd hl hb hw hc
    exact ⟨r, hrule, hm, w, q, hw, hq⟩
  · rintro ⟨r, hrule, hm, w, q, hw, hq⟩
    exact mem_suggest_of_matches hr hkinds hd hcode hread.plain hch hl hb hw hrule hm
      (hspells r hrule _ hm) hq

end Suggester
end Typeahead
