import Mathlib
import Typeahead.Proofs.Totality

/-!
Maximal munch. A rule spans a part of a text if it leads over the characters of the part to a state without
moves. Wherever the scanner stands it takes the longest part that some rule spans, as a token of the
earliest rule that spans it, and it stops short of the end only where no rule spans anything.
-/
namespace Typeahead

variable {chars : Automaton} {rules : List Rule} {text rest : Text} {r r' : Rule}
  {position stop n k : Nat} {ts : List Token}

/-- The part of a text from one position up to another. -/
def Text.slice (text : Text) (position stop : Nat) : Text := (text.take stop).drop position

theorem Text.slice_drop :
    Text.slice (text.drop position) 0 n = Text.slice text position (position + n) := by
  rw [slice, slice, List.take_drop, List.drop_zero]

/-- The rule matches what lies between the two positions, which is one character or more. -/
structure Rule.Spans (r : Rule) (chars : Automaton) (text : Text) (position stop : Nat) : Prop where
  lt : position < stop
  le : stop ≤ text.length
  matched : chars.Matches r.entry (Text.slice text position stop)

/-- The rule spans as much from `position` on as any rule, and no earlier rule spans as much. -/
structure Rule.Wins (r : Rule) (chars : Automaton) (rules : List Rule) (text : Text)
    (position stop : Nat) : Prop where
  spans : r.Spans chars text position stop
  longest : ∀ r' ∈ rules, ∀ stop', r'.Spans chars text position stop' → stop' ≤ stop
  earliest : ∃ before after, rules = before ++ r :: after ∧
    ∀ r' ∈ before, ¬ r'.Spans chars text position stop

namespace Rule

/-- What a rule spans from a position on is what it spans at the front of the text that starts there. -/
theorem spans_drop (h : position ≤ text.length) :
    r.Spans chars (text.drop position) 0 n ↔ r.Spans chars text position (position + n) := by
  have hlen : (text.drop position).length = text.length - position := List.length_drop
  constructor
  · rintro ⟨hlt, hle, hm⟩
    exact ⟨by omega, by omega, Text.slice_drop ▸ hm⟩
  · rintro ⟨hlt, hle, hm⟩
    exact ⟨by omega, by omega, Text.slice_drop ▸ hm⟩

theorem spans_zero_iff :
    r.Spans chars text 0 n ↔ 0 < n ∧ n ≤ text.length ∧ chars.Matches r.entry (text.take n) :=
  ⟨fun h => ⟨h.lt, h.le, h.matched⟩, fun h => ⟨h.1, h.2.1, h.2.2⟩⟩

/-- The length found for a rule is that of the longest span at the front of the text. -/
theorem spans_of_longestMatch (h : chars.longestMatch r.entry text = .ok n) (hpos : 0 < n) :
    r.Spans chars text 0 n := by
  have hlong := Automaton.longestMatch_longest h
  exact spans_zero_iff.2 ⟨hpos, hlong.le, hlong.matched hpos⟩

theorem Spans.le_longestMatch (hs : r.Spans chars text 0 k)
    (h : chars.longestMatch r.entry text = .ok n) : k ≤ n := by
  obtain ⟨hpos, hle, hm⟩ := spans_zero_iff.1 hs
  exact (Automaton.longestMatch_longest h).longest k hle hpos hm

theorem Wins.of_drop (h : position ≤ text.length) (hw : r.Wins chars rules (text.drop position) 0 n) :
    r.Wins chars rules text position (position + n) where
  spans := (spans_drop h).1 hw.spans
  longest r' hr' stop' hs := by
    obtain ⟨k, rfl⟩ := Nat.exists_eq_add_of_le (Nat.le_of_lt hs.lt)
    exact Nat.add_le_add_left (hw.longest r' hr' k ((spans_drop h).2 hs)) position
  earliest := by
    obtain ⟨before, after, heq, hno⟩ := hw.earliest
    exact ⟨before, after, heq, fun r' hr' hs => hno r' hr' ((spans_drop h).2 hs)⟩

end Rule

/-! ### The winner at the front of a text -/

namespace RuleScan

/-- The winner is of the earliest rule among those that span most. -/
theorem wins_of_winner {m : Match Rule} (h : winner chars rules text = .ok (some m)) :
    m.meaning.Wins chars rules text 0 m.length := by
  have hlen := (of_winner_eq_some h).2
  obtain ⟨found, hfound, hlongest⟩ := Outcome.bind_eq_ok.1 h
  injection hlongest with hlongest
  obtain ⟨before, after, rfl, hbefore, hafter⟩ := Match.longest_eq_some hlongest
  have hcandidate : ∀ {r : Rule} {y : Option (Match Rule)},
      (do return Match.ofLength? (← chars.longestMatch r.entry text) r) = Except.ok y →
      ∀ k, r.Spans chars text 0 k → ∃ m', y = some m' ∧ k ≤ m'.length := by
    intro r y hy k hk
    obtain ⟨n, hn, hy⟩ := Outcome.bind_eq_ok.1 hy
    injection hy with hy
    have hle := hk.le_longestMatch hn
    rw [Match.ofLength?_of_pos r (Nat.lt_of_lt_of_le hk.lt hle)] at hy
    exact ⟨_, hy.symm, hle⟩
  refine ⟨Rule.spans_of_longestMatch hlen m.positive, fun r' hr' k hk => ?_, ?_⟩
  · obtain ⟨y, hy, hr'⟩ := (Outcome.mem_of_mapM_eq_ok hfound).1 r' hr'
    obtain ⟨m', rfl, hle⟩ := hcandidate hr' k hk
    exact Nat.le_trans hle (Match.le_of_longest hlongest hy)
  · -- The rules before the winner's are those with the candidates before it.
    have hmap := Outcome.map_of_mapM_eq_ok hfound
    rw [List.map_append] at hmap
    obtain ⟨first, last, rfl, hfirst, hlast⟩ := List.map_eq_append_iff.1 hmap
    obtain ⟨r, last, rfl, hr, -⟩ := List.map_eq_cons_iff.1 hlast
    obtain ⟨n, hn, hr⟩ := Outcome.bind_eq_ok.1 hr
    injection hr with hr
    obtain ⟨-, hmeaning⟩ := Match.of_ofLength?_eq_some hr
    refine ⟨first, last, by rw [hmeaning], fun r' hr' hs => ?_⟩
    obtain ⟨y, hy, hry⟩ := List.mem_map.1 (hfirst ▸ List.mem_map_of_mem hr')
    obtain ⟨m', rfl, hle⟩ := hcandidate hry.symm m.length hs
    have hlt := hbefore m' hy
    omega

/-- There is no winner only if no rule spans anything. -/
theorem not_spans_of_winner (h : winner chars rules text = .ok none) (hr : r ∈ rules) :
    ¬ r.Spans chars text 0 n := by
  intro hs
  obtain ⟨found, hlongest, hrules, -⟩ := winner_eq_ok h
  obtain ⟨k, hk, hmem⟩ := hrules r hr
  rw [Match.ofLength?_of_pos r (Nat.lt_of_lt_of_le hs.lt (hs.le_longestMatch hk))] at hmem
  exact Match.longest_ne_none hmem hlongest

end RuleScan

/-! ### The tokens of a text -/

namespace Divides

/-- Every token is that of the rule that wins where it starts. -/
theorem wins_of_mem (h : Divides chars rules position (text.drop position) ts rest)
    (hle : position ≤ text.length) {t : Token} (ht : t ∈ ts) :
    ∃ (r : Rule) (p e : Nat), r.Wins chars rules text p e ∧
      t = ⟨some r.kind, r.channel, Text.slice text p e, p⟩ := by
  generalize hdrop : text.drop position = left at h
  induction h with
  | stop => simp at ht
  | @token position left rest m ts hne hw _ ih =>
    subst hdrop
    have hwins := RuleScan.wins_of_winner hw
    rcases List.mem_cons.1 ht with rfl | ht
    · refine ⟨m.meaning, position, position + m.length, hwins.of_drop hle, ?_⟩
      rw [← Text.slice_drop]
      rfl
    · have hlen := hwins.spans.le
      rw [List.length_drop] at hlen
      exact ih (by omega) ht List.drop_drop.symm

/-- Wherever the scanner comes to stand before the end, it stops if no rule spans anything from there, and
otherwise a token starts there. -/
theorem stops_iff (h : Divides chars rules position (text.drop position) ts rest)
    (hle : position ≤ text.length) {q : Nat} (hlt : q < text.length)
    (hq : q = position ∨ ∃ t ∈ ts, t.start + t.text.length = q) :
    (q = position + covered ts ↔ ∀ r ∈ rules, ∀ e, ¬ r.Spans chars text q e) ∧
      ((∃ t ∈ ts, t.start = q) ↔ ∃ r ∈ rules, ∃ e, r.Spans chars text q e) := by
  generalize hdrop : text.drop position = left at h
  induction h with
  | @stop position left hstop =>
    subst hdrop
    obtain rfl : q = position := by simpa using hq
    have hne : text.drop q ≠ [] := by simpa using hlt
    have hno : ∀ r ∈ rules, ∀ e, ¬ r.Spans chars text q e := by
      intro r hr e hs
      obtain ⟨k, rfl⟩ := Nat.exists_eq_add_of_le (Nat.le_of_lt hs.lt)
      exact RuleScan.not_spans_of_winner (hstop.resolve_left hne) hr
        ((Rule.spans_drop hle).2 hs)
    refine ⟨iff_of_true rfl hno, iff_of_false (by simp) ?_⟩
    rintro ⟨r, hr, e, hs⟩
    exact hno r hr e hs
  | @token position left rest m ts hne hw _ ih =>
    subst hdrop
    have hwins := (RuleScan.wins_of_winner hw).of_drop hle
    have hrule : m.meaning ∈ rules := (RuleScan.of_winner_eq_some hw).1
    have hlen : (m.token position (text.drop position)).text.length = m.length :=
      RuleScan.length_token_text hw
    have hcov : position + covered (m.token position (text.drop position) :: ts) =
        position + m.length + covered ts := by
      rw [covered_cons, hlen, Nat.add_assoc]
    rw [hcov]
    by_cases hhere : q = position
    · -- A rule wins here, so scanning does not stop and a token starts.
      subst hhere
      have hspans : ∃ r ∈ rules, ∃ e, r.Spans chars text q e := ⟨_, hrule, _, hwins.spans⟩
      have hpos := m.positive
      refine ⟨iff_of_false (by omega) ?_, iff_of_true ⟨_, List.mem_cons_self, rfl⟩ hspans⟩
      obtain ⟨r, hr, e, hs⟩ := hspans
      exact fun hno => hno r hr e hs
    · have hnext : q = position + m.length ∨ ∃ t ∈ ts, t.start + t.text.length = q := by
        rcases hq with hq | ⟨t, ht, hend⟩
        · exact absurd hq hhere
        · rcases List.mem_cons.1 ht with rfl | ht
          · rw [hlen] at hend
            simp only [Match.token] at hend
            exact Or.inl (by omega)
          · exact Or.inr ⟨t, ht, hend⟩
      obtain ⟨hstop, hstart⟩ := ih hwins.spans.le hnext List.drop_drop.symm
      refine ⟨hstop, Iff.trans ?_ hstart⟩
      constructor
      · rintro ⟨t, ht, hts⟩
        rcases List.mem_cons.1 ht with rfl | ht
        · simp only [Match.token] at hts
          exact absurd (by omega) hhere
        · exact ⟨t, ht, hts⟩
      · rintro ⟨t, ht, hts⟩
        exact ⟨t, List.mem_cons_of_mem _ ht, hts⟩

end Divides

/-- If every move is understood then every text can be scanned. Each token is the longest part of the text
that a rule spans from where it starts, and of the earliest rule that spans it. At the start of the text and
behind every token, unless that is the end of the text, scanning stops exactly if no rule spans anything
from there, and a token starts exactly if one does. -/
theorem tokens_are_longest_spans (hp : chars.Plain) (rules : List Rule) (text : Text) :
    ∃ ts stop, (ruleScanner chars rules).scan ⟨text, 0, none⟩ = .ok ⟨ts, some (stop : Nat)⟩ ∧
      (∀ t ∈ ts, ∃ (r : Rule) (position e : Nat), r.Wins chars rules text position e ∧
        t = ⟨some r.kind, r.channel, Text.slice text position e, position⟩) ∧
      ∀ position < text.length, (position = 0 ∨ ∃ t ∈ ts, t.start + t.text.length = position) →
        (position = stop ↔ ∀ r ∈ rules, ∀ e, ¬ r.Spans chars text position e) ∧
          ((∃ t ∈ ts, t.start = position) ↔ ∃ r ∈ rules, ∃ e, r.Spans chars text position e) := by
  obtain ⟨ts, rest, hd⟩ := hp.exists_divides rules 0 text
  obtain ⟨-, hall⟩ := RuleScan.all_of_divides hd
  refine ⟨ts, covered ts, ?_, fun t ht => hd.wins_of_mem (Nat.zero_le _) ht, fun q hlt hq => ?_⟩
  · rw [Scanner.scan, hall, Nat.zero_add]
    rfl
  · have := Divides.stops_iff hd (Nat.zero_le _) hlt hq
    rwa [Nat.zero_add] at this

/-- One way from state 0 for `if`, and a loop from state 3 for any small letters. -/
def ifOrLetters : Automaton :=
  ⟨#[⟨0, [.atomic 105 1]⟩, ⟨1, [.atomic 102 2]⟩, ⟨2, []⟩, ⟨3, [.set [⟨97, 123⟩] 4]⟩,
    ⟨4, [.epsilon 3, .epsilon 5]⟩, ⟨5, []⟩]⟩

/-- The rule for `if`, and after it the one for letters. -/
def ifThenLetters : List Rule := [⟨1, "IF", 0, 0⟩, ⟨2, "LETTERS", 3, 0⟩]

/-- Of `if!` both rules span `if`, the first one wins, and no rule spans anything behind it. -/
theorem if_wins_over_letters :
    (∃ (r : Rule) (position e : Nat), r.Wins ifOrLetters ifThenLetters ['i', 'f', '!'] position e ∧
      (⟨some 1, 0, ['i', 'f'], 0⟩ : Token) =
        ⟨some r.kind, r.channel, Text.slice ['i', 'f', '!'] position e, position⟩) ∧
      ∀ r ∈ ifThenLetters, ∀ e, ¬ r.Spans ifOrLetters ['i', 'f', '!'] 2 e := by
  have hp : ifOrLetters.Plain := Automaton.plain_of_lt (by decide)
  obtain ⟨ts, stop, hscan, htokens, hstops⟩ :=
    tokens_are_longest_spans hp ifThenLetters ['i', 'f', '!']
  have hscan' : (ruleScanner ifOrLetters ifThenLetters).scan ⟨['i', 'f', '!'], 0, none⟩ =
      .ok ⟨[⟨some 1, 0, ['i', 'f'], 0⟩], some 2⟩ := by
    cbv
  rw [hscan'] at hscan
  simp only [Except.ok.injEq, Scan.mk.injEq, Option.some.injEq] at hscan
  obtain ⟨rfl, hstop⟩ := hscan
  refine ⟨htokens _ List.mem_cons_self, (hstops 2 (by decide) ?_).1.1 (by omega)⟩
  exact Or.inr ⟨_, List.mem_cons_self, rfl⟩

end Typeahead
