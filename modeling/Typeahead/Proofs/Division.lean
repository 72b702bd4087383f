import Typeahead.Proofs.Match
import Typeahead.Recognizer

/-!
How rules divide a text into tokens, as a derivation beside the scanner: a token for each winner, until
nothing is left or no rule wins. Scanning is exact for it, and a text that keeps its tokens when
something is appended is divided from there on as its rest with what was appended.
-/
namespace Typeahead

variable {chars tokens : Automaton} {rules : List Rule} {text rest c : Text} {ts : List Token}
  {position : Nat}

/-- The token of a winner at the front of `text`. -/
def Match.token (m : Match Rule) (position : Nat) (text : Text) : Token :=
  ⟨some m.meaning.kind, m.meaning.channel, text.take m.length, position⟩

inductive Divides (chars : Automaton) (rules : List Rule) :
    Nat → Text → List Token → Text → Prop where
  | stop {position : Nat} {text : Text}
      (h : text = [] ∨ RuleScan.winner chars rules text = .ok none) :
      Divides chars rules position text [] text
  | token {position : Nat} {text rest : Text} {m : Match Rule} {ts : List Token} (hne : text ≠ [])
      (hw : RuleScan.winner chars rules text = .ok (some m))
      (h : Divides chars rules (position + m.length) (text.drop m.length) ts rest) :
      Divides chars rules position text (m.token position text :: ts) rest

/-- How many characters some tokens cover. -/
def covered (ts : List Token) : Nat := sumOver (·.text.length) ts

theorem covered_cons (t : Token) (ts : List Token) :
    covered (t :: ts) = t.text.length + covered ts := rfl

namespace RuleScan

theorem length_token_text {m : Match Rule} (hw : winner chars rules text = .ok (some m)) :
    (m.token position text).text.length = m.length := by
  have hle := (chars.longestMatch_longest (of_winner_eq_some hw).2).le
  simp [Match.token, Nat.min_eq_left hle]

theorem next_nil : next chars rules ⟨[], position, none⟩ =
    (.ok none, ⟨[], position, some position⟩) := rfl

theorem next_of_ne_nil (h : text ≠ []) : next chars rules ⟨text, position, none⟩ =
    match winner chars rules text with
    | .error fault => (.error fault, ⟨text, position, none⟩)
    | .ok none => (.ok none, ⟨text, position, some position⟩)
    | .ok (some m) =>
      (.ok (some (m.token position text)), ⟨text.drop m.length, position + m.length, none⟩) := by
  have hne : text.isEmpty = false := by simpa using h
  simp only [next, hne]
  rfl

/-- A derivation tells what the scanner does. -/
theorem all_of_divides (h : Divides chars rules position text ts rest) :
    text.drop (covered ts) = rest ∧ (ruleScanner chars rules).all ⟨text, position, none⟩ =
      (.ok ts, ⟨rest, position + covered ts, some (position + covered ts)⟩) := by
  induction h with
  | @stop position text h =>
    refine ⟨rfl, ?_⟩
    rw [Scanner.all_eq]
    by_cases hne : text = []
    · subst hne
      simp [ruleScanner, next_nil, covered, sumOver]
    · have hw := h.resolve_left hne
      simp [ruleScanner, next_of_ne_nil hne, hw, covered, sumOver]
  | @token position text rest m ts hne hw h ih =>
    obtain ⟨hdrop, hall⟩ := ih
    have hcov : covered (m.token position text :: ts) = m.length + covered ts := by
      rw [covered_cons, length_token_text hw]
    refine ⟨by rw [hcov, ← hdrop, List.drop_drop], ?_⟩
    rw [Scanner.all_eq, hcov]
    simp only [ruleScanner] at hall ⊢
    simp [next_of_ne_nil hne, hw, hall, Nat.add_assoc]
    rfl

/-- A scan without a fault comes from a derivation. -/
theorem divides_of_all (h : ((ruleScanner chars rules).all ⟨text, position, none⟩).1 = .ok ts) :
    ∃ rest, Divides chars rules position text ts rest := by
  induction hn : text.length using Nat.strongRecOn generalizing text position ts with
  | ind n ih =>
    rw [Scanner.all_eq] at h
    by_cases hne : text = []
    · subst hne
      simp only [ruleScanner, next_nil, Except.ok.injEq] at h
      subst h
      exact ⟨[], .stop (Or.inl rfl)⟩
    · cases hw : winner chars rules text with
      | error fault => simp [ruleScanner, next_of_ne_nil hne, hw] at h
      | ok w =>
        cases w with
        | none =>
          simp only [ruleScanner, next_of_ne_nil hne, hw, Except.ok.injEq] at h
          subst h
          exact ⟨text, .stop (Or.inr hw)⟩
        | some m =>
          simp only [ruleScanner, next_of_ne_nil hne, hw] at h
          obtain ⟨ts', hts, rfl⟩ := Outcome.map_eq_ok.1 h
          obtain ⟨rest, hrest⟩ := ih _ (hn ▸ m.length_drop_lt hne) hts rfl
          exact ⟨rest, .token hne hw hrest⟩

end RuleScan

namespace Recognizer

variable {initial : Option Nat} {r : Recognizer} {t : Tokenization}

/-- The parts of a recognizer made of rules. -/
theorem of_ofRules_eq_ok (h : ofRules chars tokens rules initial = .ok r) :
    r.chars = chars ∧ r.tokens = tokens ∧ r.entry = ruleEntry rules ∧
      r.scan = fun text => (ruleScanner chars rules).scan ⟨text, 0, none⟩ := by
  simp only [ofRules] at h
  split at h
  · cases h
  · split at h
    · cases h
      exact ⟨rfl, rfl, rfl, rfl⟩
    · split at h
      · cases h
      · cases h
        exact ⟨rfl, rfl, rfl, rfl⟩

/-- Such a recognizer divides texts as its rules do. -/
theorem tokenize_eq_ok_iff (h : ofRules chars tokens rules initial = .ok r) :
    r.tokenize text = .ok t ↔ Divides chars rules 0 text t.tokens t.rest := by
  obtain ⟨-, -, -, hscan⟩ := of_ofRules_eq_ok h
  have hofScan : ∀ {ts rest}, Divides chars rules 0 text ts rest →
      r.tokenize text = .ok ⟨ts, rest⟩ := by
    intro ts rest hd
    obtain ⟨hdrop, hall⟩ := RuleScan.all_of_divides hd
    have hafter : text.after (Int.ofNat (covered ts)) = rest := hdrop ▸ text.after_natCast _
    simp only [tokenize, hscan, Scanner.scan, hall, Except.map, Tokenization.ofScan]
    simp only [ruleScanner, Option.map_some, Option.getD_some, Nat.zero_add, hafter]
  constructor
  · intro ht
    obtain ⟨scan, hs, -⟩ := Outcome.map_eq_ok.1 ht
    simp only [hscan, Scanner.scan] at hs
    obtain ⟨ts, hts, -⟩ := Outcome.map_eq_ok.1 hs
    obtain ⟨rest, hd⟩ := RuleScan.divides_of_all hts
    rw [hofScan hd] at ht
    injection ht with ht
    subst ht
    exact hd
  · exact fun hd => hofScan hd

end Recognizer

/-! ### Appending to a text -/

namespace Divides

/-- If the tokens of a text stay when `c` is appended, then the rest with `c` is divided next. -/
theorem append (h : Divides chars rules position text ts rest) {ts' : List Token} {rest' : Text}
    (h' : Divides chars rules position (text ++ c) ts' rest') (hpre : ts <+: ts') :
    ∃ us position', ts' = ts ++ us ∧ Divides chars rules position' (rest ++ c) us rest' := by
  induction h generalizing ts' with
  | @stop position text _ => exact ⟨ts', position, rfl, h'⟩
  | @token position text rest m ts hne hw _ ih =>
    cases h' with
    | stop => simp at hpre
    | @token _ _ _ m' ts' _ hw' h' =>
      obtain ⟨htok, hpre⟩ := List.cons_prefix_cons.1 hpre
      -- Equal tokens are equally long, so both scans go on from the same place.
      have hlen : m.length = m'.length := by
        rw [← RuleScan.length_token_text hw, htok, RuleScan.length_token_text hw']
      have hle := (chars.longestMatch_longest (RuleScan.of_winner_eq_some hw).2).le
      rw [← hlen, List.drop_append_of_le_length hle] at h'
      obtain ⟨us, position', rfl, hus⟩ := ih h' hpre
      exact ⟨us, position', by rw [htok]; rfl, hus⟩

/-- A text that some rule matches as a whole is one token, and nothing of it is left. -/
theorem eq_singleton {r : Rule} (h : Divides chars rules position text ts rest) (hr : r ∈ rules)
    (hne : text ≠ []) (hm : chars.Matches r.entry text) :
    ∃ t, ts = [t] ∧ t.text = text ∧ rest = [] := by
  cases h with
  | stop h =>
    obtain ⟨m, hnone, -⟩ := RuleScan.winner_of_matches (h.resolve_left hne) hr hne hm
    simp at hnone
  | @token _ _ _ m ts _ hw h =>
    obtain ⟨m', hsome, hlen⟩ := RuleScan.winner_of_matches hw hr hne hm
    injection hsome with hsome
    subst hsome
    rw [hlen, List.drop_length] at h
    cases h with
    | stop => exact ⟨_, rfl, by simp [Match.token, hlen], rfl⟩
    | token hne' => exact absurd rfl hne'

end Divides
end Typeahead
