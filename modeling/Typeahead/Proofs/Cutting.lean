import Mathlib
import Typeahead.Proofs.Division

/-!
Texts that are cut where a token starts or where scanning stops. A matcher looks ahead past the end of a
token, but what it sees there can only tell that no longer match comes up: a text that ends where the token
does, or later, has the same winner at its front. Hence both parts of such a text are divided as they were
in the whole, the second with its tokens moved back to its own start.
-/
namespace Typeahead

variable {chars tokens : Automaton} {rules : List Rule} {text rest : Text} {position limit n : Nat}
  {ts before after : List Token} {t : Token}

namespace Automaton

variable {a : Automaton} {entry : Nat} {current : List Nat} {consumed best : Nat}

/-- The length that is found is the best one so far or more than what is consumed so far. -/
theorem eq_best_or_lt_of_matchFrom (h : a.matchFrom current consumed best text = .ok n) :
    n = best ∨ consumed < n := by
  induction text generalizing current consumed best with
  | nil =>
    injection h with h
    exact Or.inl h.symm
  | cons c text ih =>
    rw [matchFrom] at h
    split at h
    · injection h with h
      exact Or.inl h.symm
    · obtain ⟨next, -, h⟩ := Outcome.bind_eq_ok.1 h
      have := ih h
      split at this <;> omega

/-- Nothing behind the match that is found has a part in finding it. -/
theorem matchFrom_take (h : a.matchFrom current consumed best text = .ok n)
    (hle : n ≤ consumed + limit) : a.matchFrom current consumed best (text.take limit) = .ok n := by
  induction text generalizing current consumed best limit with
  | nil => simpa using h
  | cons c text ih =>
    cases limit with
    | zero =>
      have := eq_best_or_lt_of_matchFrom h
      rw [List.take_zero, matchFrom]
      exact congrArg Except.ok (by omega)
    | succ limit =>
      rw [matchFrom] at h
      rw [List.take_succ_cons, matchFrom]
      split at h
      · rename_i hempty
        rw [if_pos hempty]
        exact h
      · rename_i hempty
        obtain ⟨next, hnext, h⟩ := Outcome.bind_eq_ok.1 h
        rw [if_neg hempty, hnext]
        exact ih h (by omega)

theorem longestMatch_take (h : a.longestMatch entry text = .ok n) (hle : n ≤ limit) :
    a.longestMatch entry (text.take limit) = .ok n :=
  matchFrom_take h (by omega)

end Automaton

/-- A text that is cut behind the match of its winner keeps the winner: no rule matches more than it, so no
match that any rule finds is cut. -/
theorem RuleScan.winner_take {m : Match Rule} (h : winner chars rules text = .ok (some m))
    (hle : m.length ≤ limit) : winner chars rules (text.take limit) = .ok (some m) := by
  obtain ⟨found, hlongest, hrules, -⟩ := winner_eq_ok h
  have hcut : ∀ r ∈ rules, chars.longestMatch r.entry (text.take limit) =
      chars.longestMatch r.entry text := by
    intro r hr
    obtain ⟨n, hn, hmem⟩ := hrules r hr
    have hn' : n ≤ m.length := by
      rcases Nat.eq_zero_or_pos n with rfl | hpos
      · exact Nat.zero_le _
      · rw [Match.ofLength?_of_pos r hpos] at hmem
        exact Match.le_of_longest hlongest hmem
    rw [hn, Automaton.longestMatch_take hn (Nat.le_trans hn' hle)]
  rw [← h, winner, winner]
  exact congrArg (· >>= _) (Outcome.mapM_congr fun r hr => by rw [hcut r hr])

/-! ### Cutting a division -/

/-- The token of a text that starts `offset` characters later. -/
def Token.moveBack (offset : Nat) (t : Token) : Token := { t with start := t.start - offset }

namespace Divides

/-- A text is divided alike wherever it stands. -/
theorem moveBack {offset : Nat} (h : Divides chars rules (position + offset) text ts rest) :
    Divides chars rules position text (ts.map (Token.moveBack offset)) rest := by
  generalize hp : position + offset = p at h
  induction h generalizing position with
  | stop h => exact .stop h
  | @token p text rest m ts hne hw _ ih =>
    subst hp
    have htoken : (m.token (position + offset) text).moveBack offset = m.token position text := by
      simp [Token.moveBack, Match.token]
    rw [List.map_cons, htoken]
    exact .token hne hw (ih (by omega))

/-- What the first tokens cover is divided into these tokens, and what comes behind into the others. -/
theorem cut (h : Divides chars rules position text (before ++ after) rest) :
    Divides chars rules position (text.take (covered before)) before [] ∧
      Divides chars rules (position + covered before) (text.drop (covered before)) after rest := by
  induction before generalizing position text with
  | nil => exact ⟨.stop (Or.inl rfl), h⟩
  | cons t before ih =>
    cases h with
    | @token _ _ _ m _ hne hw h =>
      obtain ⟨hfirst, hsecond⟩ := ih h
      have hcov : covered (m.token position text :: before) = m.length + covered before := by
        rw [covered_cons, RuleScan.length_token_text hw]
      rw [hcov]
      constructor
      · have hw' := RuleScan.winner_take hw (Nat.le_add_right m.length (covered before))
        have htoken : m.token position text =
            m.token position (text.take (m.length + covered before)) := by
          simp [Match.token, List.take_take]
        have hpos := m.positive
        have hne' : text.take (m.length + covered before) ≠ [] := by
          rw [Ne, List.take_eq_nil_iff, not_or]
          exact ⟨by omega, hne⟩
        rw [htoken]
        refine .token hne' hw' ?_
        rwa [List.drop_take, Nat.add_sub_cancel_left]
      · rwa [← List.drop_drop, ← Nat.add_assoc]

/-- Tokens start where they stand: none before the first position, and none behind what all of them
cover. -/
theorem start_mem (h : Divides chars rules position text ts rest) (ht : t ∈ ts) :
    (position : Int) ≤ t.start ∧ t.start < position + covered ts := by
  induction h with
  | stop => simp at ht
  | @token position text rest m ts hne hw _ ih =>
    have hpos := m.positive
    rw [covered_cons, RuleScan.length_token_text hw]
    rcases List.mem_cons.1 ht with rfl | ht
    · simp only [Match.token]
      omega
    · have := ih ht
      omega

/-- The tokens before a cut are those that start before it. -/
theorem filter_start (h : Divides chars rules position text (before ++ after) rest) :
    (before ++ after).filter (·.start < (position : Int) + covered before) = before ∧
      (before ++ after).filter ((position : Int) + covered before ≤ ·.start) = after := by
  obtain ⟨hfirst, hsecond⟩ := h.cut
  have hbefore : ∀ t ∈ before, t.start < (position : Int) + covered before := fun t ht =>
    (hfirst.start_mem ht).2
  have hafter : ∀ t ∈ after, (position : Int) + covered before ≤ t.start := fun t ht => by
    simpa using (hsecond.start_mem ht).1
  constructor
  · rw [List.filter_append, List.filter_eq_self.2 (by simpa using hbefore),
      List.filter_eq_nil_iff.2 (by simpa using hafter), List.append_nil]
  · rw [List.filter_append, List.filter_eq_nil_iff.2 (by simpa using hbefore),
      List.filter_eq_self.2 (by simpa using hafter), List.nil_append]

/-- A token starts behind what the tokens before it cover. -/
theorem start_eq (h : Divides chars rules position text (before ++ t :: after) rest) :
    t.start = (position : Int) + covered before := by
  cases h.cut.2 with
  | token => simp [Match.token]

end Divides

/-! ### Cutting a text -/

theorem Recognizer.scan_eq_ok {initial : Option Nat} {r : Recognizer} {scan : Scan}
    (hr : Recognizer.ofRules chars tokens rules initial = .ok r) (h : r.scan text = .ok scan) :
    ∃ rest, Divides chars rules 0 text scan.tokens rest ∧
      scan.stop = some (covered scan.tokens : Int) := by
  obtain ⟨-, -, -, hscan⟩ := Recognizer.of_ofRules_eq_ok hr
  simp only [hscan, Scanner.scan] at h
  obtain ⟨ts, hts, rfl⟩ := Outcome.map_eq_ok.1 h
  obtain ⟨rest, hd⟩ := RuleScan.divides_of_all hts
  have hstop := (RuleScan.all_of_divides hd).2
  refine ⟨rest, hd, ?_⟩
  simp only [hstop]
  simp [ruleScanner]

/-- A text that can be scanned by rules may be cut where one of its tokens starts or where scanning stops.
The part before the cut is divided into the tokens that start there and nothing is left over; the part
behind it is divided into the other tokens, with their starts counted from the cut, and leaves over what the
whole text does. -/
theorem tokens_kept_by_cut {initial : Option Nat} {r : Recognizer} {scan : Scan} {b : Int}
    (hr : Recognizer.ofRules chars tokens rules initial = .ok r) (h : r.scan text = .ok scan)
    (hb : (∃ t ∈ scan.tokens, t.start = b) ∨ scan.stop = some b) :
    ∃ (n : Nat) (rest : Text), b = n ∧ r.tokenize text = .ok ⟨scan.tokens, rest⟩ ∧
      r.tokenize (text.take n) = .ok ⟨scan.tokens.filter (·.start < b), []⟩ ∧
      r.tokenize (text.drop n) =
        .ok ⟨(scan.tokens.filter (b ≤ ·.start)).map (Token.moveBack n), rest⟩ := by
  obtain ⟨rest, hd, hstop⟩ := Recognizer.scan_eq_ok hr h
  obtain ⟨before, after, hts, rfl⟩ :
      ∃ before after, scan.tokens = before ++ after ∧ b = (covered before : Int) := by
    rcases hb with ⟨t, ht, rfl⟩ | hb
    · obtain ⟨before, after, hts⟩ := List.append_of_mem ht
      rw [hts] at hd
      exact ⟨before, t :: after, hts, by simpa using hd.start_eq⟩
    · refine ⟨scan.tokens, [], by simp, ?_⟩
      rw [hstop] at hb
      injection hb with hb
      exact hb.symm
  rw [hts] at hd ⊢
  obtain ⟨hbefore, hafter⟩ := hd.filter_start
  simp only [Nat.cast_zero, Int.zero_add] at hbefore hafter
  obtain ⟨hfirst, hsecond⟩ := hd.cut
  refine ⟨covered before, rest, rfl, ?_, ?_, ?_⟩
  · exact (Recognizer.tokenize_eq_ok_iff hr).2 hd
  · rw [hbefore]
    exact (Recognizer.tokenize_eq_ok_iff hr).2 hfirst
  · rw [hafter]
    exact (Recognizer.tokenize_eq_ok_iff hr).2 hsecond.moveBack

/-- Rules for `a`, `abc` and `b`: whether an `a` stands alone is known two characters later. -/
def hesitant : Except Fault Recognizer :=
  Recognizer.ofRules
    ⟨#[⟨0, [.atomic 97 4]⟩, ⟨1, [.atomic 97 2]⟩, ⟨2, [.atomic 98 3]⟩, ⟨3, [.atomic 99 4]⟩, ⟨4, []⟩,
      ⟨5, [.atomic 98 4]⟩]⟩
    ⟨#[⟨0, []⟩]⟩
    [⟨1, "A", 0, 0⟩, ⟨2, "ABC", 1, 0⟩, ⟨3, "B", 5, 0⟩] none

theorem hesitant_cut_in_look_ahead :
    ∃ r scan t₁ t₂, hesitant = .ok r ∧ r.scan "ababc!" = .ok scan ∧
      scan.tokens.map (·.start) = [0, 1, 2] ∧
      r.tokenize "a" = .ok t₁ ∧ t₁.tokens = [⟨some 1, 0, ['a'], 0⟩] ∧ t₁.rest = [] ∧
      r.tokenize "babc!" = .ok t₂ ∧ t₂.rest = ['!'] ∧
      t₂.tokens = [⟨some 3, 0, ['b'], 0⟩, ⟨some 2, 0, ['a', 'b', 'c'], 1⟩] := by
  obtain ⟨r, hr⟩ : ∃ r, hesitant = .ok r := ⟨_, rfl⟩
  have hscan : r.scan "ababc!" =
      .ok ⟨[⟨some 1, 0, ['a'], 0⟩, ⟨some 3, 0, ['b'], 1⟩, ⟨some 2, 0, ['a', 'b', 'c'], 2⟩],
        some 5⟩ := by
    cases hr
    cbv
  obtain ⟨n, rest, hn, htext, hfirst, hsecond⟩ :=
    tokens_kept_by_cut hr hscan (Or.inl ⟨_, List.mem_cons_of_mem _ List.mem_cons_self, rfl⟩)
  obtain rfl : n = 1 := by simpa using hn.symm
  obtain rfl : rest = ['!'] := by
    rw [Recognizer.tokenize, hscan] at htext
    injection htext with htext
    exact (congrArg Tokenization.rest htext).symm
  exact ⟨r, _, _, _, hr, hscan, rfl, hfirst, rfl, rfl, hsecond, rfl, rfl⟩

end Typeahead
