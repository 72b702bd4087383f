import Mathlib
import Typeahead.Proofs.LongestMatch

/-!
A lexer and the converted network scan alike. Let the token rules of a network be flat, and let its lexer
take the longest match, the earliest rule on ties, and report an error where no rule matches. Then it hands
out the tokens that rules over the converted network hand out, and the position of the first error, from
which the lexer goes on by itself, is the one at which the rules stop.
-/
namespace Typeahead

variable {n : Network} {a : Automaton} {alphabet : Interval} {rules : List Rule} {text rest : Text}
  {ts : List Token} {position length : Nat}

namespace Network

/-- One rule for each arc out of the state where the token rules start, in order. -/
abbrev GivesAll (n : Network) (rules : List Rule) : Prop :=
  List.Forall₂ (fun (arc : Arc) r => ∃ start : Nat, arc.target = start ∧ n.Gives start r)
    (n.arcs n.modeStart) rules

theorem flatRules_of_givesAll (hflat : ∀ start ∈ n.tokenRules, n.FlatRule alphabet start)
    (hgives : n.GivesAll rules) : n.FlatRules alphabet rules := by
  refine (List.forall₂_and_left _ _).2 ⟨hflat, ?_⟩
  clear hflat
  rw [tokenRules]
  rw [GivesAll] at hgives
  generalize n.arcs n.modeStart = arcs at hgives ⊢
  induction hgives with
  | nil => exact .nil
  | @cons arc r arcs rules hr _ ih =>
    obtain ⟨start, hstart, hg⟩ := hr
    have hnat : arc.target.toNat? = some start := Int.mem_toNat?.2 hstart
    simpa only [List.filterMap_cons, hnat] using List.Forall₂.cons hg ih

/-- The requests to a lexer give the tokens into which the rules divide the text, and it stops behind
them. -/
theorem gives_of_divides {σ : Type} {l : Lexer σ} {reading : σ → Text → Nat → Prop}
    (hl : n.Munches l reading) (h : n.toAutomaton alphabet = .ok a)
    (hrules : n.FlatRules alphabet rules) (hd : Divides a rules position text ts rest) {s : σ}
    (hs : reading s text position) (hlength : length = position + text.length)
    (htext : ∀ c ∈ text, alphabet.contains c.toNat = true) :
    l.Gives length s ts (position + covered ts : Nat) := by
  induction hd generalizing s with
  | @stop position text hstop =>
    by_cases hne : text = []
    · subst hne
      have hidle : n.Idle [] := hrules.idle h (by simp) fun r _ k hspans =>
        Nat.not_lt_of_le hspans.le hspans.lt
      obtain ⟨answer, s', hanswer, hend⟩ := hl.ended s position hs hidle
      rw [show position + covered [] = length from hlength.symm]
      exact .ended hanswer hend
    · have hidle : n.Idle text := hrules.idle h htext fun r hr k =>
        RuleScan.not_spans_of_winner (hstop.resolve_left hne) hr
      obtain ⟨os, answer, s', herror⟩ := hl.error s text position hs hne hidle
      exact .error herror
  | @token position text rest m ts hne hw _ ih =>
    obtain ⟨start, ⟨hr, hg⟩, hwins⟩ := hrules.exists_wins h htext (RuleScan.wins_of_winner hw)
    obtain ⟨stop, hreads, htoken⟩ := hl.token s text position start m.length hs hwins
    have hkind := hr.ownKind_eq hg hreads.path.leads hreads.isStop
    obtain ⟨s', hanswer, hs'⟩ := htoken m.meaning.kind hkind
    have hm : m.token position text = ⟨some m.meaning.kind, 0, text.take m.length, position⟩ := by
      rw [Match.token, hg.channel]
    have hlength' : length = position + m.length + (text.drop m.length).length := by
      have := hwins.spans.le
      rw [List.length_drop]
      omega
    have hrest := ih hs' hlength' fun c hc => htext c (List.mem_of_mem_drop hc)
    rw [covered_cons, RuleScan.length_token_text hw, ← Nat.add_assoc]
    refine .token (hm ▸ hanswer) ?_ hrest
    have := hg.positive
    simp only [Match.token, endKind, ne_eq, Option.some.injEq]
    omega

/-- Let a network be converted over an alphabet, let its token rules be flat, and let there be one
rule for each of them. Let a lexer take the longest match at each position, that of the earliest token
rule on ties, and report an error at the start of what no rule matches. Then this lexer, whatever it
read before, and the rules over the converted network scan every text over the alphabet to the same
tokens, all of them on the main channel, and stop at the same position. -/
theorem lexer_scans_as_rules {σ : Type} {l : Lexer σ} {reading : σ → Text → Nat → Prop}
    (hl : n.Munches l reading) (h : n.toAutomaton alphabet = .ok a)
    (hflat : ∀ start ∈ n.tokenRules, n.FlatRule alphabet start) (hgives : n.GivesAll rules)
    (text : Text) (htext : ∀ c ∈ text, alphabet.contains c.toNat = true) (earlier : σ) :
    ∃ scan, l.scanner.scan (l.start earlier text) = .ok scan ∧
      (ruleScanner a rules).scan ⟨text, 0, none⟩ = .ok scan ∧ ∀ t ∈ scan.tokens, t.channel = 0 := by
  have hrules := flatRules_of_givesAll hflat hgives
  obtain ⟨ts, rest, hd⟩ := (plain_of_toAutomaton h).exists_divides rules 0 text
  obtain ⟨-, hall⟩ := RuleScan.all_of_divides hd
  have hgiven := gives_of_divides hl h hrules hd (hl.load earlier text) (Nat.zero_add _).symm htext
  obtain ⟨s', hlexer, hstop⟩ := LexScan.all_of_gives hgiven
  rw [Nat.zero_add] at hstop
  refine ⟨⟨ts, some (covered ts : Nat)⟩, ?_, ?_, ?_⟩
  · rw [Scanner.scan, Lexer.start, hlexer]
    simp [Except.map, Lexer.scanner, hstop]
  · rw [Scanner.scan, hall, Nat.zero_add]
    rfl
  · intro t ht
    obtain ⟨r, p, e, hwins, rfl⟩ := hd.wins_of_mem (Nat.zero_le text.length) ht
    obtain ⟨start, -, hg⟩ := hrules.exists_of_mem hwins.mem
    exact hg.channel

/-! ### A lexer of words and marks -/

/-- The lexer that keeps threads is such a lexer. -/
theorem lexer_munches_of_converted (h : n.toAutomaton alphabet = .ok a)
    (hflat : ∀ start ∈ n.tokenRules, n.FlatRule alphabet start) (hgives : n.GivesAll rules) :
    n.Munches n.lexer Reading := by
  obtain ⟨a', h'⟩ := exists_toAutomaton_iff.2 (exists_toAutomaton_iff.1 ⟨a, h⟩)
  exact lexer_munches h' (flatRules_of_givesAll (fun s hs => (hflat s hs).of_alphabet) hgives)

/-- A rule that consumes something at once is flat if flat states make up a part that no arc leaves,
with stop states of that rule only. -/
theorem FlatRule.of_closed {start : Nat} (states : List Nat) (hstart : start ∈ states)
    (hclosed : ∀ s ∈ states, ∀ arc ∈ n.arcs s, ∃ t ∈ states, arc.target = (t : Int))
    (hflat : ∀ s ∈ states, n.Flat s)
    (hown : ∀ s ∈ states, n.isStop s = true →
      (n.station? s).map (·.rule) = (n.station? start).map (·.rule))
    (honce : n.isStop start = false ∧ ∀ arc ∈ n.arcs start, arc.isSilent = false) :
    n.FlatRule alphabet start := by
  have hreach : ∀ s, Relation.ReflTransGen n.Leads start s → s ∈ states := by
    intro s hs
    induction hs with
    | refl => exact hstart
    | tail _ hleads ih =>
      obtain ⟨arc, harc, htarget⟩ := hleads
      obtain ⟨t, ht, htarget'⟩ := hclosed _ ih arc harc
      exact Int.ofNat_inj.1 (htarget.symm.trans htarget') ▸ ht
  refine ⟨fun s hs => hflat s (hreach s hs), fun s hs => hown s (hreach s hs), fun s hs => ?_⟩
  cases hs with
  | refl => exact honce.1
  | silent harc _ hsilent _ =>
    rw [honce.2 _ harc] at hsilent
    cases hsilent

end Network

/-- No label of the arc is negative. -/
def Arc.isNonneg : Arc → Bool
  | atom _ label => 0 ≤ label
  | range _ first _ => 0 ≤ first
  | set _ intervals | notSet _ intervals => (intervals.getD []).all (0 ≤ ·.start)
  | _ => true

theorem Arc.accepts_eq_false {arc : Arc} {x : Int} (h : arc.isNonneg = true) (hx : x < 0) :
    arc.accepts .codePoints x = false := by
  cases arc <;> simp_all [isNonneg, accepts, Interval.contains, Interval.codePoints] <;> grind

/-- Words of small letters, and marks, which are all other characters but the question mark. One
state was removed. -/
def wordsAndMarks : Network where
  stations := #[some { place := .tokens, arcs := [.epsilon 2, .epsilon 5] }, none,
    some { place := .start, arcs := [.range 3 97 122] }, some { arcs := [.epsilon 2, .epsilon 4] },
    some { place := .stop },
    some { place := .start, rule := 1, arcs := [.notSet 6 (some [⟨97, 123⟩, ⟨63, 64⟩])] },
    some { place := .stop, rule := 1 }]
  types := some [some 1, some 2]

/-- The rules of words and marks, at the positions of their states. -/
def wordThenMark : List Rule := [⟨1, "WORD", 1, 0⟩, ⟨2, "MARK", 4, 0⟩]

theorem wordsAndMarks_flat : ∀ start ∈ wordsAndMarks.tokenRules,
    wordsAndMarks.FlatRule ⟨0x20, 0x7F⟩ start := by
  have hplain : ∀ s ∈ [2, 3, 4, 5, 6], (∀ arc ∈ wordsAndMarks.arcs s,
      arc.isFlat = true ∧ arc.isNonneg = true) ∧
      (wordsAndMarks.isStop s = true ↔ wordsAndMarks.arcs s = []) := by
    decide
  have hflat : ∀ s ∈ [2, 3, 4, 5, 6], wordsAndMarks.Flat s := by
    intro s hs
    obtain ⟨harcs, hstop⟩ := hplain s hs
    exact ⟨fun arc harc => (harcs arc harc).1,
      fun arc harc x hx => Arc.accepts_eq_false (harcs arc harc).2 hx, hstop⟩
  have hstarts : wordsAndMarks.tokenRules = [2, 5] := by decide
  rw [hstarts]
  intro start hstart
  rcases List.mem_cons.1 hstart with rfl | hstart
  · refine .of_closed [2, 3, 4] (by decide) (by decide) ?_ (by decide) (by decide)
    exact fun s hs => hflat s (by revert s; decide)
  · obtain rfl := List.mem_singleton.1 hstart
    refine .of_closed [5, 6] (by decide) (by decide) ?_ (by decide) (by decide)
    exact fun s hs => hflat s (by revert s; decide)

/-- Of `ab-?c` both take a word and a mark and stop at the question mark. -/
theorem wordsAndMarks_scans_alike :
    ∃ a, wordsAndMarks.toAutomaton ⟨0x20, 0x7F⟩ = .ok a ∧
      wordsAndMarks.Munches wordsAndMarks.lexer Network.Reading ∧
      wordsAndMarks.lexer.scanner.scan (wordsAndMarks.lexer.start {} ['a', 'b', '-', '?', 'c']) =
        .ok ⟨[⟨some 1, 0, ['a', 'b'], 0⟩, ⟨some 2, 0, ['-'], 2⟩], some 3⟩ ∧
      (ruleScanner a wordThenMark).scan ⟨['a', 'b', '-', '?', 'c'], 0, none⟩ =
        .ok ⟨[⟨some 1, 0, ['a', 'b'], 0⟩, ⟨some 2, 0, ['-'], 2⟩], some 3⟩ := by
  have h : wordsAndMarks.toAutomaton ⟨0x20, 0x7F⟩ = .ok ⟨#[⟨0, [.epsilon 1, .epsilon 4]⟩,
      ⟨2, [.set [⟨97, 123⟩] 2]⟩, ⟨3, [.epsilon 1, .epsilon 3]⟩, ⟨4, []⟩,
      ⟨5, [.set [⟨32, 63⟩, ⟨64, 97⟩, ⟨123, 127⟩] 5]⟩, ⟨6, []⟩]⟩ := by
    cbv
  have hgives : wordsAndMarks.GivesAll wordThenMark :=
    .cons ⟨2, rfl, by decide, by decide, by decide, rfl⟩
      (.cons ⟨5, rfl, by decide, by decide, by decide, rfl⟩ .nil)
  have hl := Network.lexer_munches_of_converted h wordsAndMarks_flat hgives
  obtain ⟨scan, hlexer, hscan, -⟩ := Network.lexer_scans_as_rules hl h wordsAndMarks_flat hgives
    ['a', 'b', '-', '?', 'c'] (by simp [Interval.contains]) {}
  refine ⟨_, h, hl, ?_⟩
  have hvalue : scan = ⟨[⟨some 1, 0, ['a', 'b'], 0⟩, ⟨some 2, 0, ['-'], 2⟩], some 3⟩ := by
    refine Except.ok.inj (hscan.symm.trans ?_)
    cbv
  rw [hlexer, hscan, hvalue]
  exact ⟨rfl, rfl⟩

end Typeahead
