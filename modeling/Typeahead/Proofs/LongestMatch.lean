import Mathlib
import Typeahead.Proofs.Lexing
import Typeahead.Proofs.Preservation
import Typeahead.Proofs.Sharing

/-!
What is relied on of the lexer that is generated for a network. At each position the token rule that can
consume most makes a token, the earliest one on ties; where no rule matches, an error is reported that
starts there. Over the converted network, flat rules win exactly where they win over the network itself.
The lexer that keeps the threads of all rules is one that can be relied on.
-/
namespace Typeahead

open Relation (ReflTransGen)

variable {n : Network} {a : Automaton} {alphabet alphabet' : Interval} {rules : List Rule} {r : Rule}
  {text w : Text} {s t start k : Nat}

/-- `S x k` says that `x` spans `k` characters. No candidate spans more than the winner does, and none
before it spans as much. -/
structure Winner {α : Type} (S : α → Nat → Prop) (candidates : List α) (x : α) (k : Nat) : Prop where
  spans : S x k
  longest : ∀ x' ∈ candidates, ∀ k', S x' k' → k' ≤ k
  earliest : ∃ before after, candidates = before ++ x :: after ∧ ∀ x' ∈ before, ¬ S x' k

theorem Winner.mem {α : Type} {S : α → Nat → Prop} {l : List α} {x : α} (h : Winner S l x k) :
    x ∈ l := by
  obtain ⟨before, after, rfl, -⟩ := h.earliest
  exact List.mem_append_right _ List.mem_cons_self

/-- Lists that are related can be split at the same place. -/
theorem forall₂_split {α β : Type} {R : α → β → Prop} {l : List α} {before after : List β} {y : β}
    (h : List.Forall₂ R l (before ++ y :: after)) :
    ∃ before' x after', l = before' ++ x :: after' ∧ R x y ∧ List.Forall₂ R before' before := by
  obtain ⟨x, after', hxy, -, hdrop⟩ :=
    List.forall₂_cons_right_iff.1 (List.forall₂_drop_append _ _ _ h)
  refine ⟨l.take before.length, x, after', ?_, hxy, List.forall₂_take_append _ _ _ h⟩
  rw [← hdrop, List.take_append_drop]

/-- Candidates in the same order that span the same have the same winner. -/
theorem Winner.exists_of_forall₂ {α β : Type} {S : α → Nat → Prop} {S' : β → Nat → Prop}
    {R : α → β → Prop} {l : List α} {l' : List β} {y : β} (hw : Winner S' l' y k)
    (h : List.Forall₂ R l l') (hspans : ∀ x y k, R x y → (S x k ↔ S' y k)) :
    ∃ x, R x y ∧ Winner S l x k := by
  obtain ⟨before, after, rfl, hno⟩ := hw.earliest
  obtain ⟨before', x, after', rfl, hxy, hbefore⟩ := forall₂_split h
  refine ⟨x, hxy, (hspans x y k hxy).2 hw.spans, ?_, before', after', rfl, ?_⟩
  · intro x' hx' k' hs
    obtain ⟨y', hy', hr⟩ := forall₂_exists_of_mem h hx'
    exact hw.longest y' hy' k' ((hspans x' y' k' hr).1 hs)
  · intro x' hx' hs
    obtain ⟨y', hy', hr⟩ := forall₂_exists_of_mem hbefore hx'
    exact hno y' hy' ((hspans x' y' k hr).1 hs)

theorem Rule.wins_iff_winner :
    r.Wins a rules text 0 k ↔ Winner (fun r k => r.Spans a text 0 k) rules r k :=
  ⟨fun h => ⟨h.spans, h.longest, h.earliest⟩, fun h => ⟨h.spans, h.longest, h.earliest⟩⟩

namespace Network

/-! ### What the token rules of a network can consume -/

/-- The rule that starts at `start` can consume `w`: it leads from there to the stop state `stop`. -/
structure Reads (n : Network) (start : Nat) (w : Text) (stop : Nat) : Prop where
  path : n.Path .codePoints start w.codes stop
  isStop : n.isStop stop = true

/-- The rule can consume `k` characters at the front of the text, which is one or more. -/
structure Spans (n : Network) (start : Nat) (text : Text) (k : Nat) : Prop where
  pos : 0 < k
  le : k ≤ text.length
  reads : ∃ stop, n.Reads start (text.take k) stop

/-- The rule can consume as much at the front of the text as any token rule, and no earlier one can
consume as much. -/
abbrev Wins (n : Network) (text : Text) (start k : Nat) : Prop :=
  Winner (fun start k => n.Spans start text k) n.tokenRules start k

/-- No token rule matches at the front of the text, not even without consuming anything. -/
def Idle (n : Network) (text : Text) : Prop :=
  ∀ start ∈ n.tokenRules, ∀ k stop, ¬ n.Reads start (text.take k) stop

/-- What is relied on of a lexer for a network with flat token rules. States are related to the text that
is still to be read and its position. What a lexer does after an error is left open, except that it comes
to an answer. -/
structure Munches {σ : Type} (n : Network) (l : Lexer σ) (reading : σ → Text → Nat → Prop) :
    Prop where
  /-- A text that is loaded is read from its front. -/
  load : ∀ s text, reading (l.load s text) text 0
  /-- The earliest of the rules that can consume most makes a token. It is of the kind of the rule to which
  the stop state belongs. -/
  token : ∀ s text position start k, reading s text position → n.Wins text start k →
    ∃ stop, n.Reads start (text.take k) stop ∧ ∀ kind, n.ownKind stop = .ok (some kind) →
      ∃ s', l.Answers s [] (some ⟨some kind, 0, text.take k, position⟩) s' ∧
        reading s' (text.drop k) (position + k)
  /-- Where no rule matches, an error is reported at the start of what was tried. -/
  error : ∀ s text position, reading s text position → text ≠ [] → n.Idle text →
    ∃ os answer s', l.Answers s (position :: os) answer s'
  /-- At the end of the text nothing more comes. -/
  ended : ∀ s position, reading s [] position → n.Idle [] →
    ∃ answer s', l.Answers s [] answer s' ∧ IsEnd answer

/-! ### Rules over the network and over its automaton -/

theorem contains_codePoints_of_mem (text : Text) :
    ∀ c ∈ text, Interval.codePoints.contains c.toNat = true :=
  fun c _ => Text.contains_codePoints c

/-- Paths depend on an alphabet only by which of the symbols it has. -/
theorem Path.congr {w : List Int} (hpath : n.Path alphabet s w t)
    (hw : ∀ x ∈ w, alphabet.contains x = alphabet'.contains x) : n.Path alphabet' s w t := by
  induction hpath with
  | refl s => exact .refl s
  | silent harc ht hsilent _ ih => exact .silent harc ht hsilent (ih hw)
  | symbol harc ht hx _ ih =>
    rw [Arc.accepts_congr (hw _ List.mem_cons_self)] at hx
    exact .symbol harc ht hx (ih fun x hx => hw x (List.mem_cons_of_mem _ hx))

theorem Path.leads {w : List Int} (hpath : n.Path alphabet s w t) : ReflTransGen n.Leads s t := by
  induction hpath with
  | refl => exact .refl
  | silent harc ht _ _ ih | symbol harc ht _ _ ih => exact .head ⟨_, harc, ht⟩ ih

theorem FlatRule.of_alphabet (hr : n.FlatRule alphabet start) : n.FlatRule alphabet' start where
  flat := hr.flat
  own := hr.own
  nonempty s hs := hr.nonempty s (hs.congr (by simp))

/-- A flat rule matches a word over the alphabet if and only if it does so after the conversion. -/
theorem FlatRule.exists_reads_iff (hr : n.FlatRule alphabet start) (hg : n.Gives start r)
    (h : n.toAutomaton alphabet = .ok a) (hw : ∀ c ∈ w, alphabet.contains c.toNat = true) :
    (∃ stop, n.Reads start w stop) ↔ a.Matches r.entry w := by
  have hcontains : ∀ x ∈ w.codes, alphabet.contains x = Interval.codePoints.contains x := by
    intro x hx
    obtain ⟨c, hc, rfl⟩ := List.mem_map.1 hx
    rw [hw c hc, Text.contains_codePoints]
  constructor
  · rintro ⟨stop, hpath, hstop⟩
    have hpath := hpath.congr fun x hx => (hcontains x hx).symm
    obtain ⟨p, hp⟩ := hpath.exists_position h hg.entry
    exact ⟨p, (path_iff h hg.entry hp).1 hpath,
      (isFinal_iff h hp).2 ((hr.flat _ hpath.leads).stop_iff.1 hstop)⟩
  · rintro ⟨p, hp, hfinal⟩
    obtain ⟨stop, hstop, hleads⟩ := exists_leads h hg.entry hp
    exact ⟨stop, ((path_iff h hg.entry hstop).2 hp).congr hcontains,
      (hr.flat stop hleads).stop_iff.2 ((isFinal_iff h hstop).1 hfinal)⟩

theorem FlatRule.spans_iff (hr : n.FlatRule alphabet start) (hg : n.Gives start r)
    (h : n.toAutomaton alphabet = .ok a) (htext : ∀ c ∈ text, alphabet.contains c.toNat = true) :
    n.Spans start text k ↔ r.Spans a text 0 k := by
  rw [Rule.spans_zero_iff,
    ← hr.exists_reads_iff hg h fun c hc => htext c (List.mem_of_mem_take hc)]
  exact ⟨fun hs => ⟨hs.pos, hs.le, hs.reads⟩, fun hs => ⟨hs.1, hs.2.1, hs.2.2⟩⟩

/-- Where one of the flat rules wins after the conversion, the token rule that it was made for wins. -/
theorem FlatRules.exists_wins (hrules : n.FlatRules alphabet rules)
    (h : n.toAutomaton alphabet = .ok a) (htext : ∀ c ∈ text, alphabet.contains c.toNat = true)
    (hw : r.Wins a rules text 0 k) :
    ∃ start, (n.FlatRule alphabet start ∧ n.Gives start r) ∧ n.Wins text start k :=
  (Rule.wins_iff_winner.1 hw).exists_of_forall₂ hrules fun _ _ _ hr => hr.1.spans_iff hr.2 h htext

/-- Where a flat token rule wins, the rule that was made for it wins after the conversion. -/
theorem FlatRules.exists_rule_wins (hrules : n.FlatRules alphabet rules)
    (h : n.toAutomaton alphabet = .ok a) (htext : ∀ c ∈ text, alphabet.contains c.toNat = true)
    (hw : n.Wins text start k) :
    ∃ r : Rule, (n.FlatRule alphabet start ∧ n.Gives start r) ∧ r.Wins a rules text 0 k := by
  have hflip := List.Forall₂.flip (R := flip fun start r => _) hrules
  obtain ⟨r, hr, hwins⟩ := hw.exists_of_forall₂ hflip fun _ _ _ hr =>
    (hr.1.spans_iff hr.2 h htext).symm
  exact ⟨r, hr, Rule.wins_iff_winner.2 hwins⟩

/-- Where none of the flat rules spans anything, no token rule matches. -/
theorem FlatRules.idle (hrules : n.FlatRules alphabet rules) (h : n.toAutomaton alphabet = .ok a)
    (htext : ∀ c ∈ text, alphabet.contains c.toNat = true)
    (hno : ∀ r ∈ rules, ∀ k, ¬ r.Spans a text 0 k) : n.Idle text := by
  intro start hstart k stop hreads
  obtain ⟨r, hr, hflat, hgives⟩ := forall₂_exists_of_mem hrules hstart
  by_cases hpos : (text.take k).length = 0
  · -- A match without characters would reach the stop state of the rule silently.
    rw [List.length_eq_zero_iff.1 hpos] at hreads
    have hstop := hflat.of_alphabet.nonempty stop hreads.path
    rw [hreads.isStop] at hstop
    cases hstop
  · refine hno r hr (text.take k).length ((hflat.spans_iff hgives h htext).1 ?_)
    rw [List.length_take] at hpos ⊢
    refine ⟨Nat.pos_of_ne_zero hpos, Nat.min_le_right _ _, stop, ?_⟩
    rwa [List.take_eq_take_min] at hreads

/-! ### The lexer that keeps threads -/

/-- At the end of the text the lexer ends, where a rule wins it makes a token, and where no rule
spans anything it reports an error there and goes on behind it. -/
theorem pull_cases (h : n.toAutomaton .codePoints = .ok a)
    (hrules : n.FlatRules .codePoints rules) (text : Text) (position : Nat) :
    (text = [] ∧ n.pull ⟨text, position, false⟩ = (.ended, ⟨text, position, true⟩)) ∨
      (∃ (r : Rule) (k : Nat), r.Wins a rules text 0 k ∧ 0 < r.kind ∧
        n.pull ⟨text, position, false⟩ =
          (.token ⟨some r.kind, r.channel, text.take k, position⟩,
            Cursor.read ⟨text, position, false⟩ k)) ∨
      (text ≠ [] ∧ (∀ r ∈ rules, ∀ k, ¬ r.Spans a text 0 k) ∧ ∃ k,
        n.pull ⟨text, position, false⟩ =
          (.report (Route.start.report position), Cursor.read ⟨text, position, false⟩ (k + 1))) := by
  obtain ⟨consumed, best, hattempt, hbest⟩ :=
    exists_attempt h hrules (contains_codePoints_of_mem text)
  cases best with
  | none =>
    by_cases hne : text = []
    · subst hne
      exact Or.inl ⟨rfl, by simp [pull, hattempt, Attempt.settled]⟩
    · refine Or.inr (Or.inr ⟨hne, hbest, consumed, ?_⟩)
      simp [pull, hattempt, Attempt.settled, hne]
  | some m =>
    obtain ⟨k, meaning⟩ := m
    obtain ⟨r, hwins, rfl⟩ := hbest
    obtain ⟨start, -, hg⟩ := hrules.exists_of_mem hwins.mem
    refine Or.inr (Or.inl ⟨r, k, hwins, hg.positive, ?_⟩)
    have hpos : k ≠ 0 := Nat.ne_of_gt hwins.spans.lt
    have hkind : r.kind ≠ skipKind := by
      have := hg.positive
      simp only [skipKind]
      omega
    have hlexeme : lexeme k text = text.take k := by
      cases text with
      | nil => exact absurd hwins.spans.le (Nat.not_le_of_lt hwins.spans.lt)
      | cons c text => rfl
    simp [pull, hattempt, Attempt.settled, hpos, hkind, hlexeme, hg.channel]

/-- Every request to the lexer is answered, also after an error. -/
theorem lexer_responds (h : n.toAutomaton .codePoints = .ok a)
    (hrules : n.FlatRules .codePoints rules) : n.lexer.Responds := by
  intro s
  induction hm : s.remaining using Nat.strongRecOn generalizing s with
  | ind m ih =>
    obtain ⟨text, position, ended⟩ := s
    cases ended with
    | true => exact ⟨[], none, _, .ended rfl⟩
    | false =>
      rcases pull_cases h hrules text position with
        ⟨-, heq⟩ | ⟨r, k, -, -, heq⟩ | ⟨-, -, k, heq⟩
      · exact ⟨[], none, _, .ended heq⟩
      · exact ⟨[], _, _, .token heq⟩
      · -- Behind the error there is less text left.
        obtain ⟨os, answer, s', hrest⟩ := ih _ (hm ▸ pull_lt heq rfl) _ rfl
        exact ⟨_, answer, s', .report heq (Lexer.offset_report _ _) hrest⟩

/-- What a cursor says of the text to be read. Its end was not seen unless nothing is left. -/
def Reading (c : Cursor) (text : Text) (position : Nat) : Prop :=
  c.rest = text ∧ c.position = position ∧ (c.ended = true → text = [])

/-- The lexer that keeps threads can be relied on if the token rules are flat. -/
theorem lexer_munches (h : n.toAutomaton .codePoints = .ok a)
    (hrules : n.FlatRules .codePoints rules) : n.Munches n.lexer Reading where
  load s text := ⟨rfl, rfl, nofun⟩
  token := by
    rintro ⟨text, position, ended⟩ _ _ start k ⟨rfl, rfl, hended⟩ hw
    have htext := contains_codePoints_of_mem text
    obtain ⟨r, ⟨hr, hg⟩, hwins⟩ := hrules.exists_rule_wins h htext hw
    have hne : text ≠ [] := by
      rintro rfl
      exact absurd hw.spans.le (Nat.not_le_of_lt hw.spans.pos)
    obtain rfl : ended = false := Bool.eq_false_iff.2 fun he => hne (hended he)
    obtain ⟨stop, hreads⟩ := hw.spans.reads
    refine ⟨stop, hreads, fun kind hkind => ?_⟩
    obtain rfl : kind = r.kind := by
      rw [hr.ownKind_eq hg hreads.path.leads hreads.isStop] at hkind
      cases hkind
      rfl
    rcases pull_cases h hrules text position with ⟨hnil, -⟩ | ⟨r', k', hwins', -, heq⟩ | ⟨-, hno, -⟩
    · exact absurd hnil hne
    · obtain ⟨rfl, rfl⟩ := hwins.unique hwins'
      rw [hg.channel] at heq
      exact ⟨_, .token heq, rfl, rfl, List.isEmpty_iff.1⟩
    · exact absurd hwins.spans (hno r hwins.mem k)
  error := by
    rintro ⟨text, position, ended⟩ _ _ ⟨rfl, rfl, hended⟩ hne hidle
    have htext := contains_codePoints_of_mem text
    obtain rfl : ended = false := Bool.eq_false_iff.2 fun he => hne (hended he)
    rcases pull_cases h hrules text position with ⟨hnil, -⟩ | ⟨r, k, hwins, -, -⟩ | ⟨-, -, k, heq⟩
    · exact absurd hnil hne
    · obtain ⟨start, -, hw⟩ := hrules.exists_wins h htext hwins
      obtain ⟨stop, hreads⟩ := hw.spans.reads
      exact absurd hreads (hidle start hw.mem k stop)
    · obtain ⟨os, answer, s', hrest⟩ := lexer_responds h hrules (Cursor.read ⟨text, position, false⟩ (k + 1))
      exact ⟨os, answer, s', .report heq (Lexer.offset_report _ _) hrest⟩
  ended := by
    rintro ⟨text, position, ended⟩ _ ⟨rfl, rfl, -⟩ hidle
    cases ended with
    | true => exact ⟨none, _, .ended rfl, nofun⟩
    | false =>
      rcases pull_cases h hrules [] position with
        ⟨-, heq⟩ | ⟨r, k, hwins, -, -⟩ | ⟨hne, -⟩
      · exact ⟨none, _, .ended heq, nofun⟩
      · exact absurd hwins.spans.le (Nat.not_le_of_lt hwins.spans.lt)
      · exact absurd rfl hne

end Network
end Typeahead
