import Mathlib
import Typeahead.Proofs.Division

/-!
Nothing is lost and nothing is invented. The tokens of a text are not empty, lie one behind the other from
its start on, and make up the text together with what is left over. However a scanner is called it hands
out these tokens in their order, and when it has none left it stays as it is.
-/
namespace Typeahead

/-! ### Calls in any order -/

namespace Scanner

variable {σ : Type} {sc : Scanner σ} {s s' : σ} {ts : List Token} {c : Call} {reply : Reply}

/-- The tokens that a reply hands out. -/
def Reply.handed : Reply → List Token
  | .token t => t.toList
  | .tokens ts => ts

/-- The reply to a call when nothing is left. -/
def Call.nothing : Call → Reply
  | .next => .token none
  | .all => .tokens []

/-- No token is left after this reply. -/
def Reply.isLast : Reply → Bool
  | .token (some _) => false
  | .token none | .tokens _ => true

/-- The scanner has no token left and stays as it is. -/
def Rests (sc : Scanner σ) (s : σ) : Prop := sc.next s = (.ok none, s)

/-- A scanner comes to rest as soon as it has no token left. -/
def Settles (sc : Scanner σ) : Prop := ∀ s s', sc.next s = (.ok none, s') → sc.Rests s'

theorem Rests.all (h : sc.Rests s) : sc.all s = (.ok [], s) := by
  rw [all_eq, h]

/-- Whatever is asked of a scanner at rest, there is nothing. -/
theorem Rests.replies (h : sc.Rests s) (calls : List Call) :
    sc.replies s calls = calls.map fun c => (.ok c.nothing, s) := by
  induction calls with
  | nil => rfl
  | cons c calls ih =>
    have hcall : sc.call s c = (.ok c.nothing, s) := by
      cases c with
      | next => rw [call, h]; rfl
      | all => rw [call, h.all]; rfl
    simp only [Scanner.replies, hcall, ih, List.map_cons]

/-- A scanner from which all tokens can be taken has come to its end, or it has a first token and all others
can be taken after it. -/
theorem all_eq_ok (h : sc.all s = (.ok ts, s')) :
    (ts = [] ∧ sc.next s = (.ok none, s')) ∨
      ∃ t us u, ts = t :: us ∧ sc.next s = (.ok (some t), u) ∧ sc.all u = (.ok us, s') := by
  rw [all_eq] at h
  split at h
  · cases h
  · rename_i u hnext
    cases h
    exact Or.inl ⟨rfl, hnext⟩
  · rename_i t u hnext
    injection h with hts hs
    obtain ⟨us, hus, rfl⟩ := Outcome.map_eq_ok.1 hts
    exact Or.inr ⟨t, us, u, rfl, hnext, Prod.ext hus hs⟩

theorem Settles.rests_of_all (hs : sc.Settles) (h : sc.all s = (.ok ts, s')) : sc.Rests s' := by
  induction ts generalizing s with
  | nil =>
    obtain ⟨-, hnext⟩ | ⟨t, us, u, hts, -⟩ := all_eq_ok h
    · exact hs s s' hnext
    · cases hts
  | cons t ts ih =>
    obtain ⟨hts, -⟩ | ⟨t', us, u, hts, -, hall⟩ := all_eq_ok h
    · cases hts
    · cases hts
      exact ih hall

/-- After its last token a scanner is at rest, whichever call it was. -/
theorem Settles.rests_of_isLast (hs : sc.Settles) (h : sc.call s c = (.ok reply, s'))
    (hlast : reply.isLast = true) : sc.Rests s' := by
  cases c with
  | next =>
    injection h with hreply hstate
    obtain ⟨t, ht, rfl⟩ := Outcome.map_eq_ok.1 hreply
    cases t with
    | none => exact hs s s' (Prod.ext ht hstate)
    | some t => cases hlast
  | all =>
    injection h with hreply hstate
    obtain ⟨ts, hts, -⟩ := Outcome.map_eq_ok.1 hreply
    exact hs.rests_of_all (Prod.ext hts hstate)

/-- One call hands out tokens from the front, and all others can be taken after it. -/
theorem Settles.call_of_all (hs : sc.Settles) (h : sc.all s = (.ok ts, s')) (c : Call) :
    ∃ reply u us, sc.call s c = (.ok reply, u) ∧ ts = reply.handed ++ us ∧ sc.all u = (.ok us, s') := by
  cases c with
  | next =>
    obtain ⟨rfl, hnext⟩ | ⟨t, us, u, rfl, hnext, hall⟩ := all_eq_ok h
    · exact ⟨.token none, s', [], by rw [call, hnext]; rfl, rfl, (hs s s' hnext).all⟩
    · exact ⟨.token (some t), u, us, by rw [call, hnext]; rfl, rfl, hall⟩
  | all =>
    refine ⟨.tokens ts, s', [], by rw [call, h]; rfl, by simp [Reply.handed], ?_⟩
    exact (hs.rests_of_all h).all

/-- However a scanner is called, no call fails and the tokens handed out are the first ones of all. -/
theorem Settles.replies_of_all (hs : sc.Settles) (h : sc.all s = (.ok ts, s')) (calls : List Call) :
    ∃ answers : List Reply, (sc.replies s calls).map (·.1) = answers.map .ok ∧
      answers.flatMap Reply.handed <+: ts := by
  induction calls generalizing s ts with
  | nil => exact ⟨[], rfl, List.nil_prefix⟩
  | cons c calls ih =>
    obtain ⟨reply, u, us, hcall, rfl, hall⟩ := hs.call_of_all h c
    obtain ⟨answers, heq, hpre⟩ := ih hall
    refine ⟨reply :: answers, ?_, ?_⟩
    · simp only [Scanner.replies, hcall, List.map_cons, heq]
    · rw [List.flatMap_cons]
      exact (List.prefix_append_right_inj _).2 hpre

end Scanner

/-! ### Tokens that cover a text -/

variable {chars tokens : Automaton} {rules : List Rule} {text rest : Text} {ts : List Token}
  {position : Nat}

/-- The tokens are not empty, lie one behind the other from `position` on, and make up the text with what is
left over. -/
structure Covers (position : Nat) (text : Text) (ts : List Token) (rest : Text) : Prop where
  nonempty : ∀ t ∈ ts, t.text ≠ []
  first : ∀ t ∈ ts.head?, t.start = position
  adjacent : List.IsChain (fun t u : Token => u.start = t.start + (t.text.length : Int)) ts
  whole : ts.flatMap (·.text) ++ rest = text

theorem Divides.covers (h : Divides chars rules position text ts rest) :
    Covers position text ts rest := by
  induction h with
  | stop => exact ⟨by simp, by simp, .nil, rfl⟩
  | @token position text rest m ts hne hw _ ih =>
    have hlen : (m.token position text).text.length = m.length := RuleScan.length_token_text hw
    refine ⟨?_, by simp [Match.token], ?_, ?_⟩
    · intro t ht
      rcases List.mem_cons.1 ht with rfl | ht
      · exact List.length_pos_iff.1 (hlen ▸ m.positive)
      · exact ih.nonempty t ht
    · refine List.isChain_cons.2 ⟨fun u hu => ?_, ih.adjacent⟩
      rw [ih.first u hu, hlen]
      rfl
    · rw [List.flatMap_cons, List.append_assoc, ih.whole]
      exact List.take_append_drop m.length text

theorem ruleScanner_settles (chars : Automaton) (rules : List Rule) :
    (ruleScanner chars rules).Settles := by
  intro s s' h
  have hstop : s'.stop.isSome = true := by
    simp only [ruleScanner, RuleScan.next] at h
    split at h
    · cases h
      assumption
    · split at h
      · cases h
        rfl
      · split at h <;> cases h
        rfl
  simp only [Scanner.Rests, ruleScanner, RuleScan.next, hstop, if_true]

/-- A text that can be scanned by rules is covered by its tokens and what is left over, and scanning stops
where the tokens end. However the scanner of the text is called, no call fails and the tokens that it hands
out are the first ones of these; once it has none left it replies so to every call and stays as it is. -/
theorem tokens_cover_text {initial : Option Nat} {r : Recognizer} {scan : Scan}
    (hr : Recognizer.ofRules chars tokens rules initial = .ok r) (h : r.scan text = .ok scan) :
    ∃ t, r.tokenize text = .ok t ∧ t.tokens = scan.tokens ∧ Covers 0 text t.tokens t.rest ∧
      scan.stop = some ((covered t.tokens : Nat) : Int) ∧
      (∀ calls, ∃ answers : List Scanner.Reply,
        ((ruleScanner chars rules).replies ⟨text, 0, none⟩ calls).map (·.1) = answers.map .ok ∧
          answers.flatMap Scanner.Reply.handed <+: t.tokens) ∧
      ∀ s c reply s', (ruleScanner chars rules).call s c = (.ok reply, s') → reply.isLast = true →
        ∀ later, (ruleScanner chars rules).replies s' later =
          later.map fun c => (.ok c.nothing, s') := by
  have hsettles := ruleScanner_settles chars rules
  obtain ⟨t, ht⟩ : ∃ t, r.tokenize text = .ok t := ⟨_, Outcome.map_eq_ok.2 ⟨scan, h, rfl⟩⟩
  have hd := (Recognizer.tokenize_eq_ok_iff hr).1 ht
  obtain ⟨-, hall⟩ := RuleScan.all_of_divides hd
  obtain ⟨-, -, -, hscan⟩ := Recognizer.of_ofRules_eq_ok hr
  simp only [hscan, Scanner.scan, hall] at h
  cases h
  refine ⟨t, ht, rfl, hd.covers, ?_, hsettles.replies_of_all hall, ?_⟩
  · simp [ruleScanner]
  · intro s c reply s' hcall hlast later
    exact (hsettles.rests_of_isLast hcall hlast).replies later

/-- A recognizer with one rule, for single small letters. -/
def letters : Except Fault Recognizer :=
  Recognizer.ofRules ⟨#[⟨0, [.set [⟨97, 123⟩] 1]⟩, ⟨1, []⟩]⟩ ⟨#[⟨0, []⟩]⟩
    [⟨1, "LETTER", 0, 0⟩] none

theorem letters_cover_front :
    ∃ r scan t, letters = .ok r ∧ r.scan ['a', 'b', '!', 'c'] = .ok scan ∧ scan.stop = some 2 ∧
      r.tokenize ['a', 'b', '!', 'c'] = .ok t ∧ Covers 0 ['a', 'b', '!', 'c'] t.tokens t.rest := by
  obtain ⟨r, hr⟩ : ∃ r, letters = .ok r := ⟨_, rfl⟩
  have hscan : r.scan ['a', 'b', '!', 'c'] =
      .ok ⟨[⟨some 1, 0, ['a'], 0⟩, ⟨some 1, 0, ['b'], 1⟩], some 2⟩ := by
    cases hr
    cbv
  obtain ⟨t, ht, -, hcovers, -⟩ := tokens_cover_text hr hscan
  exact ⟨r, _, t, hr, hscan, rfl, ht, hcovers⟩

end Typeahead
