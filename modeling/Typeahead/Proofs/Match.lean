import Typeahead.Outcome
import Typeahead.Proofs.Reach
import Typeahead.Scanner.Rules

/-!
The longest match against paths. The states that a scanner keeps are those that paths spelling the
characters read so far lead to, so the length it ends with is that of the longest word at the front
of the text that leads to a state without moves; among rules, the earliest of the longest wins.
-/
namespace Typeahead

/-- The symbols that the characters of a text stand for. -/
def Text.codes (text : Text) : List Int := text.map fun c => (c.toNat : Int)

namespace Text

variable {t u : Text} {c : CodePoint}

@[simp] theorem codes_nil : codes [] = [] := rfl

@[simp] theorem codes_cons : codes (c :: t) = (c.toNat : Int) :: codes t := rfl

@[simp] theorem codes_append : codes (t ++ u) = codes t ++ codes u := List.map_append

theorem contains_codePoints (c : CodePoint) : Interval.codePoints.contains c.toNat = true := by
  have hlt : c.toNat < 0x110000 := c.isLt
  simp only [Interval.contains_iff, Interval.codePoints]
  omega

end Text

namespace Automaton

variable {a : Automaton} {entry t : Nat} {text v : Text} {current next : List Nat}

/-- The text leads from `entry` to a state without moves. -/
def Matches (a : Automaton) (entry : Nat) (text : Text) : Prop :=
  ∃ t, a.Path entry text.codes t ∧ a.isFinal t = true

/-- `n` is the length of the longest match that is no longer than `limit`; zero if there is none. -/
structure LongestWithin (a : Automaton) (entry : Nat) (text : Text) (limit n : Nat) : Prop where
  le : n ≤ limit
  matched : 0 < n → a.Matches entry (text.take n)
  longest : ∀ k ≤ limit, 0 < k → a.Matches entry (text.take k) → k ≤ n

theorem mem_consume_iff {x : Int} (h : a.consume current x = .ok next) :
    t ∈ next ↔ ∃ s ∈ current, ∃ m ∈ a.moves s, m.accepts x = true ∧ m.target = t := by
  simp only [consume] at h
  split at h
  · simp at h
  · injection h with h
    subst h
    simp only [List.mem_map, List.mem_filter, List.mem_flatMap]
    constructor
    · rintro ⟨m, ⟨⟨s, hs, hm⟩, hx⟩, rfl⟩
      exact ⟨s, hs, m, hm, hx, rfl⟩
    · rintro ⟨s, hs, m, hm, hx, rfl⟩
      exact ⟨m, ⟨⟨s, hs, hm⟩, hx⟩, rfl⟩

/-- Reading one more character keeps track of the paths. -/
theorem mem_closure_consume_iff {c : CodePoint} (hc : ∀ s, s ∈ current ↔ a.Path entry v.codes s)
    (h : a.consume current c.toNat = .ok next) :
    t ∈ a.closure next ↔ a.Path entry (v ++ [c]).codes t := by
  rw [mem_closure_iff, Text.codes_append, Text.codes_cons, Text.codes_nil, Path.concat_iff]
  constructor
  · rintro ⟨s, hs, hst⟩
    obtain ⟨q, hq, m, hm, hx, rfl⟩ := (mem_consume_iff h).1 hs
    exact ⟨q, (hc q).1 hq, m, hm, hx, hst⟩
  · rintro ⟨q, hq, m, hm, hx, hst⟩
    exact ⟨m.target, (mem_consume_iff h).2 ⟨q, (hc q).2 hq, m, hm, hx, rfl⟩, hst⟩

theorem LongestWithin.extend {limit n : Nat} (h : a.LongestWithin entry text limit n)
    (hno : ∀ k, limit < k → ¬ a.Matches entry (text.take k)) {limit' : Nat} (hle : limit ≤ limit') :
    a.LongestWithin entry text limit' n where
  le := Nat.le_trans h.le hle
  matched := h.matched
  longest k hk hpos hm := by
    by_cases hlim : k ≤ limit
    · exact h.longest k hlim hpos hm
    · exact absurd hm (hno k (Nat.lt_of_not_le hlim))

/-- One more character either ends a match, which is then the longest, or changes nothing. -/
theorem LongestWithin.succ {limit n : Nat} (h : a.LongestWithin entry text limit n) {b : Bool}
    (hb : b = true ↔ a.Matches entry (text.take (limit + 1))) :
    a.LongestWithin entry text (limit + 1) (if b then limit + 1 else n) := by
  cases b with
  | true => exact ⟨Nat.le_refl _, fun _ => hb.1 rfl, fun k hk _ _ => hk⟩
  | false =>
    refine ⟨Nat.le_succ_of_le h.le, h.matched, fun k hk hpos hm => ?_⟩
    rcases Nat.lt_or_eq_of_le hk with hlt | rfl
    · exact h.longest k (Nat.le_of_lt_succ hlt) hpos hm
    · exact absurd (hb.2 hm) (by simp)

theorem any_isFinal_iff (hc : ∀ s, s ∈ current ↔ a.Path entry v.codes s) :
    current.any a.isFinal = true ↔ a.Matches entry v := by
  simp only [List.any_eq_true, Matches, hc]

theorem matchFrom_longest {rest : Text} {best n : Nat}
    (hc : ∀ s, s ∈ current ↔ a.Path entry v.codes s)
    (hb : a.LongestWithin entry (v ++ rest) v.length best)
    (h : a.matchFrom current v.length best rest = .ok n) :
    a.LongestWithin entry (v ++ rest) (v ++ rest).length n := by
  induction rest generalizing v current best with
  | nil =>
    simp only [matchFrom, Except.ok.injEq] at h
    subst h
    simpa using hb
  | cons c rest ih =>
    simp only [matchFrom] at h
    split at h
    · -- No path spells what was read, so none spells more.
      rename_i hempty
      injection h with h
      subst h
      refine hb.extend ?_ (by simp)
      rintro k hk ⟨t, ht, -⟩
      rw [List.take_append, List.take_of_length_le (Nat.le_of_lt hk), Text.codes_append] at ht
      obtain ⟨s, hs, -⟩ := ht.split
      rw [List.isEmpty_iff.1 hempty] at hc
      exact List.not_mem_nil ((hc s).2 hs)
    · obtain ⟨next, hnext, h⟩ := Outcome.bind_eq_ok.1 h
      have hc' : ∀ s, s ∈ a.closure next ↔ a.Path entry (v ++ [c]).codes s := fun s =>
        mem_closure_consume_iff hc hnext
      have hsplit : v ++ c :: rest = v ++ [c] ++ rest := by simp
      have hlen : v.length + 1 = (v ++ [c]).length := by simp
      rw [hsplit] at hb ⊢
      have htake : (v ++ [c] ++ rest).take (v.length + 1) = v ++ [c] := by
        rw [hlen, List.take_left]
      have hb' := hb.succ (by rw [htake]; exact any_isFinal_iff hc')
      rw [hlen] at hb' h
      exact ih hc' hb' h

/-- The length that a rule's match is found to have is that of its longest match. -/
theorem longestMatch_longest {n : Nat} (h : a.longestMatch entry text = .ok n) :
    a.LongestWithin entry text text.length n := by
  have hc : ∀ s, s ∈ a.closure [entry] ↔ a.Path entry (Text.codes []) s := by
    intro s
    simp [mem_closure_iff]
  have hb : a.LongestWithin entry ([] ++ text) (List.length ([] : Text)) 0 := by
    refine ⟨Nat.le_refl _, fun h => absurd h (Nat.lt_irrefl _), fun k hk hpos _ => ?_⟩
    rw [List.length_nil] at hk
    omega
  exact matchFrom_longest hc hb h

/-- The longest match is the whole text exactly if the text is matched. -/
theorem eq_length_iff_matches {n : Nat} (h : a.longestMatch entry text = .ok n) (ht : text ≠ []) :
    n = text.length ↔ a.Matches entry text := by
  have hlong := longestMatch_longest h
  have hpos : 0 < text.length := List.length_pos_iff.2 ht
  constructor
  · rintro rfl
    simpa using hlong.matched hpos
  · intro hm
    exact Nat.le_antisymm hlong.le (hlong.longest _ (Nat.le_refl _) hpos (by rwa [List.take_length]))

end Automaton

namespace Match

variable {α : Type} {candidates : List (Option (Match α))} {m m' : Match α}

theorem ofLength?_of_pos {n : Nat} (x : α) (h : 0 < n) : ofLength? n x = some ⟨n, x, h⟩ := by
  simp [ofLength?, h]

theorem of_ofLength?_eq_some {n : Nat} {x : α} (h : ofLength? n x = some m) :
    m.length = n ∧ m.meaning = x := by
  simp only [ofLength?] at h
  split at h
  · injection h with h
    simp [← h]
  · simp at h

/-- The longer of two matches is not shorter than either. -/
theorem le_longer {x y z : Option (Match α)} (h : longer x y = z) (hm : x = some m ∨ y = some m) :
    ∃ m', z = some m' ∧ m.length ≤ m'.length := by
  subst h
  cases x with
  | none =>
    obtain rfl : y = some m := by simpa using hm
    exact ⟨m, rfl, Nat.le_refl _⟩
  | some mx =>
    cases y with
    | none =>
      obtain rfl : mx = m := by simpa using hm
      exact ⟨mx, rfl, Nat.le_refl _⟩
    | some my =>
      simp only [Option.some.injEq] at hm
      by_cases hlt : mx.length < my.length
      · refine ⟨my, by simp [longer, hlt], ?_⟩
        rcases hm with rfl | rfl <;> omega
      · refine ⟨mx, by simp [longer, hlt], ?_⟩
        rcases hm with rfl | rfl <;> omega

/-- The winner of a pass stood before it or is a candidate; it is longer than all before it and not
shorter than any after it. -/
theorem foldl_longer_eq_some {x : Option (Match α)} (h : candidates.foldl longer x = some m) :
    (x = some m ∧ ∀ m', some m' ∈ candidates → m'.length ≤ m.length) ∨
      ∃ before after, candidates = before ++ some m :: after ∧
        (∀ m', x = some m' ∨ some m' ∈ before → m'.length < m.length) ∧
        ∀ m', some m' ∈ after → m'.length ≤ m.length := by
  induction candidates generalizing x with
  | nil => exact Or.inl ⟨h, by simp⟩
  | cons y candidates ih =>
    rw [List.foldl_cons] at h
    rcases ih h with ⟨hxy, hle⟩ | ⟨before, after, rfl, hlt, hle⟩
    · cases x with
      | none =>
        refine Or.inr ⟨[], candidates, ?_, by simp, hle⟩
        simpa [longer] using hxy
      | some mx =>
        cases y with
        | none => exact Or.inl ⟨by simpa [longer] using hxy, by simpa using hle⟩
        | some my =>
          by_cases hxlt : mx.length < my.length
          · obtain rfl : my = m := by simpa [longer, hxlt] using hxy
            exact Or.inr ⟨[], candidates, rfl, by simpa using hxlt, hle⟩
          · obtain rfl : mx = m := by simpa [longer, hxlt] using hxy
            refine Or.inl ⟨rfl, fun m' hm' => ?_⟩
            rcases List.mem_cons.1 hm' with heq | hm'
            · injection heq with heq
              subst heq
              omega
            · exact hle m' hm'
    · refine Or.inr ⟨y :: before, after, rfl, fun m' hm' => ?_, hle⟩
      rw [List.mem_cons, eq_comm (a := some m'), ← or_assoc] at hm'
      rcases hm' with hm' | hm'
      · obtain ⟨z, hz, hle'⟩ := le_longer rfl hm'
        exact Nat.lt_of_le_of_lt hle' (hlt z (Or.inl hz))
      · exact hlt m' (Or.inr hm')

/-- The winner is a candidate, longer than all before it and not shorter than any after it. -/
theorem longest_eq_some (h : longest candidates = some m) :
    ∃ before after, candidates = before ++ some m :: after ∧
      (∀ m', some m' ∈ before → m'.length < m.length) ∧
      ∀ m', some m' ∈ after → m'.length ≤ m.length := by
  rcases foldl_longer_eq_some h with ⟨hx, -⟩ | ⟨before, after, heq, hlt, hle⟩
  · simp at hx
  · exact ⟨before, after, heq, fun m' hm' => hlt m' (Or.inr hm'), hle⟩

theorem mem_of_longest (h : longest candidates = some m) : some m ∈ candidates := by
  obtain ⟨before, after, rfl, -⟩ := longest_eq_some h
  simp

theorem le_of_longest (h : longest candidates = some m) (hm : some m' ∈ candidates) :
    m'.length ≤ m.length := by
  obtain ⟨before, after, rfl, hlt, hle⟩ := longest_eq_some h
  rw [List.mem_append, List.mem_cons] at hm
  rcases hm with hm | hm | hm
  · exact Nat.le_of_lt (hlt m' hm)
  · injection hm with hm
    exact Nat.le_of_eq (by rw [hm])
  · exact hle m' hm

theorem longest_ne_none (h : some m ∈ candidates) : longest candidates ≠ none := by
  suffices hx : ∀ x : Option (Match α), (∃ m, x = some m ∨ some m ∈ candidates) →
      candidates.foldl longer x ≠ none from hx none ⟨m, Or.inr h⟩
  clear h
  induction candidates with
  | nil => simp
  | cons y candidates ih =>
    rintro x ⟨m', hm'⟩
    apply ih
    rw [List.mem_cons, eq_comm (a := some m'), ← or_assoc] at hm'
    rcases hm' with hm' | hm'
    · obtain ⟨z, hz, -⟩ := le_longer rfl hm'
      exact ⟨z, Or.inl hz⟩
    · exact ⟨m', Or.inr hm'⟩

end Match

namespace RuleScan

variable {chars : Automaton} {rules : List Rule} {text : Text} {w : Option (Match Rule)}

/-- A winner is the longest of the rules' longest matches, all of which were determined. -/
theorem winner_eq_ok (h : winner chars rules text = .ok w) :
    ∃ found, Match.longest found = w ∧
      (∀ r ∈ rules, ∃ n, chars.longestMatch r.entry text = .ok n ∧ Match.ofLength? n r ∈ found) ∧
      ∀ m ∈ found, ∃ r ∈ rules, ∃ n, chars.longestMatch r.entry text = .ok n ∧
        Match.ofLength? n r = m := by
  obtain ⟨found, hf, hw⟩ := Outcome.bind_eq_ok.1 h
  injection hw with hw
  obtain ⟨hrules, hback⟩ := Outcome.mem_of_mapM_eq_ok hf
  refine ⟨found, hw, fun r hr => ?_, fun m hm => ?_⟩
  · obtain ⟨y, hy, hr⟩ := hrules r hr
    obtain ⟨n, hn, hr⟩ := Outcome.bind_eq_ok.1 hr
    injection hr with hr
    exact ⟨n, hn, hr ▸ hy⟩
  · obtain ⟨r, hr, hm⟩ := hback m hm
    obtain ⟨n, hn, hm⟩ := Outcome.bind_eq_ok.1 hm
    injection hm with hm
    exact ⟨r, hr, n, hn, hm⟩

/-- The winner at the front of a text comes from one of the rules, with its longest match. -/
theorem of_winner_eq_some {m : Match Rule} (h : winner chars rules text = .ok (some m)) :
    m.meaning ∈ rules ∧ chars.longestMatch m.meaning.entry text = .ok m.length := by
  obtain ⟨found, hw, -, hback⟩ := winner_eq_ok h
  obtain ⟨r, hr, n, hn, hm⟩ := hback (some m) (Match.mem_of_longest hw)
  obtain ⟨rfl, rfl⟩ := Match.of_ofLength?_eq_some hm
  exact ⟨hr, hn⟩

/-- If a rule matches a whole text, so does the winner at its front. -/
theorem winner_of_matches (h : winner chars rules text = .ok w) {r : Rule} (hr : r ∈ rules)
    (ht : text ≠ []) (hm : chars.Matches r.entry text) : ∃ m, w = some m ∧ m.length = text.length := by
  obtain ⟨found, hw, hrules, -⟩ := winner_eq_ok h
  obtain ⟨n, hn, hfound⟩ := hrules r hr
  have hlen : n = text.length := (Automaton.eq_length_iff_matches hn ht).2 hm
  have hpos : 0 < n := hlen ▸ List.length_pos_iff.2 ht
  rw [Match.ofLength?_of_pos r hpos] at hfound
  cases w with
  | none => exact absurd hw (Match.longest_ne_none hfound)
  | some m =>
    refine ⟨m, rfl, Nat.le_antisymm ?_ (hlen ▸ Match.le_of_longest hw hfound)⟩
    exact (chars.longestMatch_longest (of_winner_eq_some h).2).le

end RuleScan
end Typeahead
