import Mathlib
import Typeahead.Automaton.Builder
import Typeahead.Proofs.PrefixCode

/-!
Grammars of keywords. Each keyword is a rule of its own, a chain of new states with one move for each
character. Such a chain spells its keyword and nothing else under every case preference, so keywords of
which none starts as another form a prefix code, and the suggestions for a text are exactly the rests of
the keywords that may come next.
-/
namespace Typeahead

/-! ### Chains -/

/-- From `s` upwards there is one move for each character of a text, and then none. -/
inductive Chain (a : Automaton) : Nat → Text → Prop where
  | last {s : Nat} (hm : a.moves s = []) : Chain a s []
  | link {s t : Nat} {c : CodePoint} {w : Text} (hm : a.moves s = [.atomic c.toNat t]) (hlt : s < t)
      (ht : t < a.size) (h : Chain a t w) : Chain a s (c :: w)

/-- Every move reads one character. -/
def Lettered (a : Automaton) : Prop := ∀ s, ∀ m ∈ a.moves s, ∃ (c : CodePoint) (t : Nat), m = .atomic c.toNat t

theorem Lettered.readable {a : Automaton} (h : Lettered a) : Completion.Readable a := by
  intro s m hm
  obtain ⟨c, t, rfl⟩ := h s m hm
  refine ⟨rfl, ?_⟩
  have hlt : (c.toNat : Int) < Interval.codePoints.stop :=
    (Interval.contains_iff.1 (Text.contains_codePoints c)).2
  simp [Completion.oversized?, hlt]

namespace Chain

variable {a a' : Automaton} {s : Nat} {v w : Text}

/-- A chain stays where the moves of the states that there are stay. -/
theorem extend (h : Chain a s w) (hs : s < a.size) (hsize : a.size ≤ a'.size)
    (hmoves : ∀ t < a.size, a'.moves t = a.moves t) : Chain a' s w := by
  induction h with
  | last hm => exact .last ((hmoves _ hs).trans hm)
  | link hm hlt ht _ ih =>
    exact .link ((hmoves _ hs).trans hm) hlt (Nat.lt_of_lt_of_le ht hsize) (ih ht)

/-- A chain spells its text under every preference: its states go upwards, and its moves read single
characters. -/
theorem spells (h : Chain a s w) (preference : Preference) (path : List Nat)
    (hpath : ∀ t ∈ path, t < s) : Completion.Spells a preference path s w := by
  have hnot : ∀ {s : Nat} {path : List Nat}, (∀ t ∈ path, t < s) → s ∉ path := by
    intro s path hpath hmem
    exact Nat.lt_irrefl s (hpath s hmem)
  induction h generalizing path with
  | @last s hm => exact .final (hnot hpath) (by simp [Automaton.isFinal, hm])
  | @link s t c w hm hlt _ _ ih =>
    have hmem : Move.atomic c.toNat t ∈ a.moves s := by simp [hm]
    refine .char (hnot hpath) hmem (by simp [Completion.reads, Move.accepts]) (ih _ fun u hu => ?_)
    rcases List.mem_cons.1 hu with rfl | hu
    · exact hlt
    · exact Nat.lt_trans (hpath u hu) hlt

/-- Nothing but its text is matched along a chain. -/
theorem eq_of_matches (h : Chain a s w) (hv : a.Matches s v) : v = w := by
  induction h generalizing v with
  | @last s hm =>
    obtain ⟨q, hq, -⟩ := hv
    generalize hx : v.codes = x at hq
    cases hq with
    | refl => simpa [Text.codes] using hx
    | silent hmem => simp [hm] at hmem
    | symbol hmem => simp [hm] at hmem
  | @link s t c w hm _ _ _ ih =>
    obtain ⟨q, hq, hf⟩ := hv
    generalize hx : v.codes = x at hq
    cases hq with
    | refl => simp [Automaton.isFinal, hm] at hf
    | silent hmem => simp [hm] at hmem
    | symbol hmem hacc hrest =>
      obtain rfl : _ = Move.atomic c.toNat t := by simpa [hm] using hmem
      cases v with
      | nil => simp at hx
      | cons d v =>
        injection hx with hd hx
        subst hx
        have hcd : c.toNat = d.toNat := by simpa [Move.accepts, ← hd] using hacc
        rw [ih ⟨q, hrest, hf⟩, CodePoint.toNat_inj.1 hcd]

theorem matches_iff (h : Chain a s w) : a.Matches s v ↔ v = w := by
  constructor
  · exact h.eq_of_matches
  · rintro rfl
    exact (h.spells .both [] (by simp)).matches

end Chain

/-! ### Chains that a builder makes -/

namespace Builder

variable {b : Builder} {s t : Nat} {w : Text} {m : Move}

/-- The builder after one more character of a chain. -/
theorem literal_cons (b : Builder) (s : Nat) (c : CodePoint) (w : Text) : b.literal s (c :: w) =
    (b.newState.addMove s (.atomic c.toNat b.size)).literal b.size w := rfl

theorem size_le_literal (b : Builder) (s : Nat) (w : Text) : b.size ≤ (b.literal s w).2.size := by
  induction w generalizing b s with
  | nil => exact Nat.le_refl _
  | cons c w ih =>
    have := ih (b.newState.addMove s (.atomic c.toNat b.size)) b.size
    rw [literal_cons]
    simp only [size_addMove, size_newState] at this
    omega

/-- A chain changes the moves of no state but the one it starts from. -/
theorem moves_literal_of_ne (hs : s < b.size) (w : Text) (ht : t < b.size) (hne : t ≠ s) :
    (b.literal s w).2.automaton.moves t = b.automaton.moves t := by
  induction w generalizing b s with
  | nil => rfl
  | cons c w ih =>
    rw [literal_cons, ih (by simp) (by simp; omega) (by omega), moves_addMove (by simp; omega),
      if_neg hne, moves_newState]

theorem chain_literal (hs : s < b.size) (hm : b.automaton.moves s = []) (w : Text) :
    Chain (b.literal s w).2.automaton s w := by
  induction w generalizing b s with
  | nil => exact .last hm
  | cons c w ih =>
    have hnew : (b.newState.addMove s (.atomic c.toNat b.size)).automaton.moves b.size = [] := by
      rw [moves_addMove (by simp; omega), if_neg (by omega), moves_newState]
      exact b.automaton.moves_eq_nil (Nat.le_refl _)
    have hfirst : (b.newState.addMove s (.atomic c.toNat b.size)).automaton.moves s =
        [.atomic c.toNat b.size] := by
      rw [moves_addMove (by simp; omega), if_pos rfl, moves_newState, hm, List.nil_append]
    have hle := size_le_literal (b.newState.addMove s (.atomic c.toNat b.size)) b.size w
    simp only [size_addMove, size_newState] at hle
    rw [literal_cons]
    refine .link ?_ hs (by simpa using hle) (ih (by simp) hnew)
    rw [moves_literal_of_ne (by simp) w (by simp; omega) (by omega), hfirst]

theorem lettered_literal (hb : Lettered b.automaton) (hs : s < b.size) (w : Text) :
    Lettered (b.literal s w).2.automaton := by
  induction w generalizing b s with
  | nil => exact hb
  | cons c w ih =>
    rw [literal_cons]
    apply ih
    · intro t m hm
      rw [moves_addMove (by simp; omega), moves_newState] at hm
      split at hm
      · rcases List.mem_append.1 hm with hm | hm
        · exact hb t m hm
        · exact ⟨c, b.size, List.mem_singleton.1 hm⟩
      · exact hb t m hm
    · simp

end Builder

/-! ### Keywords -/

/-- A word that is a token of its own kind. -/
structure Keyword where
  kind : Int
  name : Text
  word : Text
deriving DecidableEq, Repr

/-- The rule has the kind of the keyword, and from its entry there is a chain for the word. -/
structure Keyword.Governs (chars : Automaton) (channel : Int) (k : Keyword) (r : Rule) : Prop where
  kind_eq : r.kind = k.kind
  channel_eq : r.channel = channel
  chain : Chain chars r.entry k.word

namespace Builder

/-- Adds a new state and a chain from it for each keyword; gives the rules that start there. -/
def keywords (b : Builder) (channel : Int) : List Keyword → List Rule × Builder
  | [] => ([], b)
  | k :: ks =>
    let (rules, b') := (b.newState.literal b.size k.word).2.keywords channel ks
    (⟨k.kind, k.name, b.size, channel⟩ :: rules, b')

variable {b : Builder} {channel : Int} {ks : List Keyword}

theorem keywords_frame (b : Builder) (channel : Int) (ks : List Keyword) :
    b.size ≤ (b.keywords channel ks).2.size ∧
      ∀ t < b.size, (b.keywords channel ks).2.automaton.moves t = b.automaton.moves t := by
  induction ks generalizing b with
  | nil => exact ⟨Nat.le_refl _, fun t _ => rfl⟩
  | cons k ks ih =>
    obtain ⟨hsize, hmoves⟩ := ih (b.newState.literal b.size k.word).2
    have hle := size_le_literal b.newState b.size k.word
    rw [size_newState] at hle
    refine ⟨by simp only [keywords]; omega, fun t ht => ?_⟩
    simp only [keywords]
    rw [hmoves t (by omega), moves_literal_of_ne (by simp) _ (by simp; omega) (by omega),
      moves_newState]

theorem map_kind_keywords (b : Builder) (channel : Int) (ks : List Keyword) :
    (b.keywords channel ks).1.map (·.kind) = ks.map (·.kind) := by
  induction ks generalizing b with
  | nil => rfl
  | cons k ks ih => exact congrArg (k.kind :: ·) (ih _)

/-- Keywords have rules, and rules come from keywords. -/
theorem governs_keywords (b : Builder) (channel : Int) (ks : List Keyword) :
    (∀ k ∈ ks, ∃ r ∈ (b.keywords channel ks).1,
      k.Governs (b.keywords channel ks).2.automaton channel r) ∧
    ∀ r ∈ (b.keywords channel ks).1, ∃ k ∈ ks,
      k.Governs (b.keywords channel ks).2.automaton channel r := by
  induction ks generalizing b with
  | nil => simp [keywords]
  | cons k ks ih =>
    obtain ⟨hrules, hkeywords⟩ := ih (b.newState.literal b.size k.word).2
    have hfirst : k.Governs (b.keywords channel (k :: ks)).2.automaton channel
        ⟨k.kind, k.name, b.size, channel⟩ := by
      have hnil : b.newState.automaton.moves b.size = [] := by
        rw [moves_newState]
        exact b.automaton.moves_eq_nil (Nat.le_refl _)
      have hle := size_le_literal b.newState b.size k.word
      rw [size_newState] at hle
      -- The chains of the keywords that follow leave this one as it is.
      obtain ⟨hsize, hmoves⟩ := keywords_frame (b.newState.literal b.size k.word).2 channel ks
      exact ⟨rfl, rfl, (chain_literal (by simp) hnil k.word).extend hle hsize hmoves⟩
    constructor
    · intro k' hk'
      rcases List.mem_cons.1 hk' with rfl | hk'
      · exact ⟨_, List.mem_cons_self, hfirst⟩
      · obtain ⟨r, hr, hg⟩ := hrules k' hk'
        exact ⟨r, List.mem_cons_of_mem _ hr, hg⟩
    · intro r hr
      rcases List.mem_cons.1 hr with rfl | hr
      · exact ⟨k, List.mem_cons_self, hfirst⟩
      · obtain ⟨k', hk', hg⟩ := hkeywords r hr
        exact ⟨k', List.mem_cons_of_mem _ hk', hg⟩

theorem lettered_empty : Lettered ({} : Builder).automaton := by
  intro s m hm
  simp [automaton, Automaton.moves] at hm

theorem lettered_keywords (hb : Lettered b.automaton) (channel : Int) (ks : List Keyword) :
    Lettered (b.keywords channel ks).2.automaton := by
  induction ks generalizing b with
  | nil => exact hb
  | cons k ks ih =>
    apply ih
    apply lettered_literal _ (by simp)
    intro s m hm
    exact hb s m (by simpa using hm)

/-- Keywords of which none starts as another form a prefix code. -/
theorem prefixCode_keywords (b : Builder) (channel : Int) (hne : ∀ k ∈ ks, k.word ≠ [])
    (hpre : ∀ k ∈ ks, ∀ k' ∈ ks, k.word <+: k'.word → k = k')
    (hkinds : (ks.map (·.kind)).Nodup) :
    PrefixCode (b.keywords channel ks).2.automaton (b.keywords channel ks).1 := by
  obtain ⟨-, hkeywords⟩ := b.governs_keywords channel ks
  constructor
  · intro r hr v hv
    obtain ⟨k, hk, hg⟩ := hkeywords r hr
    rw [hg.chain.eq_of_matches hv]
    exact hne k hk
  · intro r hr r' hr' v v' hv hv' hvv'
    obtain ⟨k, hk, hg⟩ := hkeywords r hr
    obtain ⟨k', hk', hg'⟩ := hkeywords r' hr'
    obtain rfl := hg.chain.eq_of_matches hv
    obtain rfl := hg'.chain.eq_of_matches hv'
    obtain rfl := hpre k hk k' hk' hvv'
    rw [← b.map_kind_keywords channel ks] at hkinds
    exact ⟨List.inj_on_of_nodup_map hkinds hr hr' (hg.kind_eq.trans hg'.kind_eq.symm), rfl⟩

end Builder

/-! ### Suggestions of keywords -/

namespace Suggester

variable {s : Suggester} {tokens : Automaton} {initial : Option Nat}

/-- There are suggestions for every text, and they are what is missing of the keywords that may come
next. -/
theorem keyword_suggestions_exact (ks : List Keyword) (hne : ∀ k ∈ ks, k.word ≠ [])
    (hpre : ∀ k ∈ ks, ∀ k' ∈ ks, k.word <+: k'.word → k = k')
    (hkinds : (ks.map (·.kind)).Nodup) (hd : tokens.DistinctIds) (hp : tokens.Plain)
    (hr : Recognizer.ofRules (Builder.keywords {} s.settings.channel ks).2.automaton tokens
      (Builder.keywords {} s.settings.channel ks).1 initial = .ok s.recognizer) (text : Text) :
    ∃ t l, s.recognizer.tokenize text = .ok t ∧ (s.suggest text).outcome = .ok l ∧
      ∀ c, c ∈ l ↔ ∃ k ∈ ks, t.rest ++ c = k.word ∧
        ∃ w q, t.tokens.map (·.kind) = w.map some ∧
          tokens.Path s.recognizer.initial (w ++ [k.kind]) q := by
  obtain ⟨hrules, hkeywords⟩ := Builder.governs_keywords {} s.settings.channel ks
  have hread := (Builder.lettered_keywords Builder.lettered_empty s.settings.channel ks).readable
  have hcode := Builder.prefixCode_keywords {} s.settings.channel hne hpre hkinds
  rw [← Builder.map_kind_keywords {} s.settings.channel] at hkinds
  have hch : ∀ r ∈ (Builder.keywords {} s.settings.channel ks).1,
      r.channel = s.settings.channel := by
    intro r hrule
    obtain ⟨k, -, hg⟩ := hkeywords r hrule
    exact hg.channel_eq
  have hspells : ∀ r ∈ (Builder.keywords {} s.settings.channel ks).1, ∀ v,
      (Builder.keywords {} s.settings.channel ks).2.automaton.Matches r.entry v →
        Completion.Spells (Builder.keywords {} s.settings.channel ks).2.automaton
          (.ofLabel s.label) [] r.entry v := by
    intro r hrule v hv
    obtain ⟨k, -, hg⟩ := hkeywords r hrule
    rw [hg.chain.eq_of_matches hv]
    exact hg.chain.spells _ [] (by simp)
  obtain ⟨t, l, ht, hl, hmem⟩ :=
    suggestions_of_prefixCode hr hkinds hd hp hcode hread hch hspells text
  refine ⟨t, l, ht, hl, fun c => ?_⟩
  rw [hmem]
  constructor
  · rintro ⟨r, hrule, hm, w, q, hw, hq⟩
    obtain ⟨k, hk, hg⟩ := hkeywords r hrule
    exact ⟨k, hk, hg.chain.eq_of_matches hm, w, q, hw, hg.kind_eq ▸ hq⟩
  · rintro ⟨k, hk, hword, w, q, hw, hq⟩
    obtain ⟨r, hrule, hg⟩ := hrules k hk
    exact ⟨r, hrule, hg.chain.matches_iff.2 hword, w, q, hw, hg.kind_eq.symm ▸ hq⟩

/-- The keywords `on`, `off` and `if`. -/
def switches : List Keyword :=
  [⟨1, "ON", ['o', 'n']⟩, ⟨2, "OFF", ['o', 'f', 'f']⟩, ⟨3, "IF", ['i', 'f']⟩]

/-- Any number of `on`, each followed by `off`. -/
def alternation : Automaton := ⟨#[⟨0, [.atomic 1 1]⟩, ⟨1, [.epsilon 2]⟩, ⟨2, [.set [⟨2, 3⟩] 0]⟩]⟩

/-- A suggester for these, which prefers small letters. -/
def switchboard : Suggester :=
  { plain (Builder.keywords {} 0 switches).2.automaton alternation
      (Builder.keywords {} 0 switches).1 with label := "LOWER" }

theorem off_completed_after_on :
    ∃ l, (switchboard.suggest ['o', 'n', 'o']).outcome = .ok l ∧ (['f', 'f'] : Text) ∈ l := by
  have hscan : switchboard.recognizer.tokenize ['o', 'n', 'o'] =
      .ok ⟨[⟨some 1, 0, ['o', 'n'], 0⟩], ['o']⟩ := by
    cbv
  obtain ⟨t, l, ht, hl, hmem⟩ := keyword_suggestions_exact (s := switchboard) switches
    (by decide) (by decide) (by decide)
    (Automaton.distinctIds_of_closed (by decide) (by decide)) (Automaton.plain_of_lt (by decide))
    (ofRules_plain (by decide) (by decide)) ['o', 'n', 'o']
  cases hscan.symm.trans ht
  refine ⟨l, hl, (hmem _).2 ⟨⟨2, "OFF", ['o', 'f', 'f']⟩, by decide, rfl, [1], 0, rfl, ?_⟩⟩
  exact .symbol (m := .atomic 1 1) (by decide) rfl
    (.silent (t := 2) (by decide)
      (.symbol (m := .set [⟨2, 3⟩] 0) (by decide) rfl (.refl 0)))

end Suggester
end Typeahead
