import Mathlib
import Typeahead.Proofs.Threads

/-!
Calls of rules against paths. A lexer remembers where to go on after each rule that it has called; the
automaton of its network forgets that and follows the epsilon arcs out of a rule's stop states instead. If
there is such an arc to every place where a call of the rule goes on, then whatever a lexer can consume
between two states is spelled by a path between them.
-/
namespace Typeahead

variable {n : Network} {a : Automaton} {alphabet : Interval} {arc : Arc} {s u : Nat}
  {calls : List Nat} {base : Option Int} {t t' : Thread} {x : Int} {w : List Int} {text : Text}

namespace Arc

/-- Where to go on after the rule that the arc calls, if it calls one. -/
def follow? : Arc → Option Int
  | rule _ _ follow => some follow
  | _ => none

theorem follow?_of_accepts (h : arc.accepts alphabet x = true) : arc.follow? = none := by
  cases arc <;> simp_all [accepts, follow?]

end Arc

namespace Network

/-- The rule that the state with the given number belongs to. -/
def ruleOf (n : Network) (number : Int) : Option Int :=
  (number.toNat?.bind n.station?).map (·.rule)

/-- A stop state leads to every place where a call of its rule goes on. -/
def Returns (n : Network) (stop : Nat) : Prop :=
  ∀ s < n.stations.size, ∀ arc ∈ n.arcs s, n.ruleOf arc.target = n.ruleOf stop →
    ∀ f ∈ arc.follow?, .epsilon f ∈ n.arcs stop

set_option synthInstance.maxSize 256 in
instance : DecidablePred n.Returns := fun stop =>
  inferInstanceAs (Decidable (∀ s < n.stations.size, ∀ arc ∈ n.arcs s,
    n.ruleOf arc.target = n.ruleOf stop → ∀ f ∈ arc.follow?, .epsilon f ∈ n.arcs stop))

/-- Arcs that call nothing stay in their rule, a call goes on in the rule that makes it, and stop states
lead to where calls go on. Arcs out of stop states are not bound to their rule, nor are those of the state
where all token rules start, to which no arc leads. -/
structure Linked (n : Network) : Prop where
  within : ∀ s < n.stations.size, n.isStop s = false → s ≠ n.modeStart → ∀ arc ∈ n.arcs s,
    arc.follow? = none → n.ruleOf arc.target = n.ruleOf s
  apart : ∀ s < n.stations.size, ∀ arc ∈ n.arcs s, arc.target ≠ n.modeStart
  resumes : ∀ s < n.stations.size, ∀ arc ∈ n.arcs s, ∀ f ∈ arc.follow?, n.ruleOf f = n.ruleOf s
  returns : ∀ s < n.stations.size, n.isStop s = true → n.Returns s

/-- Runs of a lexer before the end of the text, and what they consume. -/
inductive Run (n : Network) : Thread → List Int → Thread → Prop where
  | refl (t : Thread) : Run n t [] t
  | silent {t u v : Thread} {w : List Int} (hu : u ∈ n.silent false t) (h : Run n u w v) :
      Run n t w v
  | consume {t u v : Thread} {x : Int} {w : List Int} (hu : u ∈ n.consume x t) (h : Run n u w v) :
      Run n t (x :: w) v

/-! ### The calls in progress -/

/-- Every call in progress is one into the rule in which the calls before it, or else the state itself,
stand; outside of all calls is the rule `base`. -/
inductive Nested (n : Network) (base : Option Int) : Nat → List Nat → Prop where
  | outside {s : Nat} (h : n.ruleOf s = base) : Nested n base s []
  | inside {s caller f : Nat} {arc : Arc} {calls : List Nat} (harc : arc ∈ n.arcs caller)
      (hf : arc.follow? = some (f : Int)) (hr : n.ruleOf arc.target = n.ruleOf s)
      (h : Nested n base f calls) : Nested n base s (f :: calls)

theorem Nested.congr (h : n.Nested base s calls) (hr : n.ruleOf u = n.ruleOf s) :
    n.Nested base u calls := by
  cases h with
  | outside hs => exact .outside (hr.trans hs)
  | inside harc hf hs h => exact .inside harc hf (hs.trans hr.symm) h

/-- The calls in progress behind an arc. -/
def Extends (arc : Arc) (calls calls' : List Nat) : Prop :=
  (arc.follow? = none ∧ calls' = calls) ∨ ∃ f : Nat, arc.follow? = some (f : Int) ∧ calls' = f :: calls

theorem lt_size_of_isStop (h : n.isStop s = true) : s < n.stations.size := by
  apply Nat.lt_of_not_le
  intro hle
  simp [isStop, station?, Array.getElem?_eq_none hle] at h

/-- An arc keeps the calls in progress in order. Only the state where all token rules start, in which
there are no calls, is left for another rule. -/
theorem Nested.follow (h : n.Nested base s calls) (hl : n.Linked)
    (hstart : s = n.modeStart → calls = []) (hstop : n.isStop s = false) (harc : arc ∈ n.arcs s)
    (hu : arc.target = u) {calls' : List Nat} (hc : Extends arc calls calls') :
    ∃ base', (s ≠ n.modeStart → base' = base) ∧ n.Nested base' u calls' := by
  have hs := lt_size_of_mem_arcs harc
  rcases hc with ⟨hf, rfl⟩ | ⟨f, hf, rfl⟩
  · by_cases hm : s = n.modeStart
    · obtain rfl := hstart hm
      exact ⟨n.ruleOf u, fun hne => absurd hm hne, .outside rfl⟩
    · exact ⟨base, fun _ => rfl, h.congr (hu ▸ hl.within s hs hstop hm arc harc hf)⟩
  · have hcaller : n.ruleOf f = n.ruleOf s := hl.resumes s hs arc harc f hf
    exact ⟨base, fun _ => rfl, .inside harc hf (by rw [hu]) (h.congr hcaller)⟩

/-- Where a rule returns from a call there is an epsilon arc. -/
theorem Nested.return {f : Nat} (h : n.Nested base s (f :: calls)) (hl : n.Linked)
    (hstop : n.isStop s = true) : .epsilon (f : Int) ∈ n.arcs s ∧ n.Nested base f calls := by
  cases h with
  | inside harc hf hr h =>
    refine ⟨?_, h⟩
    exact hl.returns s (lt_size_of_isStop hstop) hstop _ (lt_size_of_mem_arcs harc) _ harc hr _ hf

/-! ### Single moves -/

theorem pass_eq_some_of_not_end (h : t.pass false arc = some t') :
    arc.isSilent = true ∧ arc.target = t'.state ∧ Extends arc t.calls t'.calls := by
  cases arc with
  | epsilon target | predicate target | precedence target _ =>
    obtain ⟨s, hs, rfl⟩ := moveTo_eq_some.1 h
    exact ⟨rfl, hs, Or.inl ⟨rfl, rfl⟩⟩
  | rule target index follow =>
    simp only [Thread.pass, Option.bind_eq_bind, Option.bind_eq_some_iff, moveTo_eq_some,
      Int.mem_toNat?] at h
    obtain ⟨_, ⟨s, hs, rfl⟩, f, hf, h⟩ := h
    cases h
    exact ⟨rfl, hs, Or.inr ⟨f, by simpa [Arc.follow?] using hf, rfl⟩⟩
  | action target index action =>
    simp only [Thread.pass, Option.bind_eq_bind, Option.bind_eq_some_iff, moveTo_eq_some] at h
    obtain ⟨_, ⟨s, hs, rfl⟩, h⟩ := h
    cases h
    refine ⟨rfl, ?_, Or.inl ⟨rfl, ?_⟩⟩ <;> split <;> first | exact hs | rfl
  | _ => simp [Thread.pass] at h

/-- Without consuming anything a thread returns from a call or follows an arc that consumes nothing. -/
theorem silent_cases (h : t' ∈ n.silent false t) :
    (n.isStop t.state = true ∧ t.calls = t'.state :: t'.calls) ∨
      (n.isStop t.state = false ∧ ∃ arc ∈ n.arcs t.state, arc.isSilent = true ∧
        arc.target = t'.state ∧ Extends arc t.calls t'.calls) := by
  simp only [silent] at h
  split at h
  · rename_i hstop
    split at h
    · simp at h
    · rename_i f calls hcalls
      obtain rfl := List.mem_singleton.1 h
      exact Or.inl ⟨hstop, hcalls⟩
  · rename_i hstop
    obtain ⟨arc, harc, hpass⟩ := List.mem_filterMap.1 h
    exact Or.inr ⟨by simpa using hstop, arc, harc, pass_eq_some_of_not_end hpass⟩

theorem consume_cases (h : t' ∈ n.consume x t) :
    n.isStop t.state = false ∧ ∃ arc ∈ n.arcs t.state, arc.accepts .codePoints x = true ∧
      arc.target = t'.state ∧ Extends arc t.calls t'.calls := by
  simp only [consume] at h
  split at h
  · simp at h
  · rename_i hstop
    obtain ⟨arc, harc, hmove⟩ := List.mem_filterMap.1 h
    obtain ⟨harc, hx⟩ := List.mem_filter.1 harc
    obtain ⟨s, hs, rfl⟩ := moveTo_eq_some.1 hmove
    exact ⟨by simpa using hstop, arc, harc, hx, hs, Or.inl ⟨Arc.follow?_of_accepts hx, rfl⟩⟩

/-- What is consumed within the alphabet is consumed in the automaton. -/
theorem accepts_of_codePoints (h : arc.accepts .codePoints x = true)
    (hx : alphabet.contains x = true) : arc.accepts alphabet x = true := by
  cases arc <;> simp_all [Arc.accepts]

/-! ### Whole runs -/

/-- The calls of a thread are nested, and there are none where all token rules start. -/
structure Placed (n : Network) (base : Option Int) (t : Thread) : Prop where
  nested : n.Nested base t.state t.calls
  start : t.state = n.modeStart → t.calls = []

theorem Placed.move (h : n.Placed base t) (hl : n.Linked) (hstop : n.isStop t.state = false)
    (harc : arc ∈ n.arcs t.state) (htarget : arc.target = t'.state)
    (hc : Extends arc t.calls t'.calls) :
    t'.state ≠ n.modeStart ∧ ∃ base', (t.state ≠ n.modeStart → base' = base) ∧ n.Placed base' t' := by
  have happart : t'.state ≠ n.modeStart := fun heq =>
    hl.apart _ (lt_size_of_mem_arcs harc) arc harc (by rw [htarget, heq])
  obtain ⟨base', hbase, hn⟩ := h.nested.follow hl h.start hstop harc htarget hc
  exact ⟨happart, base', hbase, hn, fun heq => absurd heq happart⟩

theorem Placed.silent (h : n.Placed base t) (hl : n.Linked) (ht : t' ∈ n.silent false t) :
    (∃ arc ∈ n.arcs t.state, arc.isSilent = true ∧ arc.target = t'.state) ∧
      t'.state ≠ n.modeStart ∧
      ∃ base', (t.state ≠ n.modeStart → base' = base) ∧ n.Placed base' t' := by
  rcases silent_cases ht with ⟨hstop, hcalls⟩ | ⟨hstop, arc, harc, hsilent, htarget, hc⟩
  · obtain ⟨harc, hn⟩ := (hcalls ▸ h.nested).return hl hstop
    have happart : t'.state ≠ n.modeStart := fun heq =>
      hl.apart _ (lt_size_of_mem_arcs harc) _ harc (by rw [Arc.target, heq])
    exact ⟨⟨_, harc, rfl, rfl⟩, happart, base, fun _ => rfl, hn, fun heq => absurd heq happart⟩
  · exact ⟨⟨arc, harc, hsilent, htarget⟩, h.move hl hstop harc htarget hc⟩

/-- A run follows a path, and its calls stay nested. -/
theorem Run.path (hr : n.Run t w t') (hl : n.Linked) (h : n.Placed base t)
    (hw : ∀ x ∈ w, alphabet.contains x = true) :
    n.Path alphabet t.state w t'.state ∧
      ∃ base', (t.state ≠ n.modeStart → base' = base) ∧ n.Placed base' t' := by
  induction hr generalizing base with
  | refl t => exact ⟨.refl _, base, fun _ => rfl, h⟩
  | silent hu _ ih =>
    obtain ⟨⟨arc, harc, hsilent, htarget⟩, hne, base₁, hbase₁, h₁⟩ := h.silent hl hu
    obtain ⟨hpath, base', hbase', h'⟩ := ih h₁ hw
    exact ⟨.silent harc htarget hsilent hpath, base', fun hs => (hbase' hne).trans (hbase₁ hs), h'⟩
  | consume hu _ ih =>
    obtain ⟨hstop, arc, harc, hx, htarget, hc⟩ := consume_cases hu
    obtain ⟨hne, base₁, hbase₁, h₁⟩ := h.move hl hstop harc htarget hc
    obtain ⟨hpath, base', hbase', h'⟩ := ih h₁ fun y hy => hw y (List.mem_cons_of_mem _ hy)
    have haccepts := accepts_of_codePoints hx (hw _ List.mem_cons_self)
    exact ⟨.symbol harc htarget haccepts hpath, base', fun hs => (hbase' hne).trans (hbase₁ hs), h'⟩

/-! ### The threads that a lexer keeps -/

theorem Run.append {v : List Int} {u : Thread} (h : n.Run t v u) (h' : n.Run u w t') :
    n.Run t (v ++ w) t' := by
  induction h with
  | refl => exact h'
  | silent hu _ ih => exact .silent hu (ih h')
  | consume hu _ ih => exact .consume hu (ih h')

theorem run_of_mem_settle {threads : List Thread} (h : t' ∈ n.settle false threads) :
    ∃ t ∈ threads, n.Run t [] t' := by
  rcases Region.explore_sound h with hseen | ⟨t, ht, hfollows⟩
  · cases hseen
  · refine ⟨t, ht, ?_⟩
    clear ht
    induction hfollows using Relation.ReflTransGen.head_induction_on with
    | refl => exact .refl _
    | head hstep _ ih => exact .silent hstep.2 ih

/-- The threads of the token rules after the characters of a text. -/
def frontAfter (n : Network) (text : Text) : Front :=
  text.foldl (fun front c => n.advance c.toNat front) n.startFront

/-- Every thread that is kept for a token rule has got where it is by a run from the start of the rule. -/
theorem runs_frontAfter (n : Network) (text : Text) :
    List.Forall₂ (fun (start : Nat) threads => ∀ t ∈ threads, n.Run ⟨start, [], []⟩ text.codes t)
      n.tokenRules (n.frontAfter text) := by
  induction text using List.reverseRecOn with
  | nil =>
    rw [frontAfter, List.foldl_nil, startFront, List.forall₂_map_right_iff, List.forall₂_same]
    intro start _ t ht
    obtain ⟨t₀, ht₀, hrun⟩ := run_of_mem_settle ht
    obtain rfl := List.mem_singleton.1 ht₀
    exact hrun
  | append_singleton text c ih =>
    rw [frontAfter, List.foldl_append, List.foldl_cons, List.foldl_nil, ← frontAfter, advance,
      List.forall₂_map_right_iff]
    refine ih.imp fun start threads hthreads t ht => ?_
    have hnot : ((c.toNat : Int) == endSymbol) = false := beq_eq_false_iff_ne.2 (by simp [endSymbol])
    rw [hnot] at ht
    obtain ⟨t₁, ht₁, hrest⟩ := run_of_mem_settle ht
    obtain ⟨t₀, ht₀, hc⟩ := List.mem_flatMap.1 ht₁
    rw [Text.codes_append]
    exact (hthreads t₀ ht₀).append (.consume hc hrest)

/-! ### Runs and the automaton -/

/-- A run from a state outside of calls is spelled by a path of the automaton, and when it is outside of
calls again it is in the rule from which it started. -/
theorem Run.pathById {q : Nat} (hr : n.Run ⟨q, [], []⟩ w t) (h : n.toAutomaton alphabet = .ok a)
    (hl : n.Linked) (hq : (n.station? q).isSome = true)
    (hw : ∀ x ∈ w, alphabet.contains x = true) :
    a.PathById q w t.state ∧
      (q ≠ n.modeStart → t.calls = [] → n.ruleOf t.state = n.ruleOf q) := by
  obtain ⟨p, hp⟩ := exists_position? hq
  have hplaced : n.Placed (n.ruleOf q) ⟨q, [], []⟩ := ⟨.outside rfl, fun _ => rfl⟩
  obtain ⟨hpath, base, hbase, hend⟩ := hr.path hl hplaced hw
  refine ⟨hpath.pathById h hp, fun hne hcalls => ?_⟩
  obtain rfl := hbase hne
  have hnested := hend.nested
  rw [hcalls] at hnested
  cases hnested with
  | outside hrule => exact hrule

theorem station?_of_mem_tokenRules (h : n.toAutomaton alphabet = .ok a) {start : Nat}
    (hstart : start ∈ n.tokenRules) :
    (n.station? start).isSome = true ∧ ∃ arc ∈ n.arcs n.modeStart, arc.target = start := by
  obtain ⟨arc, harc, htarget⟩ := List.mem_filterMap.1 hstart
  have htarget : arc.target = start := Int.mem_toNat?.1 htarget
  have hmode : (n.station? n.modeStart).isSome = true := by
    cases hs : n.station? n.modeStart with
    | none => simp [arcs, hs] at harc
    | some station => rfl
  obtain ⟨p, hp⟩ := exists_position? hmode
  obtain ⟨m, -, u, hu, hpos, -⟩ := exists_move h hp harc
  obtain rfl := Int.ofNat_inj.1 (htarget.symm.trans hu)
  have hmem := List.mem_of_getElem? (position?_natCast.1 hpos)
  exact ⟨(List.mem_filter.1 hmem).2, arc, harc, htarget⟩

/-- Whatever a lexer consumes on a run with calls, from any state without calls in progress, is spelled by
a path of the automaton. What a token rule matches, that is, is spelled by a path from the start of the
rule to a stop state of the same rule. -/
theorem runs_spelled_by_paths (h : n.toAutomaton alphabet = .ok a) (hl : n.Linked) :
    (∀ (q : Nat) (w : List Int) (t : Thread), (n.station? q).isSome = true →
      (∀ x ∈ w, alphabet.contains x = true) → n.Run ⟨q, [], []⟩ w t →
      a.PathById q w t.state ∧
        (q ≠ n.modeStart → t.calls = [] → n.ruleOf t.state = n.ruleOf q)) ∧
    (∀ text : Text, (∀ c ∈ text, alphabet.contains c.toNat = true) →
      List.Forall₂ (fun (start : Nat) threads => ∀ t ∈ threads, n.isMatch t = true →
          a.PathById start text.codes t.state ∧ n.isStop t.state = true ∧
            n.ruleOf t.state = n.ruleOf start)
        n.tokenRules (n.frontAfter text)) := by
  refine ⟨fun q w t hq hw hr => hr.pathById h hl hq hw, fun text htext => ?_⟩
  have hcodes : ∀ x ∈ text.codes, alphabet.contains x = true := by
    intro x hx
    obtain ⟨c, hc, rfl⟩ := List.mem_map.1 hx
    exact htext c hc
  refine List.forall₂_iff_get.2 ⟨(runs_frontAfter n text).length_eq, fun i hi hi' t ht hmatch => ?_⟩
  obtain ⟨hstation, arc, harc, htarget⟩ := station?_of_mem_tokenRules h (List.get_mem n.tokenRules ⟨i, hi⟩)
  have hne : n.tokenRules.get ⟨i, hi⟩ ≠ n.modeStart := fun heq =>
    hl.apart _ (lt_size_of_mem_arcs harc) arc harc (by rw [htarget, heq])
  have hrun := (List.forall₂_iff_get.1 (runs_frontAfter n text)).2 i hi hi' t ht
  obtain ⟨hpath, hrule⟩ := hrun.pathById h hl hstation hcodes
  simp only [isMatch, Bool.and_eq_true, List.isEmpty_iff] at hmatch
  exact ⟨hpath, hmatch.1, hrule hne hmatch.2⟩

/-- Characters between any number of pairs of parentheses: the rule calls itself or the one for a
character. -/
def parentheses : Network where
  stations := #[some { place := .tokens, arcs := [.epsilon 1] },
    some { place := .start, arcs := [.atom 2 40] },
    some { arcs := [.rule 1 0 3, .rule 5 1 3] }, some { arcs := [.atom 4 41] },
    some { place := .stop, arcs := [.epsilon 3] },
    some { place := .start, rule := 1, arcs := [.notSet 6 (some [⟨40, 42⟩])] },
    some { place := .stop, rule := 1, arcs := [.epsilon 3] }]
  types := some [some 1, none]

theorem parentheses_spelled :
    ∃ a, parentheses.toAutomaton ⟨0x20, 0x7F⟩ = .ok a ∧
      a.PathById 1 (Text.codes ['(', '(', 'x', ')', ')']) 4 := by
  have h : parentheses.toAutomaton ⟨0x20, 0x7F⟩ = .ok ⟨#[⟨0, [.epsilon 1]⟩, ⟨1, [.atomic 40 2]⟩,
      ⟨2, [.epsilon 1, .epsilon 5]⟩, ⟨3, [.atomic 41 4]⟩, ⟨4, [.epsilon 3]⟩,
      ⟨5, [.set [⟨32, 40⟩, ⟨42, 127⟩] 6]⟩, ⟨6, [.epsilon 3]⟩]⟩ := by
    cbv
  have hl : parentheses.Linked := ⟨by decide, by decide, by decide, by decide⟩
  have hr : parentheses.Run ⟨1, [], []⟩ (Text.codes ['(', '(', 'x', ')', ')']) ⟨4, [], []⟩ :=
    .consume (u := ⟨2, [], []⟩) (by decide) <| .silent (u := ⟨1, [3], []⟩) (by decide) <|
    .consume (u := ⟨2, [3], []⟩) (by decide) <| .silent (u := ⟨5, [3, 3], []⟩) (by decide) <|
    .consume (u := ⟨6, [3, 3], []⟩) (by decide) <| .silent (u := ⟨3, [3], []⟩) (by decide) <|
    .consume (u := ⟨4, [3], []⟩) (by decide) <| .silent (u := ⟨3, [], []⟩) (by decide) <|
    .consume (by decide) (.refl _)
  exact ⟨_, h, ((runs_spelled_by_paths h hl).1 1 _ _ (by decide) (by decide) hr).1⟩

end Network
end Typeahead
