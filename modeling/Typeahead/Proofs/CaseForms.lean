import Typeahead.Proofs.Totality

/-!
A case preference loses no completion up to case. A character is dropped from a set only if the set also has
its form in the case that is asked for. That form is its own form in this case, so it is not dropped
itself. For every word that is completed without a preference there is then one of the same length under it
that has, at each place, the same character or the form that is asked for.
-/
namespace Typeahead.Text

/-! ### Case mappings -/

namespace CaseRun

variable {run other : CaseRun} {code : Nat}

theorem covers_iff : run.covers code = true ↔
    run.first ≤ code ∧ code ≤ run.last ∧ run.step ∣ code - run.first := by
  simp [covers, and_assoc, Nat.dvd_iff_mod_eq_zero]

theorem modEq_of_covers (h : run.covers code = true) : run.first ≡ code [MOD run.step] := by
  obtain ⟨hfirst, -, hstep⟩ := covers_iff.1 h
  exact (Nat.modEq_iff_dvd' hfirst).2 hstep

/-- No code point belongs to both runs. Either one ends before the other starts, or they keep pace and one
lies between the members of the other. -/
def apart (run other : CaseRun) : Bool :=
  -- All pairs of runs of a table are looked at, and the kernel computes `Nat.blt` in one step.
  Nat.blt run.last other.first || Nat.blt other.last run.first ||
    (run.first == run.last || run.step % other.step == 0) &&
      run.first % other.step != other.first % other.step

theorem covers_eq_false_of_apart (h : run.apart other = true) (hc : run.covers code = true) :
    other.covers code = false := by
  rw [Bool.eq_false_iff]
  intro hother
  obtain ⟨hfirst, hlast, -⟩ := covers_iff.1 hc
  obtain ⟨hfirst', hlast', -⟩ := covers_iff.1 hother
  simp only [apart, Bool.or_eq_true, Bool.and_eq_true, Nat.blt_eq, beq_iff_eq, bne_iff_ne] at h
  rcases h with (h | h) | ⟨hpace, h⟩
  · omega
  · omega
  · apply h
    have hrun : run.first ≡ code [MOD other.step] := by
      rcases hpace with hsingle | hpace
      · rw [show code = run.first by omega]
      · exact (modEq_of_covers hc).of_dvd (Nat.dvd_of_mod_eq_zero hpace)
    exact hrun.trans (modEq_of_covers hother).symm

/-- The code points to which those of a run are mapped. -/
def image (run : CaseRun) : CaseRun :=
  ⟨(run.first + run.shift).toNat, (run.last + run.shift).toNat, run.step, run.shift⟩

/-- The run is mapped to code points. -/
def staysInside (run : CaseRun) : Bool :=
  0 ≤ run.first + run.shift && run.image.last < 0x110000

theorem covers_image (h : run.staysInside = true) (hc : run.covers code = true) :
    run.image.covers (code + run.shift).toNat = true := by
  simp only [staysInside, Bool.and_eq_true, decide_eq_true_eq] at h
  obtain ⟨hfirst, hlast, hstep⟩ := covers_iff.1 hc
  refine covers_iff.2 ⟨?_, ?_, ?_⟩
  · exact Int.toNat_le_toNat (by omega)
  · exact Int.toNat_le_toNat (by omega)
  · simp only [image]
    rwa [show (code + run.shift).toNat - (run.first + run.shift).toNat = code - run.first by omega]

theorem lt_of_staysInside (h : run.staysInside = true) (hc : run.covers code = true) :
    (code + run.shift).toNat < 0x110000 := by
  obtain ⟨-, hlast, -⟩ := covers_iff.1 (covers_image h hc)
  simp only [staysInside, Bool.and_eq_true, decide_eq_true_eq] at h
  omega

end CaseRun

namespace CaseMap

variable {m : CaseMap} {c d : CodePoint}

/-- The code points in the tables of a mapping, an expansion as a run of its own. -/
def keys (m : CaseMap) : List CaseRun :=
  m.expansions.toList.map (fun e => ⟨e.1, e.1, 1, 0⟩) ++ m.runs.toList

theorem apply_eq_self (h : ∀ key ∈ m.keys, key.covers c.toNat = false) : m.apply c = [c] := by
  have hexpansions : m.expansions.find? (·.1 == c.toNat) = none := by
    rw [Array.find?_eq_none]
    intro e he heq
    have hkey := h ⟨e.1, e.1, 1, 0⟩ (List.mem_append_left _ (List.mem_map.2 ⟨e, by simpa, rfl⟩))
    simp_all [CaseRun.covers]
  have hruns : m.runs.find? (·.covers c.toNat) = none := by
    rw [Array.find?_eq_none]
    intro run hrun
    simp [h run (List.mem_append_right _ (by simpa))]
  rw [apply, hexpansions, hruns]

/-- No image is in the tables again: what a run is mapped to is not, and an expansion is no single
character. -/
def settled (m : CaseMap) : Bool :=
  m.expansions.toList.all (fun e => e.2.length != 1) &&
    m.runs.toList.all fun run => run.staysInside && m.keys.all run.image.apart

theorem apply_eq_self_of_settled (h : m.settled = true) (hd : m.apply c = [d]) :
    m.apply d = [d] := by
  simp only [settled, Bool.and_eq_true, List.all_eq_true, Array.mem_toList_iff, bne_iff_ne] at h
  obtain ⟨hlong, hruns⟩ := h
  have hform := hd
  rw [apply] at hform
  split at hform
  · -- An expansion is no single character.
    rename_i image hfind
    have hlen : image.length = 1 := by simpa using congrArg List.length hform
    exact absurd hlen (hlong _ (Array.mem_of_find?_eq_some hfind))
  · split at hform
    · -- What a run is mapped to is in none of the tables.
      rename_i run hfind
      obtain ⟨hinside, hapart⟩ := hruns run (Array.mem_of_find?_eq_some hfind)
      have hc := Array.find?_some hfind
      have hchar : d.toNat = (c.toNat + run.shift).toNat := by
        injection hform with hform
        rw [← hform, CodePoint.toNat_ofNat (CaseRun.lt_of_staysInside hinside hc)]
      apply apply_eq_self
      intro key hkey
      rw [hchar]
      exact CaseRun.covers_eq_false_of_apart (hapart key hkey) (CaseRun.covers_image hinside hc)
    · injection hform with hcd
      rwa [← hcd] at hd ⊢

end CaseMap

/-- A lower-case form that is one character is its own lower-case form. -/
theorem lower_eq_self {c d : CodePoint} (h : lower c = [d]) : lower d = [d] :=
  CaseMap.apply_eq_self_of_settled (by decide +kernel) h

/-- An upper-case form that is one character is its own upper-case form. -/
theorem upper_eq_self {c d : CodePoint} (h : upper c = [d]) : upper d = [d] :=
  CaseMap.apply_eq_self_of_settled (by decide +kernel) h

end Typeahead.Text

namespace Typeahead.Preference

variable {p : Preference} {m : Move} {c d : CodePoint}

/-! ### What stands for a dropped character -/

/-- The form of a character that is asked for. -/
def form : Preference → CodePoint → Text
  | .lower, c => Text.lower c
  | .upper, c => Text.upper c
  | .both, c => [c]

theorem form_eq_self (h : p.form c = [d]) : p.form d = [d] := by
  cases p with
  | lower => exact Text.lower_eq_self h
  | upper => exact Text.upper_eq_self h
  | both => rfl

theorem drops_eq_false (h : p.form c = [c]) : p.drops m c = false := by
  cases p with
  | lower => simp [drops, show Text.lower c = [c] from h]
  | upper => simp [drops, show Text.upper c = [c] from h]
  | both => rfl

theorem offers_of_drops (h : p.drops m c = true) : offers m (p.form c) = true := by
  cases p with
  | lower => exact (Bool.and_eq_true_iff.1 h).2
  | upper => exact (Bool.and_eq_true_iff.1 h).2
  | both => cases h

/-- A character is dropped only where the form that is asked for is kept. -/
theorem exists_kept_of_drops (h : p.drops m c = true) :
    ∃ d, p.form c = [d] ∧ m.accepts d.toNat = true ∧ p.drops m d = false := by
  have hoffers := offers_of_drops h
  unfold offers at hoffers
  split at hoffers
  · rename_i d hd
    exact ⟨d, hd, hoffers, drops_eq_false (form_eq_self hd)⟩
  · cases hoffers

/-- The same character, or its form that is asked for. -/
def Stands (p : Preference) (c d : CodePoint) : Prop := d = c ∨ p.form c = [d]

end Typeahead.Preference

namespace Typeahead.Completion

variable {chars : Automaton} {path : List Nat} {m : Move} {c : CodePoint} {w : Text} {s : Nat}

/-! ### Words up to case -/

theorem exists_reads (h : reads .both m c = true) (preference : Preference) :
    ∃ d, preference.Stands c d ∧ reads preference m d = true := by
  rw [reads_both] at h
  cases hd : reads preference m c with
  | true => exact ⟨c, Or.inl rfl, hd⟩
  | false =>
    cases m with
    | set intervals t =>
      have hdrops : preference.drops (.set intervals t) c = true := by simpa [reads, h] using hd
      obtain ⟨d, hform, haccepts, hkept⟩ := Preference.exists_kept_of_drops hdrops
      exact ⟨d, Or.inr hform, by simp [reads, haccepts, hkept]⟩
    | _ => simp [reads, h] at hd

/-- Along the way on which a word is spelled, one that stands for it is spelled under every preference. -/
theorem Spells.exists_stands (h : Spells chars .both path s w) (preference : Preference) :
    ∃ w', Spells chars preference path s w' ∧ List.Forall₂ preference.Stands w w' := by
  induction h with
  | final hs hf => exact ⟨[], .final hs hf, .nil⟩
  | silent hs hm _ ih =>
    obtain ⟨w', hw', hstands⟩ := ih
    exact ⟨w', .silent hs hm hw', hstands⟩
  | char hs hm hc _ ih =>
    obtain ⟨w', hw', hstands⟩ := ih
    obtain ⟨d, hd, hreads⟩ := exists_reads hc preference
    exact ⟨d :: w', .char hs hm hreads hw', .cons hd hstands⟩

variable {task : Task} {kinds : List Int}

theorem exists_stands_of_mem_words {preference : Preference} {ws ws' : List Text}
    (htyped : task.typed = []) (h : words { task with preference := .both } kinds = .ok ws)
    (h' : words { task with preference } kinds = .ok ws') (hw : w ∈ ws) :
    ∃ w' ∈ ws', List.Forall₂ preference.Stands w w' := by
  obtain ⟨hne, -, kind, hkind, entry, hentry, hspells⟩ := (mem_words_iff h).1 hw
  obtain ⟨w', hspells', hstands⟩ := hspells.exists_stands preference
  have hne' : w' ≠ [] := by
    rintro rfl
    exact hne (List.forall₂_nil_right_iff.1 hstands)
  refine ⟨w', (mem_words_iff h').2 ⟨hne', ?_, kind, hkind, entry, hentry, hspells'⟩, hstands⟩
  rw [htyped]
  exact agree_nil_left

/-! ### Completions up to case -/

/-- If nothing is typed, the completions are whole words. -/
theorem Readable.exists_complete_words (h : Readable task.chars) (htyped : task.typed = [])
    (preference : Preference) (kinds : List Int) :
    ∃ ws found, words { task with preference } kinds = .ok ws ∧
      (complete { task with preference } {} kinds).outcome = .ok found ∧ ∀ w, w ∈ found ↔ w ∈ ws := by
  have hread : Readable { task with preference }.chars := h
  obtain ⟨ws, hws, hfound⟩ := hread.exists_complete kinds
  refine ⟨ws, _, hws, hfound, fun w => ?_⟩
  simp [htyped, tail]

/-- If every move is understood, no label is too large for a character and nothing is typed, then there are
completions under either case preference, and each word that is completed without one is kept up to
case: a word of the same length is completed that at each place has the same character or its form in the
case that is asked for. -/
theorem completions_kept_up_to_case (hread : Readable task.chars) (htyped : task.typed = [])
    (kinds : List Int) :
    ∃ found lowers uppers,
      (complete { task with preference := .both } {} kinds).outcome = .ok found ∧
      (complete { task with preference := .lower } {} kinds).outcome = .ok lowers ∧
      (complete { task with preference := .upper } {} kinds).outcome = .ok uppers ∧
      ∀ w ∈ found,
        (∃ w' ∈ lowers, w'.length = w.length ∧
          List.Forall₂ (fun c d => d = c ∨ Text.lower c = [d]) w w') ∧
        (∃ w' ∈ uppers, w'.length = w.length ∧
          List.Forall₂ (fun c d => d = c ∨ Text.upper c = [d]) w w') := by
  obtain ⟨ws, found, hws, hfound, hmem⟩ := hread.exists_complete_words htyped .both kinds
  obtain ⟨wsl, lowers, hwsl, hlowers, hmeml⟩ := hread.exists_complete_words htyped .lower kinds
  obtain ⟨wsu, uppers, hwsu, huppers, hmemu⟩ := hread.exists_complete_words htyped .upper kinds
  refine ⟨found, lowers, uppers, hfound, hlowers, huppers, fun w hw => ⟨?_, ?_⟩⟩
  · obtain ⟨w', hw', hstands⟩ := exists_stands_of_mem_words htyped hws hwsl ((hmem w).1 hw)
    exact ⟨w', (hmeml w').2 hw', hstands.length_eq.symm, hstands⟩
  · obtain ⟨w', hw', hstands⟩ := exists_stands_of_mem_words htyped hws hwsu ((hmem w).1 hw)
    exact ⟨w', (hmemu w').2 hw', hstands.length_eq.symm, hstands⟩

/-- The task of completing `aX`, `ax` or `aY` from nothing. -/
def lettersMixed : Task where
  chars := ⟨#[⟨0, [.atomic 97 1]⟩, ⟨1, [.set [⟨88, 90⟩, ⟨120, 121⟩] 2]⟩, ⟨2, []⟩]⟩
  entry := fun kind => if kind = 1 then some 0 else none
  typed := []
  preference := .both

theorem aX_kept_up_to_case :
    Readable lettersMixed.chars ∧ lettersMixed.typed = [] ∧
      (complete lettersMixed {} [1, 2]).outcome = .ok [['a', 'X'], ['a', 'Y'], ['a', 'x']] ∧
      ∃ lowers, (complete { lettersMixed with preference := .lower } {} [1, 2]).outcome = .ok lowers ∧
        ∃ w' ∈ lowers, w'.length = 2 ∧
          List.Forall₂ (fun c d => d = c ∨ Text.lower c = [d]) (['a', 'X'] : Text) w' := by
  have hread : Readable lettersMixed.chars := readable_of_lt (by decide)
  have hcompleted :
      (complete lettersMixed {} [1, 2]).outcome = .ok [['a', 'X'], ['a', 'Y'], ['a', 'x']] := by
    cbv
  obtain ⟨found, lowers, uppers, hfound, hlowers, -, hkept⟩ :=
    completions_kept_up_to_case hread rfl [1, 2]
  have hmem : (['a', 'X'] : Text) ∈ found := by
    injection hcompleted.symm.trans hfound with heq
    simp [← heq]
  exact ⟨hread, rfl, hcompleted, lowers, hlowers, (hkept _ hmem).1⟩

end Typeahead.Completion
