import Typeahead.Proofs.Preservation
import Typeahead.Recognizer.Generated

/-!
Making a recognizer of a generated lexer and parser. It succeeds exactly if both carry a network, all arcs of
both can be converted, the parser has a state to start from, and every rule of the lexer with a positive kind
has a start state. Otherwise the fault is that of the first of these that fails. What is made is closed: no
move leaves its automaton, no two states share an identifier, and a kind is entered where its first rule starts.
-/
namespace Typeahead

variable {n : Network} {a : Automaton} {alphabet : Interval} {arc : Arc} {fault : Fault} {p : Nat}

/-! ### Arcs that are refused -/

namespace Network

/-- Why an arc cannot be converted: it leads to no state, or else it is of a kind that is not known. -/
inductive Refuses (n : Network) : Arc → Fault → Prop where
  | astray {arc : Arc} (h : ¬ n.Has arc.target) : n.Refuses arc (.unknownKey (toString arc.target))
  | strange {target : Int} {shown : String} (h : n.Has target) :
      n.Refuses (.unknown target shown false) (.unexpectedMove shown "ATN conversion")

/-- Of all arcs, in the order of their states, the first that is refused is refused with the fault. -/
def FirstRefusal (n : Network) (fault : Fault) : Prop :=
  ∃ before arc after, n.numbers.flatMap n.arcs = before ++ arc :: after ∧
    (∀ earlier ∈ before, n.Has earlier.target ∧ earlier.isKnown = true) ∧ n.Refuses arc fault

theorem position_eq_error_iff {number : Int} : n.position number = .error fault ↔
    ¬ n.Has number ∧ fault = .unknownKey (toString number) := by
  rw [has_iff]
  unfold position
  cases n.position? number <;> simp [eq_comm]

theorem convertArc_eq_error_iff : n.convertArc alphabet arc = .error fault ↔ n.Refuses arc fault := by
  rw [convertArc, Outcome.bind_eq_error, position_eq_error_iff]
  constructor
  · rintro (⟨hno, rfl⟩ | ⟨p, hp, hmove⟩)
    · exact .astray hno
    · unfold Arc.toMove at hmove
      split at hmove <;> cases hmove
      exact .strange (has_iff.2 ⟨p, hp⟩)
  · rintro (hno | hhas)
    · exact Or.inl ⟨hno, rfl⟩
    · obtain ⟨p, hp⟩ := has_iff.1 hhas
      exact Or.inr ⟨p, hp, rfl⟩

/-- States are converted one after another, and the arcs of each: all arcs are converted in one row. -/
theorem mapM_convertStation_eq_error {l : List Nat} :
    l.mapM (n.convertStation alphabet) = .error fault ↔
      (l.flatMap n.arcs).mapM (n.convertArc alphabet) = .error fault := by
  induction l with
  | nil => simp [pure, Except.pure]
  | cons s l ih =>
    have hfirst : n.convertStation alphabet s = .error fault ↔
        (n.arcs s).mapM (n.convertArc alphabet) = .error fault := Outcome.bind_pure_eq_error
    have hok : (∃ node, n.convertStation alphabet s = .ok node) ↔
        ∃ moves, (n.arcs s).mapM (n.convertArc alphabet) = .ok moves := by
      constructor
      · rintro ⟨node, h⟩
        obtain ⟨moves, hmoves, -⟩ := Outcome.bind_eq_ok.1 h
        exact ⟨moves, hmoves⟩
      · rintro ⟨moves, hmoves⟩
        exact Outcome.exists_bind_eq_ok hmoves ⟨_, rfl⟩
    rw [List.flatMap_cons, Outcome.mapM_append_eq_error, Outcome.mapM_cons_eq_error, hfirst,
      exists_and_right, exists_and_right, hok, ih]

theorem toAutomaton_eq_error_iff : n.toAutomaton alphabet = .error fault ↔ n.FirstRefusal fault := by
  have hnodes : n.toAutomaton alphabet = .error fault ↔
      n.numbers.mapM (n.convertStation alphabet) = .error fault := Outcome.bind_pure_eq_error
  rw [hnodes, mapM_convertStation_eq_error, Outcome.mapM_eq_error_iff]
  simp only [exists_convertArc_iff, convertArc_eq_error_iff, FirstRefusal]

/-! ### Rules -/

/-- The kind of the tokens of a lexer's `i`-th rule. -/
def kindOf (n : Network) (i : Nat) : Option Int := (n.types.getD [])[i]?.join

/-- The number of the start state of the `i`-th rule. -/
def startOf (n : Network) (i : Nat) : Option Int := (n.starts.getD [])[i]?

/-- Every rule with a positive kind is in the table of start states. -/
def Entered (n : Network) : Prop := ∀ i k, n.kindOf i = some k → 0 < k → (n.startOf i).isSome = true

/-- The fault of asking for a rule that is not in the table of start states. -/
def startFault (n : Network) : Fault := if n.starts.isNone then .wrongType else .outOfRange

end Network

namespace GeneratedClass

variable {c : GeneratedClass} {role : String}

/-- The start states of the rules exist. -/
def StartsExist (c : GeneratedClass) : Prop :=
  ∀ n, c.network = some n → ∀ number ∈ n.starts.getD [], n.Has number

theorem require_eq_ok : c.require role = .ok n ↔ c.network = some n := by
  unfold require
  cases c.network <;> simp

theorem require_eq_error :
    c.require role = .error fault ↔ c.network = none ∧ fault = .noNetwork role c.shown := by
  unfold require
  cases c.network <;> simp [eq_comm]

end GeneratedClass

namespace Converted

variable {ruleNames : List Text} {startRule : Option Text} {number : Int}

/-! ### Where the parser starts -/

/-- The number of the state where the parser starts: at the rule that was asked for, else at the first rule,
else at the first state. -/
inductive StartsAt (parser : Network) (ruleNames : List Text) : Option Text → Int → Prop where
  | named {name : Text} {i : Nat} {number : Int} (hname : ruleNames.idxOf? name = some i)
      (hstart : parser.startOf i = some number) : StartsAt parser ruleNames (some name) number
  | first {number : Int} (hstart : parser.startOf 0 = some number) :
      StartsAt parser ruleNames none number
  | lowest {s : Nat} (hnone : parser.startOf 0 = none) (hs : parser.numbers.head? = some s) :
      StartsAt parser ruleNames none s

/-- Why there is no state where the parser starts. -/
inductive StartRefused (parser : Network) (ruleNames : List Text) : Option Text → Fault → Prop where
  | unknown {name : Text} (hname : name ∉ ruleNames) :
      StartRefused parser ruleNames (some name) (.unknownStartRule name)
  | outside {name : Text} {i : Nat} (hname : ruleNames.idxOf? name = some i)
      (hstart : parser.startOf i = none) : StartRefused parser ruleNames (some name) .outOfRange
  | empty (hnone : parser.startOf 0 = none) (hs : parser.numbers = []) :
      StartRefused parser ruleNames none .emptyNetwork

theorem StartsAt.startNumber_eq (h : StartsAt n ruleNames startRule number) :
    startNumber n ruleNames startRule = .ok number := by
  cases h with
  | named hname hstart =>
    rw [Network.startOf] at hstart
    simp [startNumber, hname, hstart]
  | first hstart =>
    obtain ⟨starts, hstarts⟩ := List.head?_eq_some_iff.1 (List.head?_eq_getElem?.trans hstart)
    simp [startNumber, hstarts]
  | lowest hnone hs =>
    obtain ⟨numbers, hnumbers⟩ := List.head?_eq_some_iff.1 hs
    have hstarts := List.head?_eq_none_iff.1 (List.head?_eq_getElem?.trans hnone)
    simp [startNumber, hstarts, hnumbers]

theorem StartRefused.startNumber_eq (h : StartRefused n ruleNames startRule fault) :
    startNumber n ruleNames startRule = .error fault := by
  cases h with
  | unknown hname => simp [startNumber, List.idxOf?_eq_none_iff.2 hname]
  | outside hname hstart =>
    rw [Network.startOf] at hstart
    simp [startNumber, hname, hstart]
  | empty hnone hs =>
    have hstarts := List.head?_eq_none_iff.1 (List.head?_eq_getElem?.trans hnone)
    simp [startNumber, hstarts, hs]

theorem startsAt_or_startRefused (n : Network) (ruleNames : List Text) (startRule : Option Text) :
    (∃ number, StartsAt n ruleNames startRule number) ∨ ∃ fault, StartRefused n ruleNames startRule fault := by
  cases startRule with
  | some name =>
    cases hname : ruleNames.idxOf? name with
    | none => exact Or.inr ⟨_, .unknown (List.idxOf?_eq_none_iff.1 hname)⟩
    | some i =>
      cases hstart : n.startOf i with
      | none => exact Or.inr ⟨_, .outside hname hstart⟩
      | some number => exact Or.inl ⟨number, .named hname hstart⟩
  | none =>
    cases hstart : n.startOf 0 with
    | some number => exact Or.inl ⟨number, .first hstart⟩
    | none =>
      cases hs : n.numbers with
      | nil => exact Or.inr ⟨_, .empty hstart hs⟩
      | cons s numbers => exact Or.inl ⟨s, .lowest hstart (by simp [hs])⟩

theorem startNumber_eq_ok_iff :
    startNumber n ruleNames startRule = .ok number ↔ StartsAt n ruleNames startRule number := by
  refine ⟨fun h => ?_, StartsAt.startNumber_eq⟩
  rcases startsAt_or_startRefused n ruleNames startRule with ⟨number', h'⟩ | ⟨fault, h'⟩
  · obtain rfl := Except.ok.inj (h.symm.trans h'.startNumber_eq)
    exact h'
  · cases h.symm.trans h'.startNumber_eq

theorem startNumber_eq_error_iff :
    startNumber n ruleNames startRule = .error fault ↔ StartRefused n ruleNames startRule fault := by
  refine ⟨fun h => ?_, StartRefused.startNumber_eq⟩
  rcases startsAt_or_startRefused n ruleNames startRule with ⟨number, h'⟩ | ⟨fault', h'⟩
  · cases h.symm.trans h'.startNumber_eq
  · obtain rfl := Except.error.inj (h.symm.trans h'.startNumber_eq)
    exact h'

theorem StartsAt.has (h : StartsAt n ruleNames startRule number)
    (hn : ∀ number ∈ n.starts.getD [], n.Has number) : n.Has number := by
  cases h with
  | named _ hstart => exact hn _ (List.mem_of_getElem? hstart)
  | first hstart => exact hn _ (List.mem_of_getElem? hstart)
  | lowest _ hs => exact ⟨_, List.mem_of_head? hs, rfl⟩

/-! ### Entries -/

variable {i j : Nat} {k : Int} {entries result : List (Int × Nat)} {types : List (Option Int)}

theorem ruleStart_of_startOf (h : n.startOf i = some number) : ruleStart n i = n.position number := by
  unfold Network.startOf at h
  unfold ruleStart
  cases hstarts : n.starts with
  | none => simp [hstarts] at h
  | some starts => simp [hstarts] at h; simp [h]

theorem ruleStart_of_none (h : n.startOf i = none) : ruleStart n i = .error n.startFault := by
  unfold Network.startOf at h
  unfold ruleStart Network.startFault
  cases hstarts : n.starts with
  | none => rfl
  | some starts =>
    rw [hstarts, Option.getD_some] at h
    simp [h]

/-- A rule without a positive kind adds no entry. -/
theorem entriesFrom_skip {type : Option Int} (h : ∀ k, type = some k → k ≤ 0) :
    entriesFrom n i entries (type :: types) = entriesFrom n (i + 1) entries types := by
  cases type with
  | none => rfl
  | some k => simp [entriesFrom, h k rfl]

theorem entriesFrom_enter (h : 0 < k) : entriesFrom n i entries (some k :: types) =
    ruleStart n i >>= fun start => entriesFrom n (i + 1)
      (if entries.any (·.1 == k) then entries else entries ++ [(k, start)]) types := by
  simp [entriesFrom, Int.not_le.2 h]

/-- Either the first of some rules adds no entry, or it has a positive kind. -/
theorem skips_or_enters (type : Option Int) :
    (∀ k, type = some k → k ≤ 0) ∨ ∃ k, type = some k ∧ 0 < k := by
  cases type with
  | none => exact Or.inl nofun
  | some k =>
    by_cases hk : 0 < k
    · exact Or.inr ⟨k, rfl, hk⟩
    · exact Or.inl fun k' h => Option.some.inj h ▸ Int.not_lt.1 hk

theorem exists_ruleStart_of_entriesFrom (h : entriesFrom n i entries types = .ok result)
    (htype : types[j]? = some (some k)) (hk : 0 < k) : ∃ p, ruleStart n (i + j) = .ok p := by
  induction types generalizing i j entries with
  | nil => simp at htype
  | cons type types ih =>
    rcases skips_or_enters type with hskip | ⟨k', rfl, hk'⟩
    · rw [entriesFrom_skip hskip] at h
      cases j with
      | zero => exact absurd (hskip k (by simpa using htype)) (Int.not_le.2 hk)
      | succ j =>
        rw [Nat.add_comm j, ← Nat.add_assoc]
        exact ih h (by simpa using htype)
    · rw [entriesFrom_enter hk'] at h
      obtain ⟨start, hstart, h⟩ := Outcome.bind_eq_ok.1 h
      cases j with
      | zero => exact ⟨start, hstart⟩
      | succ j =>
        rw [Nat.add_comm j, ← Nat.add_assoc]
        exact ih h (by simpa using htype)

theorem exists_of_entriesFrom_eq_error (h : entriesFrom n i entries types = .error fault) :
    ∃ j k, types[j]? = some (some k) ∧ 0 < k ∧ ruleStart n (i + j) = .error fault := by
  induction types generalizing i entries with
  | nil => cases h
  | cons type types ih =>
    rcases skips_or_enters type with hskip | ⟨k, rfl, hk⟩
    · rw [entriesFrom_skip hskip] at h
      obtain ⟨j, k, htype, hk, hstart⟩ := ih h
      exact ⟨j + 1, k, htype, hk, by rwa [Nat.add_comm j, ← Nat.add_assoc]⟩
    · rw [entriesFrom_enter hk] at h
      rcases Outcome.bind_eq_error.1 h with hstart | ⟨start, -, h⟩
      · exact ⟨0, k, rfl, hk, hstart⟩
      · obtain ⟨j, k', htype, hk', hstart⟩ := ih h
        exact ⟨j + 1, k', htype, hk', by rwa [Nat.add_comm j, ← Nat.add_assoc]⟩

/-- A kind that is entered keeps the entry it has. -/
theorem lookup_enter {k' : Int} {start : Nat} :
    (if entries.any (·.1 == k') then entries else entries ++ [(k', start)]).lookup k =
      (entries.lookup k).or (if k = k' then some start else none) := by
  by_cases hk : k = k'
  · subst hk
    by_cases hknown : entries.any (·.1 == k) = true
    · obtain ⟨entry, hentry, heq⟩ := List.any_eq_true.1 hknown
      have hsome : entries.lookup k ≠ none := fun hnone => by
        have := List.lookup_eq_none_iff.1 hnone entry hentry
        simp_all
      obtain ⟨p, hp⟩ := Option.ne_none_iff_exists'.1 hsome
      simp [hknown, hp]
    · simp [hknown, List.lookup_append]
  · have hbeq : (k == k') = false := beq_eq_false_iff_ne.2 hk
    split <;> simp [List.lookup_append, List.lookup_cons, hbeq]

/-- Where the first of some rules that has the kind starts; the rules are counted from `i`. -/
def firstEntry (n : Network) (i : Nat) (types : List (Option Int)) (k : Int) : Option Nat :=
  (types.idxOf? (some k)).bind fun j => (ruleStart n (i + j)).toOption

theorem firstEntry_self : firstEntry n i (some k :: types) k = (ruleStart n i).toOption := by
  simp [firstEntry, List.idxOf?_cons]

theorem firstEntry_of_ne {type : Option Int} (h : type ≠ some k) :
    firstEntry n i (type :: types) k = firstEntry n (i + 1) types k := by
  have hbeq : (type == some k) = false := beq_eq_false_iff_ne.2 h
  simp only [firstEntry, List.idxOf?_cons, hbeq]
  cases types.idxOf? (some k) with
  | none => rfl
  | some j => simp [Nat.add_comm j, Nat.add_assoc]

/-- A kind without an entry gets that of its first rule, if the kind is positive. -/
theorem lookup_entriesFrom (h : entriesFrom n i entries types = .ok result) (k : Int) :
    result.lookup k = (entries.lookup k).or (if 0 < k then firstEntry n i types k else none) := by
  induction types generalizing i entries with
  | nil =>
    cases h
    simp [firstEntry]
  | cons type types ih =>
    rcases skips_or_enters type with hskip | ⟨k', rfl, hk'⟩
    · rw [entriesFrom_skip hskip] at h
      rw [ih h]
      by_cases hk : 0 < k
      · have hne : type ≠ some k := fun heq => Int.not_le.2 hk (hskip k heq)
        rw [if_pos hk, if_pos hk, firstEntry_of_ne hne]
      · rw [if_neg hk, if_neg hk]
    · rw [entriesFrom_enter hk'] at h
      obtain ⟨start, hstart, h⟩ := Outcome.bind_eq_ok.1 h
      rw [ih h, lookup_enter, Option.or_assoc]
      by_cases hk : k = k'
      · subst hk
        rw [if_pos rfl, if_pos hk', if_pos hk', firstEntry_self, hstart]
        rfl
      · have hne : some k' ≠ some k := fun heq => hk (Option.some.inj heq).symm
        rw [if_neg hk, firstEntry_of_ne hne]
        rfl

theorem exists_ruleStart_iff (hn : ∀ number ∈ n.starts.getD [], n.Has number) :
    (∃ p, ruleStart n i = .ok p) ↔ (n.startOf i).isSome = true := by
  cases hstart : n.startOf i with
  | none => simp [ruleStart_of_none hstart]
  | some number =>
    rw [ruleStart_of_startOf hstart]
    simpa using Network.has_iff.1 (hn number (List.mem_of_getElem? hstart))

theorem kindOf_eq_some_iff : n.kindOf i = some k ↔ (n.types.getD [])[i]? = some (some k) :=
  Option.join_eq_some_iff

theorem exists_entriesFrom_iff (hn : ∀ number ∈ n.starts.getD [], n.Has number) :
    (∃ result, entriesFrom n 0 [] (n.types.getD []) = .ok result) ↔ n.Entered := by
  constructor
  · rintro ⟨result, h⟩ i k hkind hk
    have hstart := exists_ruleStart_of_entriesFrom h (kindOf_eq_some_iff.1 hkind) hk
    rw [Nat.zero_add] at hstart
    exact (exists_ruleStart_iff hn).1 hstart
  · intro hentered
    cases h : entriesFrom n 0 [] (n.types.getD []) with
    | ok result => exact ⟨result, rfl⟩
    | error fault =>
      obtain ⟨i, k, hkind, hk, hstart⟩ := exists_of_entriesFrom_eq_error h
      obtain ⟨p, hp⟩ := (exists_ruleStart_iff hn).2 (hentered i k (kindOf_eq_some_iff.2 hkind) hk)
      rw [Nat.zero_add, hp] at hstart
      cases hstart

theorem entriesFrom_eq_error_iff (hn : ∀ number ∈ n.starts.getD [], n.Has number) :
    entriesFrom n 0 [] (n.types.getD []) = .error fault ↔ ¬ n.Entered ∧ fault = n.startFault := by
  rw [← exists_entriesFrom_iff hn]
  cases h : entriesFrom n 0 [] (n.types.getD []) with
  | ok result => simp
  | error fault' =>
    obtain ⟨i, k, -, -, hstart⟩ := exists_of_entriesFrom_eq_error h
    have hnone : n.startOf (0 + i) = none := by
      rw [← Option.not_isSome_iff_eq_none, ← exists_ruleStart_iff hn]
      rintro ⟨p, hp⟩
      cases hp.symm.trans hstart
    obtain rfl := Except.error.inj (hstart.symm.trans (ruleStart_of_none hnone))
    simp [eq_comm]

/-! ### All together -/

variable {lexer parser : GeneratedClass} {c : Converted}

/-- All that making a recognizer asks for. -/
def Accepted (lexer parser : GeneratedClass) (startRule : Option Text) : Prop :=
  ∃ l p, lexer.network = some l ∧ parser.network = some p ∧ l.Convertible ∧ p.Convertible ∧
    (∃ number, StartsAt p parser.ruleNames startRule number) ∧ l.Entered

/-- The fault of the first thing asked for that is missing. -/
inductive Refused (lexer parser : GeneratedClass) (startRule : Option Text) : Fault → Prop where
  | bareLexer (hl : lexer.network = none) :
      Refused lexer parser startRule (.noNetwork "lexer" lexer.shown)
  | bareParser {l : Network} (hl : lexer.network = some l) (hp : parser.network = none) :
      Refused lexer parser startRule (.noNetwork "parser" parser.shown)
  | lexerArc {l p : Network} {fault : Fault} (hl : lexer.network = some l)
      (hp : parser.network = some p) (h : l.FirstRefusal fault) : Refused lexer parser startRule fault
  | parserArc {l p : Network} {fault : Fault} (hl : lexer.network = some l)
      (hp : parser.network = some p) (hlc : l.Convertible) (h : p.FirstRefusal fault) :
      Refused lexer parser startRule fault
  | start {l p : Network} {fault : Fault} (hl : lexer.network = some l)
      (hp : parser.network = some p) (hlc : l.Convertible) (hpc : p.Convertible)
      (h : StartRefused p parser.ruleNames startRule fault) : Refused lexer parser startRule fault
  | entry {l p : Network} {number : Int} (hl : lexer.network = some l)
      (hp : parser.network = some p) (hlc : l.Convertible) (hpc : p.Convertible)
      (hs : StartsAt p parser.ruleNames startRule number) (h : ¬ l.Entered) :
      Refused lexer parser startRule l.startFault

/-- What a recognizer is made of. -/
theorem make_eq_ok_iff : make alphabet lexer parser startRule = .ok c ↔
    ∃ l p number, lexer.network = some l ∧ parser.network = some p ∧
      l.toAutomaton alphabet = .ok c.chars ∧ p.toAutomaton ⟨1, p.maxKind + 1⟩ = .ok c.tokens ∧
      StartsAt p parser.ruleNames startRule number ∧ p.position number = .ok c.initial ∧
      entriesFrom l 0 [] (l.types.getD []) = .ok c.entries ∧ c.ruleNames = parser.ruleNames := by
  simp only [make, Outcome.bind_eq_ok, GeneratedClass.require_eq_ok, startNumber_eq_ok_iff]
  constructor
  · rintro ⟨l, hl, p, hp, chars, hchars, tokens, htokens, number, hnumber, initial, hinitial, entries,
      hentries, h⟩
    cases h
    exact ⟨l, p, number, hl, hp, hchars, htokens, hnumber, hinitial, hentries, rfl⟩
  · rintro ⟨l, p, number, hl, hp, hchars, htokens, hnumber, hinitial, hentries, hnames⟩
    refine ⟨l, hl, p, hp, _, hchars, _, htokens, number, hnumber, _, hinitial, _, hentries, ?_⟩
    rw [← hnames]
    rfl

theorem exists_make_iff (hl : lexer.StartsExist) (hp : parser.StartsExist) :
    (∃ c, make alphabet lexer parser startRule = .ok c) ↔ Accepted lexer parser startRule := by
  constructor
  · rintro ⟨c, h⟩
    obtain ⟨l, p, number, hlex, hpar, hchars, htokens, hnumber, -, hentries, -⟩ := make_eq_ok_iff.1 h
    exact ⟨l, p, hlex, hpar, Network.exists_toAutomaton_iff.1 ⟨_, hchars⟩,
      Network.exists_toAutomaton_iff.1 ⟨_, htokens⟩, ⟨number, hnumber⟩,
      (exists_entriesFrom_iff (hl l hlex)).1 ⟨_, hentries⟩⟩
  · rintro ⟨l, p, hlex, hpar, hlc, hpc, ⟨number, hnumber⟩, hentered⟩
    obtain ⟨chars, hchars⟩ : ∃ a, l.toAutomaton alphabet = .ok a := Network.exists_toAutomaton_iff.2 hlc
    obtain ⟨tokens, htokens⟩ : ∃ a, p.toAutomaton ⟨1, p.maxKind + 1⟩ = .ok a :=
      Network.exists_toAutomaton_iff.2 hpc
    obtain ⟨initial, hinitial⟩ := Network.has_iff.1 (hnumber.has (hp p hpar))
    obtain ⟨entries, hentries⟩ := (exists_entriesFrom_iff (hl l hlex)).2 hentered
    exact ⟨⟨chars, tokens, initial, parser.ruleNames, entries⟩, make_eq_ok_iff.2
      ⟨l, p, number, hlex, hpar, hchars, htokens, hnumber, hinitial, hentries, rfl⟩⟩

theorem make_eq_error_iff (hl : lexer.StartsExist) (hp : parser.StartsExist) :
    make alphabet lexer parser startRule = .error fault ↔ Refused lexer parser startRule fault := by
  simp only [make, Outcome.bind_eq_error, GeneratedClass.require_eq_ok, GeneratedClass.require_eq_error,
    Network.toAutomaton_eq_error_iff, startNumber_eq_ok_iff, startNumber_eq_error_iff,
    Network.position_eq_error_iff]
  constructor
  · rintro (⟨hlex, rfl⟩ | ⟨l, hlex, ⟨hpar, rfl⟩ | ⟨p, hpar, h | ⟨chars, hchars, h | ⟨tokens, htokens, h |
      ⟨number, hnumber, ⟨hno, -⟩ | ⟨initial, -, h | ⟨entries, -, h⟩⟩⟩⟩⟩⟩⟩)
    · exact .bareLexer hlex
    · exact .bareParser hlex hpar
    · exact .lexerArc hlex hpar h
    · exact .parserArc hlex hpar (Network.exists_toAutomaton_iff.1 ⟨_, hchars⟩) h
    · exact .start hlex hpar (Network.exists_toAutomaton_iff.1 ⟨_, hchars⟩)
        (Network.exists_toAutomaton_iff.1 ⟨_, htokens⟩) h
    · exact absurd (hnumber.has (hp p hpar)) hno
    · obtain ⟨hno, rfl⟩ := (entriesFrom_eq_error_iff (hl l hlex)).1 h
      exact .entry hlex hpar (Network.exists_toAutomaton_iff.1 ⟨_, hchars⟩)
        (Network.exists_toAutomaton_iff.1 ⟨_, htokens⟩) hnumber hno
    · cases h
  · have hconvert : ∀ {n : Network} {alphabet}, n.Convertible → ∃ a, n.toAutomaton alphabet = .ok a :=
      Network.exists_toAutomaton_iff.2
    intro h
    cases h with
    | bareLexer hlex => exact Or.inl ⟨hlex, rfl⟩
    | bareParser hlex hpar => exact Or.inr ⟨_, hlex, Or.inl ⟨hpar, rfl⟩⟩
    | lexerArc hlex hpar h => exact Or.inr ⟨_, hlex, Or.inr ⟨_, hpar, Or.inl h⟩⟩
    | parserArc hlex hpar hlc h =>
      obtain ⟨chars, hchars⟩ := hconvert hlc
      exact Or.inr ⟨_, hlex, Or.inr ⟨_, hpar, Or.inr ⟨chars, hchars, Or.inl h⟩⟩⟩
    | start hlex hpar hlc hpc h =>
      obtain ⟨chars, hchars⟩ := hconvert hlc
      obtain ⟨tokens, htokens⟩ := hconvert hpc
      exact Or.inr ⟨_, hlex, Or.inr ⟨_, hpar, Or.inr ⟨chars, hchars, Or.inr ⟨tokens, htokens, Or.inl h⟩⟩⟩⟩
    | entry hlex hpar hlc hpc hs h =>
      obtain ⟨chars, hchars⟩ := hconvert hlc
      obtain ⟨tokens, htokens⟩ := hconvert hpc
      obtain ⟨initial, hinitial⟩ := Network.has_iff.1 (hs.has (hp _ hpar))
      have hentries := (entriesFrom_eq_error_iff (hl _ hlex)).2 ⟨h, rfl⟩
      exact Or.inr ⟨_, hlex, Or.inr ⟨_, hpar, Or.inr ⟨chars, hchars, Or.inr ⟨tokens, htokens,
        Or.inr ⟨_, hs, Or.inr ⟨initial, hinitial, Or.inl hentries⟩⟩⟩⟩⟩⟩

end Converted

/-! ### What is made -/

/-- Different states have different identifiers, and no move leads out of the automaton. -/
structure Automaton.Sealed (a : Automaton) : Prop where
  distinct : a.DistinctIds
  inside : ∀ s, ∀ m ∈ a.moves s, m.target < a.size

theorem Network.sealed_of_toAutomaton (h : n.toAutomaton alphabet = .ok a) : a.Sealed := by
  have hinside : ∀ s, ∀ m ∈ a.moves s, m.target < a.size := by
    intro s m hm
    obtain ⟨u, hu⟩ := exists_of_lt_size h (Automaton.lt_size_of_mem_moves hm)
    obtain ⟨arc, -, t, -, ht, -⟩ := exists_arc h hu hm
    exact lt_size_of_position? h ht
  refine ⟨Automaton.distinctIds_of_closed (fun s _ => hinside s) fun s hs t ht hid => ?_, hinside⟩
  obtain ⟨u, hu⟩ := exists_of_lt_size h hs
  obtain ⟨v, hv⟩ := exists_of_lt_size h ht
  rw [id_of_position? h hu, id_of_position? h hv] at hid
  obtain rfl := Int.ofNat_inj.1 hid
  exact Option.some.inj (hu.symm.trans hv)

/-- The position of a number is inside the automaton, and the state there has the number. -/
theorem Network.id_of_position (h : n.toAutomaton alphabet = .ok a) {number : Int}
    (hp : n.position number = .ok p) : p < a.size ∧ a.id p = number := by
  obtain ⟨s, -, rfl⟩ := has_iff.2 ⟨p, hp⟩
  have hposition : n.position? (s : Int) = some p := by
    unfold position at hp
    cases hs : n.position? (s : Int) with
    | none => simp [hs] at hp
    | some q => simpa [hs] using hp
  exact ⟨lt_size_of_position? h hposition, id_of_position? h hposition⟩

namespace Converted

variable {lexer parser : GeneratedClass} {c : Converted} {startRule : Option Text} {k : Int}

/-- The `i`-th rule is the first one of the kind. -/
def IsFirst (n : Network) (k : Int) (i : Nat) : Prop :=
  n.kindOf i = some k ∧ ∀ j < i, n.kindOf j ≠ some k

/-- The entry of a kind is the state where the first rule of the kind starts. Kinds that are not positive,
and kinds of no rule, have none. -/
structure EntersAtFirstRule (n : Network) (c : Converted) (k : Int) : Prop where
  first : 0 < k → ∀ i, IsFirst n k i →
    ∃ number p, n.startOf i = some number ∧ c.entry k = some p ∧ p < c.chars.size ∧ c.chars.id p = number
  none : (k ≤ 0 ∨ ∀ i, n.kindOf i ≠ some k) → c.entry k = none

theorem IsFirst.idxOf? {i : Nat} (h : IsFirst n k i) : (n.types.getD []).idxOf? (some k) = some i := by
  obtain ⟨hi, heq⟩ := List.getElem?_eq_some_iff.1 (kindOf_eq_some_iff.1 h.1)
  refine List.idxOf?_eq_some_iff.2 ⟨hi, heq, fun j hj hjk => h.2 j hj ?_⟩
  exact kindOf_eq_some_iff.2 (List.getElem?_eq_some_iff.2 ⟨Nat.lt_trans hj hi, hjk⟩)

theorem entersAtFirstRule (h : n.toAutomaton alphabet = .ok c.chars)
    (hentries : entriesFrom n 0 [] (n.types.getD []) = .ok c.entries) : EntersAtFirstRule n c k := by
  have hentry : c.entry k = if 0 < k then firstEntry n 0 (n.types.getD []) k else none :=
    lookup_entriesFrom hentries k
  constructor
  · intro hk i hi
    obtain ⟨p, hp⟩ := exists_ruleStart_of_entriesFrom hentries (kindOf_eq_some_iff.1 hi.1) hk
    rw [if_pos hk, firstEntry, hi.idxOf?, Option.bind_some, hp] at hentry
    rw [Nat.zero_add] at hp
    cases hstart : n.startOf i with
    | none => cases hp.symm.trans (ruleStart_of_none hstart)
    | some number =>
      rw [ruleStart_of_startOf hstart] at hp
      exact ⟨number, p, rfl, hentry, Network.id_of_position h hp⟩
  · rintro (hk | hno)
    · rw [hentry, if_neg (Int.not_lt.2 hk)]
    · have hnone : (n.types.getD []).idxOf? (some k) = none := by
        refine List.idxOf?_eq_none_iff.2 fun hmem => ?_
        obtain ⟨i, hi⟩ := List.mem_iff_getElem?.1 hmem
        exact hno i (kindOf_eq_some_iff.2 hi)
      rw [hentry, firstEntry, hnone]
      exact ite_self _

/-- Let the tables of start states name states that exist. A recognizer can be made of a lexer and a parser
exactly if all is there that is asked for, and otherwise the fault is that of the first thing missing. No two
states of its automata share an identifier and no move leaves its automaton, it starts at the parser's start
state, and every kind is entered where its first rule starts. -/
theorem construction_exact (alphabet : Interval) (startRule : Option Text) (hl : lexer.StartsExist)
    (hp : parser.StartsExist) :
    ((∃ c, make alphabet lexer parser startRule = .ok c) ↔ Accepted lexer parser startRule) ∧
    (∀ fault, make alphabet lexer parser startRule = .error fault ↔
      Refused lexer parser startRule fault) ∧
    ∀ c, make alphabet lexer parser startRule = .ok c →
      ∃ l p, lexer.network = some l ∧ parser.network = some p ∧ c.chars.Sealed ∧ c.tokens.Sealed ∧
        (∃ number, StartsAt p parser.ruleNames startRule number ∧ c.initial < c.tokens.size ∧
          c.tokens.id c.initial = number) ∧
        ∀ k, EntersAtFirstRule l c k := by
  refine ⟨exists_make_iff hl hp, fun fault => make_eq_error_iff hl hp, fun c h => ?_⟩
  obtain ⟨l, p, number, hlex, hpar, hchars, htokens, hnumber, hinitial, hentries, -⟩ := make_eq_ok_iff.1 h
  exact ⟨l, p, hlex, hpar, Network.sealed_of_toAutomaton hchars, Network.sealed_of_toAutomaton htokens,
    ⟨number, hnumber, Network.id_of_position htokens hinitial⟩,
    fun k => entersAtFirstRule hchars hentries⟩

/-- A lexer with two rules of kind 7 and a rule without a kind between them. One state was removed. -/
def twofold : GeneratedClass where
  shown := "'Twofold'"
  network := some {
    stations := #[some { place := .tokens, arcs := [.epsilon 2, .epsilon 5] }, none,
      some { place := .start, arcs := [.atom 3 97] }, some { place := .stop },
      some { place := .start, rule := 1, arcs := [.wildcard 3] },
      some { place := .start, rule := 2, arcs := [.notSet 3 none] }]
    starts := some [2, 4, 5]
    types := some [some 7, none, some 7] }

/-- A parser of single tokens of kind 7. Its first state was removed. -/
def single : GeneratedClass where
  shown := "'Single'"
  network := some {
    stations := #[none, some { place := .start, arcs := [.range 2 7 7] }, some { place := .stop }]
    starts := some [1]
    maxKind := 7 }
  ruleNames := [['s']]

theorem twofold_entered_at_first_rule :
    twofold.StartsExist ∧ single.StartsExist ∧
      ∃ c, make ⟨0x20, 0x7F⟩ twofold single (some ['s']) = .ok c ∧ c.chars.Sealed ∧
        c.initial < c.tokens.size ∧ ∃ p, c.entry 7 = some p ∧ c.chars.id p = 2 := by
  have hl : twofold.StartsExist := by
    rintro n ⟨⟩
    decide
  have hp : single.StartsExist := by
    rintro n ⟨⟩
    decide
  have haccepted : Accepted twofold single (some ['s']) := by
    refine ⟨_, _, rfl, rfl, by decide, by decide, ⟨1, .named rfl rfl⟩, ?_⟩
    rintro (_ | _ | _ | i) k hk -
    · rfl
    · cases hk
    · rfl
    · cases hk
  obtain ⟨hmake, -, hmade⟩ := construction_exact ⟨0x20, 0x7F⟩ (some ['s']) hl hp
  obtain ⟨c, hc⟩ := hmake.2 haccepted
  obtain ⟨l, p, ⟨⟩, -, hchars, -, ⟨number, -, hinitial, -⟩, hentries⟩ := hmade c hc
  obtain ⟨number, q, ⟨⟩, hq, -, hid⟩ := (hentries 7).first (by decide) 0 ⟨rfl, nofun⟩
  exact ⟨hl, hp, c, hc, hchars, hinitial, q, hq, hid⟩

end Converted
end Typeahead
