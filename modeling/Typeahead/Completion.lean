import Typeahead.Note
import Typeahead.Outcome
import Typeahead.Preference
import Typeahead.Roster

/-!
Completion of a partly typed token, by a walk over the character automaton from the entry of each
candidate kind. While typed text is left, only moves that match its next character are followed;
after that every label is explored. A state without moves ends a token. States on the current path
are not entered again, so a loop contributes its first turn only.
-/
namespace Typeahead.Completion

/-- What is to be completed. -/
structure Task where
  chars : Automaton
  /-- The state from which tokens of a kind start. -/
  entry : Int → Option Nat
  typed : Text
  preference : Preference

/-- A point of the walk: a state, the token read so far, the typed text left to replay. -/
structure Point where
  state : Nat
  soFar : Text
  remaining : Text
deriving DecidableEq, Repr

/-- Work left to do. -/
inductive Frame where
  | enter (p : Point)
  | leave (state : Nat)
deriving DecidableEq, Repr

/-- What a walk has found, and the states on its path. -/
structure Progress where
  /-- The completions, in order of discovery. -/
  found : Roster Text := .empty
  path : List Nat := []
  notes : Array Note := #[]

/-- The fault of a label that is too large for a character; labels beyond a machine word are not even
looked at. -/
def beyond (label : Int) : Fault := if 0x7FFFFFFF < label then .tooLarge else .notCharacter

/-- The character with a given label. Negative labels stand for no character. -/
def charAt? (label : Int) : Option CodePoint :=
  if label < 0 then none
  else if h : label.toNat < 0x110000 then some ⟨label.toNat, h⟩
  else none

/-- The first label of a move that is too large for a character. -/
def oversized? : Move → Option Int
  | .epsilon _ | .foreign .. => none
  | .atomic label _ => if Interval.codePoints.stop ≤ label then some label else none
  | .set intervals _ => intervals.findSome? (·.from? Interval.codePoints.stop)

/-- The characters of a move, in order, unless one of its labels is too large. -/
def characters (m : Move) : Except Fault (List CodePoint) :=
  match oversized? m with
  | some label => .error (beyond label)
  | none => .ok (m.symbols.filterMap charAt?)

theorem oversized?_eq_none_iff {m : Move} :
    oversized? m = none ↔ ∀ x ∈ m.symbols, x < Interval.codePoints.stop := by
  cases m with
  | epsilon t => simp [oversized?, Move.symbols]
  | foreign name t => simp [oversized?, Move.symbols]
  | atomic label t => simp [oversized?, Move.symbols]
  | set intervals t =>
    simp only [oversized?, Move.symbols, List.findSome?_eq_none_iff, Interval.from?_eq_none_iff,
      List.mem_flatMap]
    constructor
    · intro h x hx
      obtain ⟨i, hi, hx⟩ := hx
      exact h i hi x hx
    · intro h i hi x hx
      exact h x ⟨i, hi, hx⟩

theorem length_characters_le {m : Move} {chars : List CodePoint} (h : characters m = .ok chars) :
    chars.length ≤ m.symbols.length := by
  simp only [characters] at h
  split at h
  · simp at h
  · injection h with h
    rw [← h]
    exact List.length_filterMap_le _ _

/-- The point after character `c`, or none if the typed text has another one there. -/
def Point.read (p : Point) (target : Nat) (c : CodePoint) : Option Point :=
  match p.remaining with
  | [] => some ⟨target, p.soFar ++ [c], []⟩
  | head :: tail => if head = c then some ⟨target, p.soFar ++ [c], tail⟩ else none

/-- Where one move leads from a point. -/
def follow (chars : Automaton) (preference : Preference) (p : Point) (m : Move) :
    Except Fault (List Point) :=
  match m with
  | .epsilon t => .ok [{ p with state := t }]
  | .atomic _ t => do return (← characters m).filterMap (p.read t)
  | .set _ t =>
    match p.remaining with
    | [] => do return ((← characters m).filter (!preference.drops m ·)).filterMap (p.read t)
    | head :: _ =>
      .ok (if m.accepts head.toNat && !preference.drops m head then (p.read t head).toList else [])
  | .foreign .. => .error (chars.unexpected "character" p.state m)

/-- Where all moves lead from a point, in order. -/
def expand (chars : Automaton) (preference : Preference) (p : Point) : Except Fault (List Point) := do
  return (← (chars.moves p.state).mapM (follow chars preference p)).flatten

/-- The part of a token that is not typed yet. -/
def tail (typed token : Text) : Text := token.drop typed.length

namespace Progress

/-- Records a token that was read to its end. -/
def record (g : Progress) (typed token : Text) : Progress :=
  let t := tail typed token
  if g.found.contains t then g
  else { g with found := g.found.insert t, notes := g.notes.push (.completion t token) }

end Progress

/-- What one step of a walk leads to. -/
inductive Next where
  | done
  | go (g : Progress) (stack : List Frame)
  | fail (g : Progress) (fault : Fault)

/-- One step of the walk. -/
def step (t : Task) (g : Progress) : List Frame → Next
  | [] => .done
  | .leave s :: stack => .go { g with path := g.path.erase s } stack
  | .enter p :: stack =>
    if g.path.contains p.state then .go g stack
    else
      let g := { g with path := p.state :: g.path }
      let g := if !p.soFar.isEmpty && t.chars.isFinal p.state then g.record t.typed p.soFar else g
      match expand t.chars t.preference p with
      | .error fault => .fail g fault
      | .ok points => .go g (points.map .enter ++ .leave p.state :: stack)

/-! ### Every walk ends -/

/-- The states that may still be entered. -/
def unvisited (a : Automaton) (path : List Nat) : Nat :=
  (List.range a.size).countP fun s => !path.contains s

/-- A bound on where the moves of a state may lead. -/
def breadth (a : Automaton) : Nat := a.total fun m => m.symbols.length + 1

/-- A bound on the steps left: each frame is charged under the path that will hold when it is
reached. -/
def weight (a : Automaton) (path : List Nat) : List Frame → Nat
  | [] => 0
  | .leave s :: stack => 1 + weight a (path.erase s) stack
  | .enter _ :: stack => treeCost (breadth a) (unvisited a path) + weight a path stack

variable {a : Automaton} {pref : Preference} {p : Point}

theorem unvisited_cons {path : List Nat} {s : Nat} (hs : s < a.size)
    (h : path.contains s = false) : unvisited a (s :: path) < unvisited a path := by
  apply countP_lt_countP (a := s)
  · intro x _
    simp
  · simpa using hs
  · simp
  · simpa using h

theorem length_follow {m : Move} {points : List Point} (h : follow a pref p m = .ok points) :
    points.length ≤ m.symbols.length + 1 := by
  have hopt : ∀ o : Option Point, o.toList.length ≤ 1 := by
    rintro (_ | _) <;> simp
  cases m with
  | epsilon t =>
    injection h with h
    simp [← h]
  | atomic label t =>
    cases hc : characters (.atomic label t) with
    | error e => simp [follow, hc, bind, Except.bind] at h
    | ok chars =>
      simp only [follow, hc, bind, Except.bind, pure, Except.pure, Except.ok.injEq] at h
      have h₁ := length_characters_le hc
      have h₂ := List.length_filterMap_le (p.read t) chars
      rw [← h]
      omega
  | set intervals t =>
    simp only [follow] at h
    split at h
    · cases hc : characters (.set intervals t) with
      | error e => simp [hc, bind, Except.bind] at h
      | ok chars =>
        simp only [hc, bind, Except.bind, pure, Except.pure, Except.ok.injEq] at h
        have h₁ := length_characters_le hc
        have h₂ := List.length_filter_le (!pref.drops (.set intervals t) ·) chars
        have h₃ := List.length_filterMap_le (p.read t)
          (chars.filter (!pref.drops (.set intervals t) ·))
        rw [← h]
        omega
    · injection h with h
      rw [← h]
      split
      · exact Nat.le_trans (hopt _) (Nat.le_add_left 1 _)
      · simp
  | foreign name t => simp [follow] at h

theorem length_expand {points : List Point} (h : expand a pref p = .ok points) :
    points.length ≤ breadth a := by
  suffices hmoves : ∀ {moves : List Move} {lists : List (List Point)},
      moves.mapM (follow a pref p) = .ok lists →
        lists.flatten.length ≤ sumOver (fun m => m.symbols.length + 1) moves by
    cases hl : (a.moves p.state).mapM (follow a pref p) with
    | error e => simp [expand, hl, bind, Except.bind] at h
    | ok lists =>
      simp only [expand, hl, bind, Except.bind, pure, Except.pure, Except.ok.injEq] at h
      rw [← h]
      exact Nat.le_trans (hmoves hl) (a.sumOver_moves_le_total _ p.state)
  intro moves
  induction moves with
  | nil =>
    intro lists hl
    simp only [List.mapM_nil, pure, Except.pure, Except.ok.injEq] at hl
    simp [← hl, sumOver]
  | cons m moves ih =>
    intro lists hl
    obtain ⟨first, others, hm, hmoves, rfl⟩ := Outcome.mapM_cons_eq_ok hl
    have h₁ := length_follow hm
    have h₂ := ih hmoves
    simp only [List.flatten_cons, List.length_append, sumOver]
    omega

theorem expand_eq_nil {points : List Point} (hs : a.size ≤ p.state)
    (h : expand a pref p = .ok points) : points = [] := by
  simpa [expand, a.moves_eq_nil hs, bind, Except.bind, pure, Except.pure] using h.symm

/-- Entering points is charged alike for each. -/
theorem weight_enter (path : List Nat) (points : List Point) (stack : List Frame) :
    weight a path (points.map .enter ++ stack) =
      points.length * treeCost (breadth a) (unvisited a path) + weight a path stack := by
  induction points with
  | nil => simp
  | cons q points ih =>
    simp only [List.map_cons, List.cons_append, weight, ih, List.length_cons, Nat.add_mul]
    omega

theorem path_record (g : Progress) (typed token : Text) : (g.record typed token).path = g.path := by
  simp only [Progress.record]
  split <;> rfl

/-- Every step lowers the weight. -/
theorem weight_step {t : Task} {g g' : Progress} {stack stack' : List Frame}
    (h : step t g stack = .go g' stack') :
    weight t.chars g'.path stack' < weight t.chars g.path stack := by
  match stack with
  | [] => simp [step] at h
  | .leave s :: stack =>
    simp only [step, Next.go.injEq] at h
    obtain ⟨rfl, rfl⟩ := h
    simp [weight]
  | .enter p :: stack =>
    have hcost := one_lt_treeCost (breadth t.chars) (unvisited t.chars g.path)
    simp only [step] at h
    split at h
    · injection h with hg hstack
      subst hg hstack
      simp only [weight]
      omega
    · rename_i hpath
      split at h
      · simp at h
      · rename_i points hpoints
        injection h with hg hstack
        have hpath' : g'.path = p.state :: g.path := by
          rw [← hg]
          split
          · rw [path_record]
          · rfl
        subst hstack
        have hlt : points.length = 0 ∨ unvisited t.chars (p.state :: g.path) <
            unvisited t.chars g.path := by
          by_cases hs : p.state < t.chars.size
          · exact Or.inr (unvisited_cons hs (by simpa using hpath))
          · exact Or.inl (by simp [expand_eq_nil (Nat.le_of_not_lt hs) hpoints])
        have hmul := mul_treeCost_lt (length_expand hpoints) hlt
        rw [hpath', weight_enter]
        simp only [weight, List.erase_cons_head]
        omega

/-! ### Running a walk -/

/-- A walk that was run, and the fault it met, if any. -/
structure Ended where
  progress : Progress
  fault : Option Fault

/-- Runs a walk until its stack is empty or it fails. -/
def run (t : Task) (g : Progress) (stack : List Frame) : Ended :=
  match _h : step t g stack with
  | .done => ⟨g, none⟩
  | .fail g' fault => ⟨g', some fault⟩
  | .go g' stack' => run t g' stack'
termination_by weight t.chars g.path stack
decreasing_by exact weight_step _h

/-- The walk from the entry of one kind. -/
def walk (t : Task) (g : Progress) (entry : Nat) : Ended :=
  run t g [.enter ⟨entry, [], t.typed⟩]

/-- Completes tokens of the given kinds in turn, on top of what was found before. A kind without an
entry is noted and passed over; the first fault ends the work. -/
def complete (t : Task) (g : Progress) : List Int → Ended
  | [] => ⟨g, none⟩
  | kind :: kinds =>
    match t.entry kind with
    | none => complete t { g with notes := g.notes.push (.noEntry kind) } kinds
    | some entry =>
      let ended := walk t g entry
      match ended.fault with
      | none => complete t ended.progress kinds
      | some _ => ended

namespace Ended

/-- All completions found so far, unless there was a fault. -/
def outcome (e : Ended) : Except Fault (List Text) :=
  match e.fault with
  | none => .ok e.progress.found.toList
  | some fault => .error fault

end Ended

/-- Lists of kinds completed one after another, each on top of what was found before. -/
def completeEach (t : Task) (g : Progress) : List (List Int) → List Ended
  | [] => []
  | kinds :: rest =>
    let ended := complete t g kinds
    ended :: completeEach t ended.progress rest

end Typeahead.Completion
