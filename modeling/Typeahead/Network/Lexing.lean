import Typeahead.Network.Basic
import Typeahead.Reach
import Typeahead.Scanner.Scripted

/-!
Lexing with a network. A rule is followed with a stack of calls: an arc that calls a rule pushes the
state to go on with, and the stop state of a called rule pops it. A token rule matches when its own
stop state is reached with nothing left on the stack. At each position the longest match wins, the
earliest rule on ties; where no rule matches, the lexer reports an error and goes on behind the
character at which the last rule gave up.

The end of the text counts as a symbol that can be consumed any number of times. A rule that asks for
it matches no more characters than one that does not, and yet wins.
-/
namespace Typeahead

/-- A point reached in a network: the state, the states to go on with after the calls in progress
(innermost first), and the actions met outside of calls. -/
structure Thread where
  state : Nat
  calls : List Nat := []
  actions : List Int := []
deriving DecidableEq, Repr

/-- The symbol that stands for the end of the text. -/
def endSymbol : Int := -1

namespace Thread

/-- The thread in another state, if there can be one of that number. -/
def moveTo (t : Thread) (target : Int) : Option Thread :=
  target.toNat?.map fun s => { t with state := s }

/-- The thread after an arc that consumes nothing. At the end of the text, consuming the end counts
as nothing. -/
def pass (t : Thread) (atEnd : Bool) : Arc → Option Thread
  | .epsilon target | .predicate target | .precedence target _ => t.moveTo target
  | .rule target _ follow => do
    return { ← t.moveTo target with calls := (← follow.toNat?) :: t.calls }
  | .action target _ index => do
    let t' ← t.moveTo target
    return if t.calls.isEmpty then { t' with actions := t.actions ++ [index] } else t'
  | arc => if atEnd && arc.accepts .codePoints endSymbol then t.moveTo arc.target else none

end Thread

namespace Network

def isStop (n : Network) (number : Nat) : Bool :=
  (n.station? number).any (·.place == .stop)

/-- The thread has matched a token rule. -/
def isMatch (n : Network) (t : Thread) : Bool := n.isStop t.state && t.calls.isEmpty

/-- Where a thread can go without consuming anything. A stop state only returns from a call. -/
def silent (n : Network) (atEnd : Bool) (t : Thread) : List Thread :=
  if n.isStop t.state then
    match t.calls with
    | [] => []
    | s :: calls => [{ t with state := s, calls }]
  else (n.arcs t.state).filterMap (t.pass atEnd)

/-- Where a thread can go by consuming `symbol`. -/
def consume (n : Network) (symbol : Int) (t : Thread) : List Thread :=
  if n.isStop t.state then []
  else
    ((n.arcs t.state).filter (·.accepts .codePoints symbol)).filterMap fun arc =>
      t.moveTo arc.target

/-- All lists of at most `depth` numbers below `n`. -/
def callLists (n : Nat) : Nat → List (List Nat)
  | 0 => [[]]
  | depth + 1 => [] :: (List.range n).flatMap fun s => (callLists n depth).map (s :: ·)

theorem mem_callLists {n depth : Nat} {l : List Nat} (hlen : l.length ≤ depth) (hlt : ∀ x ∈ l, x < n) :
    l ∈ callLists n depth := by
  induction depth generalizing l with
  | zero => simp_all [callLists]
  | succ depth ih =>
    cases l with
    | nil => simp [callLists]
    | cons x l =>
      have := ih (l := l) (by simpa using hlen) fun y hy => hlt y (List.mem_cons_of_mem x hy)
      have hx := hlt x List.mem_cons_self
      simp [callLists, hx, this]

/-- States of the network with at most `depth` calls in progress. -/
def region (n : Network) (depth : Nat) : Region (Nat × List Nat) where
  inside p :=
    p.1 < n.stations.size && p.2.all (· < n.stations.size) && p.2.length ≤ depth
  finite := by
    refine ⟨(List.range n.stations.size).flatMap fun s =>
      (callLists n.stations.size depth).map (s, ·), ?_⟩
    rintro ⟨s, calls⟩ h
    simp only [Bool.and_eq_true, decide_eq_true_eq, List.all_eq_true] at h
    obtain ⟨⟨hs, hcalls⟩, hlen⟩ := h
    simp only [List.mem_flatMap, List.mem_range, List.mem_map]
    exact ⟨s, hs, calls, mem_callLists hlen hcalls, rfl⟩

/-- The threads that the given ones lead to without consuming anything. Rules do not call themselves
before they have consumed something, so no more calls are opened than there are states. -/
def settle (n : Network) (atEnd : Bool) (threads : List Thread) : List Thread :=
  let depth := (threads.map (·.calls.length)).foldl max 0 + n.stations.size
  (n.region depth).reach (fun t => (t.state, t.calls)) (n.silent atEnd) threads

/-- The threads of each token rule. -/
abbrev Front := List (List Thread)

/-- The starts of the token rules, in order. -/
def tokenRules (n : Network) : List Nat :=
  (n.arcs n.modeStart).filterMap (·.target.toNat?)

/-- The threads with which the token rules start. -/
def startFront (n : Network) : Front :=
  n.tokenRules.map fun start => n.settle false [⟨start, [], []⟩]

/-- The threads after one more symbol. -/
def advance (n : Network) (symbol : Int) (front : Front) : Front :=
  front.map fun threads =>
    n.settle (symbol == endSymbol) (threads.flatMap (n.consume symbol))

/-- The kind that stands for a token to leave out. -/
def skipKind : Int := -3

/-- The kind that actions have asked for, zero if none has, and the channel. -/
def perform : Int × Int → Action → Int × Int
  | (_, channel), .skip => (skipKind, channel)
  | (kind, _), .channel n => (kind, n)
  | (_, channel), .type n => (n, channel)

/-- What a match means: the kind of the token and its channel. -/
structure Meaning where
  kind : Option Int
  channel : Int
deriving DecidableEq, Repr

/-- The kind that the table gives to the rule of a stop state. -/
def ownKind (n : Network) (stop : Nat) : Except Fault (Option Int) :=
  match n.types with
  | none => .error .wrongType
  | some types =>
    match at? types (((n.station? stop).map (·.rule)).getD 0) with
    | some kind => .ok kind
    | none => .error .outOfRange

/-- What a thread has matched: the kind of the rule on the main channel, unless actions ask for
others. -/
def meaning (n : Network) (t : Thread) : Except Fault Meaning := do
  let own ← n.ownKind t.state
  let (kind, channel) := (t.actions.filterMap (at? n.actions)).foldl perform (0, 0)
  return ⟨if kind = 0 then own else some kind, channel⟩

/-- The thread is to perform an action that is not in the table. -/
def lacksAction (n : Network) (t : Thread) : Bool :=
  !n.isStop t.state && t.calls.isEmpty && (n.arcs t.state).any fun
    | .action _ _ index => (at? n.actions index).isNone
    | _ => false

/-- What the earliest rule that matches here means. -/
def accepted (n : Network) (front : Front) : Except Fault (Option Meaning) :=
  if front.any (·.any n.lacksAction) then .error .outOfRange
  else
    match front.flatten.find? n.isMatch with
    | some t => do return some (← n.meaning t)
    | none => .ok none

/-- How trying the rules on a text turns out. -/
inductive Attempt where
  | matched (length : Nat) (meaning : Meaning)
  /-- No rule has matched, and none could consume more than `consumed` characters. -/
  | stuck (consumed : Nat)
  | failed (fault : Fault) (consumed : Nat)
deriving DecidableEq, Repr

namespace Attempt

/-- The outcome once no rule can go on. -/
def settled (consumed : Nat) : Option (Nat × Meaning) → Attempt
  | some (length, meaning) => matched length meaning
  | none => stuck consumed

end Attempt

/-- Tries the rules on what is left of a text, given the threads reached so far, how many characters
led there, and the longest match among those. -/
def attemptFrom (n : Network) (front : Front) (consumed : Nat) (best : Option (Nat × Meaning)) :
    Text → Attempt
  | [] =>
    match n.accepted (n.advance endSymbol front) with
    | .error fault => .failed fault consumed
    | .ok (some meaning) => .matched consumed meaning
    | .ok none => .settled consumed best
  | c :: rest =>
    let front := n.advance c.toNat front
    if front.all (·.isEmpty) then .settled consumed best
    else
      match n.accepted front with
      | .error fault => .failed fault consumed
      | .ok (some meaning) => n.attemptFrom front (consumed + 1) (some (consumed + 1, meaning)) rest
      | .ok none => n.attemptFrom front (consumed + 1) best rest

/-- Tries the rules on a text. -/
def attempt (n : Network) (text : Text) : Attempt :=
  match n.accepted n.startFront with
  | .error fault => .failed fault 0
  | .ok best => n.attemptFrom n.startFront 0 (best.map (0, ·)) text

/-- The text of a token of `length` characters. Behind the last character there is only the end. -/
def lexeme (length : Nat) : Text → Text
  | [] => "<EOF>"
  | text => text.take length

/-- What the lexer does at the front of a text. A match without characters counts only at the end of
the text. -/
def pull (n : Network) (s : Cursor) : LexEvent × Cursor :=
  if s.ended then (.ended, s)
  else
    match n.attempt s.rest with
    | .failed fault consumed => (.failed fault, { s.read consumed with ended := false })
    | .stuck consumed =>
      if s.rest.isEmpty then (.ended, { s with ended := true })
      else (.report (Route.start.report s.position), s.read (consumed + 1))
    | .matched length meaning =>
      if length = 0 && !s.rest.isEmpty then (.report (Route.start.report s.position), s.read 1)
      else if meaning.kind = some skipKind then (.skipped, s.read length)
      else (.token ⟨meaning.kind, meaning.channel, lexeme length s.rest, s.position⟩, s.read length)

theorem pull_lt {n : Network} {s s' : Cursor} {e : LexEvent} (h : n.pull s = (e, s'))
    (he : e.isProgress = true) : s'.remaining < s.remaining := by
  simp only [pull] at h
  split at h
  · simp only [Prod.mk.injEq] at h
    simp [← h.1, LexEvent.isProgress] at he
  · rename_i hended
    have hended : s.ended = false := by simpa using hended
    split at h
    · simp only [Prod.mk.injEq] at h
      simp [← h.1, LexEvent.isProgress] at he
    · split at h <;> simp only [Prod.mk.injEq] at h
      · simp [← h.1, LexEvent.isProgress] at he
      · rw [← h.2]
        exact Cursor.remaining_read_lt hended (Or.inl (Nat.succ_pos _))
    · rename_i length meaning _
      split at h
      · simp only [Prod.mk.injEq] at h
        rw [← h.2]
        exact Cursor.remaining_read_lt hended (Or.inl Nat.one_pos)
      · rename_i hlength
        have hlength : 0 < length ∨ s.rest = [] := by
          simp only [Bool.and_eq_true, decide_eq_true_eq, Bool.not_eq_true', not_and,
            Bool.not_eq_false, List.isEmpty_iff] at hlength
          rcases Nat.eq_zero_or_pos length with h₀ | h₀
          · exact Or.inr (hlength h₀)
          · exact Or.inl h₀
        split at h <;>
          · simp only [Prod.mk.injEq] at h
            rw [← h.2]
            exact Cursor.remaining_read_lt hended hlength

/-- A lexer for a network. It keeps the threads of all token rules. -/
def lexer (n : Network) : Lexer Cursor := .reading n.pull pull_lt

end Network
end Typeahead
