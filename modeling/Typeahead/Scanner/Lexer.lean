import Typeahead.Scanner.Basic
import Typeahead.Value

/-!
Scanning with a lexer that recovers from errors by itself. The scanner takes tokens from the lexer
until the lexer ends or has reported an error; what a lexer produces after an error is not taken.

One lexer serves many texts: a session makes it when it is first needed and loads each text into it.
-/
namespace Typeahead

/-- An error report. The position of the error is the first of the three that is known. -/
structure Report where
  start : Value := .null
  tokenStart : Value := .null
  column : Value := .int 0

namespace Report

/-- The position of the error. -/
def offset (r : Report) : Except Fault Int :=
  match r.start, r.tokenStart with
  | .null, .null => r.column.toInt
  | .null, v => v.toInt
  | v, _ => v.toInt

end Report

/-- What a lexer does next. -/
inductive LexEvent where
  | token (t : Token)
  | report (r : Report)
  /-- Characters were passed over without a token. -/
  | skipped
  /-- The lexer broke off with a fault. -/
  | failed (fault : Fault)
  | ended

namespace LexEvent

/-- The lexer has got somewhere. -/
def isProgress : LexEvent → Bool
  | token _ | report _ | skipped => true
  | failed _ | ended => false

end LexEvent

/-- A lexer with states `σ`. Loading a text forgets all that went before, and there is less left to
do whenever it has got somewhere. -/
structure Lexer (σ : Type) where
  fresh : σ
  load : σ → Text → σ
  pull : σ → LexEvent × σ
  remaining : σ → Nat
  pull_lt : ∀ {s s' e}, pull s = (e, s') → e.isProgress = true → remaining s' < remaining s
  load_eq : ∀ s text, load s text = load fresh text

/-- The kind of the token that stands for the end of the input. -/
def endKind : Int := -1

/-- A scanner over a lexer: the lexer's state, the length of the text, the position of the first
error that was reported, and where scanning stopped. -/
structure LexScan (σ : Type) where
  lexer : σ
  length : Nat
  noted : Option Int := none
  stop : Option Int := none

namespace LexScan

variable {σ : Type}

/-- Stops at the error that was noted, or else at the end of the text. -/
def finish (s : LexScan σ) : LexScan σ := { s with stop := some (s.noted.getD s.length) }

/-- Takes a token, unless an error was noted before it or it stands for the end. -/
def receiveToken (s : LexScan σ) (t : Token) : Except Fault (Option Token) × LexScan σ :=
  if s.noted.isSome || t.kind = some endKind then (.ok none, s.finish) else (.ok (some t), s)

/-- Notes the position of an error. Only the first one is looked at. -/
def note (s : LexScan σ) (r : Report) : Except Fault (LexScan σ) :=
  if s.noted.isSome then .ok s
  else do return { s with noted := some (← r.offset) }

/-- What comes of one event: a reply, or nothing yet. -/
def receive (s : LexScan σ) : LexEvent → Option (Except Fault (Option Token)) × LexScan σ
  | .token t => let (reply, s) := s.receiveToken t; (some reply, s)
  | .report r =>
    match s.note r with
    | .ok s => (none, s)
    | .error fault => (some (.error fault), s)
  | .skipped => (none, s)
  | .failed fault => (some (.error fault), s)
  | .ended => (some (.ok none), s.finish)

/-- Events of the lexer up to a token, a fault or the end; at most `n` are passed over. -/
def takeWithin (l : Lexer σ) : Nat → LexScan σ → Except Fault (Option Token) × LexScan σ
  | 0, s => (.ok none, s.finish)
  | n + 1, s =>
    let (event, lexer) := l.pull s.lexer
    match receive { s with lexer } event with
    | (some reply, s) => (reply, s)
    | (none, s) => takeWithin l n s

/-- Events of the lexer up to a token, a fault or the end. There are fewer events than `remaining`
tells. -/
def take (l : Lexer σ) (s : LexScan σ) : Except Fault (Option Token) × LexScan σ :=
  s.takeWithin l (l.remaining s.lexer + 1)

def next (l : Lexer σ) (s : LexScan σ) : Except Fault (Option Token) × LexScan σ :=
  if s.stop.isSome then (.ok none, s) else s.take l

/-- Receiving an event leaves the lexer alone. -/
theorem lexer_receive (s : LexScan σ) (e : LexEvent) : (s.receive e).2.lexer = s.lexer := by
  cases e with
  | token t =>
    simp only [receive, receiveToken]
    split <;> rfl
  | report r =>
    simp only [receive, note]
    split
    · rename_i s' h
      split at h
      · injection h with h
        rw [← h]
      · cases ho : r.offset with
        | error fault => simp [ho, bind, Except.bind] at h
        | ok offset =>
          simp only [ho, bind, Except.bind, pure, Except.pure, Except.ok.injEq] at h
          rw [← h]
    · rfl
  | skipped => rfl
  | failed fault => rfl
  | ended => rfl

/-- Only a token brings a token. -/
theorem receive_token {s s' : LexScan σ} {e : LexEvent} {t : Token}
    (h : s.receive e = (some (.ok (some t)), s')) : e = .token t := by
  cases e with
  | token t' =>
    simp only [receive, receiveToken] at h
    split at h <;> simp_all
  | report r =>
    simp only [receive] at h
    split at h <;> simp at h
  | skipped => simp [receive] at h
  | failed fault => simp [receive] at h
  | ended => simp [receive] at h

/-- Nothing comes of an event only if the lexer has got somewhere. -/
theorem isProgress_of_receive {s s' : LexScan σ} {e : LexEvent} (h : s.receive e = (none, s')) :
    e.isProgress = true := by
  cases e <;> simp_all [receive, LexEvent.isProgress]

theorem takeWithin_lt {l : Lexer σ} {n : Nat} {s s' : LexScan σ} {t : Token}
    (h : s.takeWithin l n = (.ok (some t), s')) :
    l.remaining s'.lexer < l.remaining s.lexer := by
  induction n generalizing s with
  | zero => simp [takeWithin] at h
  | succ n ih =>
    cases hp : l.pull s.lexer with
    | mk e lexer =>
      simp only [takeWithin, hp] at h
      have hlexer := lexer_receive { s with lexer } e
      cases hr : receive { s with lexer } e with
      | mk reply s'' =>
        rw [hr] at hlexer
        cases reply with
        | none =>
          simp only [hr] at h
          have hlt := l.pull_lt hp (isProgress_of_receive hr)
          have := ih h
          rw [hlexer] at this
          exact Nat.lt_trans this hlt
        | some reply =>
          simp only [hr, Prod.mk.injEq] at h
          obtain ⟨rfl, rfl⟩ := h
          rw [hlexer]
          exact l.pull_lt hp (by rw [receive_token hr]; rfl)

/-- Allowing more events than there can be changes nothing. -/
theorem takeWithin_eq_take {l : Lexer σ} {n : Nat} {s : LexScan σ}
    (h : l.remaining s.lexer < n) : s.takeWithin l n = s.take l := by
  suffices h : ∀ n m s, l.remaining s.lexer < n → l.remaining s.lexer < m →
      takeWithin l n s = takeWithin l m s from h n _ s ‹_› (Nat.lt_succ_self _)
  intro n
  induction n with
  | zero =>
    intro m s h
    exact absurd h (Nat.not_lt_zero _)
  | succ n ih =>
    intro m s hn hm
    cases m with
    | zero => exact absurd hm (Nat.not_lt_zero _)
    | succ m =>
      cases hp : l.pull s.lexer with
      | mk e lexer =>
        simp only [takeWithin, hp]
        have hlexer := lexer_receive { s with lexer } e
        cases hr : receive { s with lexer } e with
        | mk reply s' =>
          rw [hr] at hlexer
          cases reply with
          | some reply => rfl
          | none =>
            have := l.pull_lt hp (isProgress_of_receive hr)
            simp only at hlexer
            exact ih m s' (by rw [hlexer]; omega) (by rw [hlexer]; omega)

/-- Taking a token looks at one event, and goes on if nothing came of it. -/
theorem take_eq (l : Lexer σ) (s : LexScan σ) :
    s.take l =
      match receive { s with lexer := (l.pull s.lexer).2 } (l.pull s.lexer).1 with
      | (some reply, s) => (reply, s)
      | (none, s) => s.take l := by
  rw [take, takeWithin]
  cases hp : l.pull s.lexer with
  | mk e lexer =>
    simp only
    have hlexer := lexer_receive { s with lexer } e
    cases hr : receive { s with lexer } e with
    | mk reply s' =>
      rw [hr] at hlexer
      cases reply with
      | some reply => rfl
      | none =>
        have hlt := l.pull_lt hp (isProgress_of_receive hr)
        have : s'.lexer = lexer := hlexer
        exact takeWithin_eq_take (this ▸ hlt)

theorem next_lt {l : Lexer σ} {s s' : LexScan σ} {t : Token}
    (h : s.next l = (.ok (some t), s')) : l.remaining s'.lexer < l.remaining s.lexer := by
  unfold next at h
  split at h
  · simp at h
  · exact takeWithin_lt h

end LexScan

namespace Lexer

variable {σ : Type}

/-- The scanner over a lexer. -/
def scanner (l : Lexer σ) : Scanner (LexScan σ) where
  next := LexScan.next l
  stop s := s.stop
  remaining s := l.remaining s.lexer
  next_lt := LexScan.next_lt

/-- A scanner of `text` over a lexer that has worked before. -/
def start (l : Lexer σ) (lexer : σ) (text : Text) : LexScan σ :=
  { lexer := l.load lexer text, length := text.length }

end Lexer

/-- The lexer in use, if one was made, and how many were made. -/
structure Session (σ : Type) where
  lexer : Option σ := none
  made : Nat := 0

namespace Session

variable {σ : Type}

/-- Makes a lexer unless there is one, and starts scanning `text` with it. -/
def start (l : Lexer σ) (s : Session σ) (text : Text) : LexScan σ × Session σ :=
  match s.lexer with
  | some lexer => (l.start lexer text, s)
  | none => (l.start l.fresh text, ⟨some l.fresh, s.made + 1⟩)

/-- Leaves the lexer in the state in which a scanner has brought it. -/
def leave (s : Session σ) (scan : LexScan σ) : Session σ := { s with lexer := some scan.lexer }

/-- Scans a whole text. -/
def scan (l : Lexer σ) (s : Session σ) (text : Text) : Except Fault Scan × Session σ :=
  let (begun, s) := s.start l text
  let (tokens, ended) := l.scanner.all begun
  (tokens.map fun tokens => ⟨tokens, ended.stop⟩, s.leave ended)

/-- Scans texts one after another. -/
def scanEach (l : Lexer σ) (s : Session σ) : List Text → List (Except Fault Scan) × Session σ
  | [] => ([], s)
  | text :: rest =>
    let (result, s) := s.scan l text
    let (results, s) := s.scanEach l rest
    (result :: results, s)

end Session
end Typeahead
