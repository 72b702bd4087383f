import Typeahead.Scanner.Lexer

/-!
Several scanners over one lexer. Each of them asks the same lexer for its tokens. A new scanner loads
its text into the lexer and takes over the listening, so that an error is heard of by the newest
scanner, whichever of them has asked.
-/
namespace Typeahead

/-- What a scanner keeps for itself when the lexer is not its own: the length of its text, the
position of the first error that it has heard of, and where it stopped. -/
structure Reader where
  length : Nat
  noted : Option Int := none
  stop : Option Int := none
deriving DecidableEq, Repr

namespace Reader

/-- Hears of an error. Only the first one is looked at. -/
def hear (r : Reader) (report : Report) : Except Fault Unit × Reader :=
  if r.noted.isSome then (.ok (), r)
  else
    match report.offset with
    | .ok offset => (.ok (), { r with noted := some offset })
    | .error fault => (.error fault, r)

/-- Stops at the error that was noted, or else at the end of the text. -/
def finish (r : Reader) : Reader := { r with stop := some (r.noted.getD r.length) }

/-- Passes on what the lexer has answered, unless an error was noted or the answer is the end. -/
def conclude (r : Reader) : Option Token → Option Token × Reader
  | none => (none, r.finish)
  | some t =>
    if r.noted.isSome || t.kind = some endKind then (none, r.finish) else (some t, r)

theorem eq_some_of_conclude {r r' : Reader} {answer : Option Token} {t : Token}
    (h : r.conclude answer = (some t, r')) : answer = some t := by
  cases answer with
  | none => cases h
  | some t' =>
    simp only [conclude] at h
    split at h <;> cases h
    rfl

end Reader

/-- What a scanner keeps apart from the lexer. -/
def LexScan.reader {σ : Type} (s : LexScan σ) : Reader := ⟨s.length, s.noted, s.stop⟩

namespace Lexer

variable {σ ρ : Type}

/-- One request for a token: events up to a token, a fault or the end, at most `n` of them. Errors
are told to `hear`. -/
def requestWithin (l : Lexer σ) (hear : ρ → Report → Except Fault Unit × ρ) :
    Nat → σ → ρ → Except Fault (Option Token) × σ × ρ
  | 0, s, r => (.ok none, s, r)
  | n + 1, s, r =>
    match l.pull s with
    | (.token t, s) => (.ok (some t), s, r)
    | (.report report, s) =>
      match hear r report with
      | (.ok (), r) => l.requestWithin hear n s r
      | (.error fault, r) => (.error fault, s, r)
    | (.skipped, s) => l.requestWithin hear n s r
    | (.failed fault, s) => (.error fault, s, r)
    | (.ended, s) => (.ok none, s, r)

/-- One request for a token. There are fewer events than `remaining` tells. -/
def request (l : Lexer σ) (hear : ρ → Report → Except Fault Unit × ρ) (s : σ) (r : ρ) :
    Except Fault (Option Token) × σ × ρ :=
  l.requestWithin hear (l.remaining s + 1) s r

theorem requestWithin_lt {l : Lexer σ} {hear : ρ → Report → Except Fault Unit × ρ} {n : Nat}
    {s s' : σ} {r r' : ρ} {t : Token} (h : l.requestWithin hear n s r = (.ok (some t), s', r')) :
    l.remaining s' < l.remaining s := by
  induction n generalizing s r with
  | zero => cases h
  | succ n ih =>
    rw [requestWithin] at h
    split at h
    · rename_i hpull
      cases h
      exact l.pull_lt hpull rfl
    · rename_i hpull
      split at h
      · exact Nat.lt_trans (ih h) (l.pull_lt hpull rfl)
      · cases h
    · rename_i hpull
      exact Nat.lt_trans (ih h) (l.pull_lt hpull rfl)
    · cases h
    · cases h

end Lexer

/-- A lexer with the scanners that were made over it, the oldest first, and the numbers of those that
hear of errors. -/
structure Shared (σ : Type) where
  session : Session σ := {}
  readers : List Reader := []
  listeners : List Nat := []

namespace Shared

variable {σ : Type}

/-- Tells the listeners of an error, one after another, until one of them fails. -/
def tell (report : Report) : List Nat → List Reader → Except Fault Unit × List Reader
  | [], readers => (.ok (), readers)
  | i :: listeners, readers =>
    match readers[i]? with
    | none => tell report listeners readers
    | some r =>
      match r.hear report with
      | (.ok (), r) => tell report listeners (readers.set i r)
      | (.error fault, r) => (.error fault, readers.set i r)

/-- A scanner joins as the newest one and becomes the only listener. -/
def join (d : Shared σ) (scan : LexScan σ) : Shared σ where
  session := d.session.leave scan
  readers := d.readers ++ [scan.reader]
  listeners := [d.readers.length]

/-- Makes a new scanner of `text`. -/
def create (l : Lexer σ) (d : Shared σ) (text : Text) : Shared σ :=
  let (begun, session) := d.session.start l text
  { d with session }.join begun

/-- The next token for scanner number `i`. -/
def next (l : Lexer σ) (i : Nat) (d : Shared σ) : Except Fault (Option Token) × Shared σ :=
  match d.session.lexer, d.readers[i]? with
  | some lexer, some r =>
    if r.stop.isSome then (.ok none, d)
    else
      let (answer, lexer, readers) :=
        l.request (fun readers report => tell report d.listeners readers) lexer d.readers
      let d := { d with session.lexer := some lexer, readers }
      match answer with
      | .error fault => (.error fault, d)
      | .ok answer =>
        -- the reader may have heard of an error by now
        let (t, r) := (readers[i]?.getD r).conclude answer
        (.ok t, { d with readers := readers.set i r })
  | _, _ => (.ok none, d)

def stop (i : Nat) (d : Shared σ) : Option Int := d.readers[i]?.bind (·.stop)

def remaining (l : Lexer σ) (d : Shared σ) : Nat := (d.session.lexer.map l.remaining).getD 0

theorem next_lt {l : Lexer σ} {i : Nat} {d d' : Shared σ} {t : Token}
    (h : d.next l i = (.ok (some t), d')) : d'.remaining l < d.remaining l := by
  simp only [next] at h
  split at h
  · rename_i lexer r hlexer _
    split at h
    · cases h
    · cases hrequest : l.request (fun readers report => tell report d.listeners readers) lexer
        d.readers with
      | mk answer rest =>
        obtain ⟨lexer', readers⟩ := rest
        rw [hrequest] at h
        cases answer with
        | error fault => cases h
        | ok answer =>
          injection h with hreply hd
          injection hreply with hreply
          obtain rfl := Reader.eq_some_of_conclude (Prod.ext hreply rfl)
          have hlt := Lexer.requestWithin_lt hrequest
          simpa [← hd, remaining, hlexer] using hlt
  · cases h

/-- Scanner number `i`. -/
def scanner (l : Lexer σ) (i : Nat) : Scanner (Shared σ) where
  next := next l i
  stop := stop i
  remaining := remaining l
  next_lt := next_lt

/-- What can happen: a new scanner is made, or one that there is is called. -/
inductive Step where
  | create (text : Text)
  | call (i : Nat) (c : Scanner.Call)
deriving DecidableEq, Repr

/-- What one step leaves behind, also if the call fails. -/
def step (l : Lexer σ) (d : Shared σ) : Step → Shared σ
  | .create text => d.create l text
  | .call i c => ((scanner l i).call d c).2

def run (l : Lexer σ) (d : Shared σ) (steps : List Step) : Shared σ := steps.foldl (step l) d

end Shared
end Typeahead
