import Mathlib
import Typeahead.Proofs.Coverage
import Typeahead.Scanner.Scripted
import Typeahead.Scanner.Shared

/-!
Scanners over one lexer do not get in the way of a new one. The newest scanner works as a scanner that has
the lexer to itself: it hands out the tokens up to the first request in which an error is reported, stops
where that error is, and then stays as it is.
-/
namespace Typeahead

/-! ### Requests and what is taken from them -/

/-- The answer is that the text has come to its end. -/
def IsEnd (answer : Option Token) : Prop := ∀ t ∈ answer, t.kind = some endKind

namespace Reader

theorem hear_eq (r : Reader) {report : Report} {o : Int} (h : report.offset = .ok o) :
    r.hear report = (.ok (), { r with noted := r.noted.or (some o) }) := by
  obtain ⟨length, noted, stop⟩ := r
  cases noted <;> simp [hear, h]

theorem conclude_eq_finish (r : Reader) (answer : Option Token)
    (h : r.noted.isSome = true ∨ IsEnd answer) : r.conclude answer = (none, r.finish) := by
  cases answer with
  | none => rfl
  | some t =>
    rcases h with h | h
    · simp [conclude, h]
    · simp [conclude, h t rfl]

end Reader

namespace Lexer

variable {σ : Type}

/-- From `s` the lexer answers a request after it has reported errors at `os`, and comes to `s'`. -/
inductive Answers (l : Lexer σ) : σ → List Int → Option Token → σ → Prop
  | token {s s' t} (hpull : l.pull s = (.token t, s')) : l.Answers s [] (some t) s'
  | ended {s s'} (hpull : l.pull s = (.ended, s')) : l.Answers s [] none s'
  | skipped {s s' s'' os answer} (hpull : l.pull s = (.skipped, s')) (rest : l.Answers s' os answer s'') :
      l.Answers s os answer s''
  | report {s s' s'' r o os answer} (hpull : l.pull s = (.report r, s')) (hoffset : r.offset = .ok o)
      (rest : l.Answers s' os answer s'') : l.Answers s (o :: os) answer s''

/-- Every request is answered. -/
def Responds (l : Lexer σ) : Prop := ∀ s, ∃ os answer s', l.Answers s os answer s'

/-- The requests from `s` on give these tokens, up to the first request in which an error is reported or
whose answer is the end. That one stops at its first error, or else at the end of the text. -/
inductive Gives (l : Lexer σ) (length : Nat) : σ → List Token → Int → Prop
  | token {s s' t ts stop} (ht : l.Answers s [] (some t) s') (hkind : t.kind ≠ some endKind)
      (rest : l.Gives length s' ts stop) : l.Gives length s (t :: ts) stop
  | error {s s' o os answer} (herror : l.Answers s (o :: os) answer s') : l.Gives length s [] o
  | ended {s s' answer} (hanswer : l.Answers s [] answer s') (hend : IsEnd answer) :
      l.Gives length s [] length

variable {l : Lexer σ} {s s' : σ} {os : List Int} {answer : Option Token} {length n : Nat}
  {ts : List Token} {stop : Int}

theorem Answers.remaining_lt (h : l.Answers s os answer s') (ht : answer.isSome = true) :
    l.remaining s' < l.remaining s := by
  induction h with
  | token hpull => exact l.pull_lt hpull rfl
  | ended hpull => cases ht
  | skipped hpull _ ih => exact Nat.lt_trans (ih ht) (l.pull_lt hpull rfl)
  | report hpull _ _ ih => exact Nat.lt_trans (ih ht) (l.pull_lt hpull rfl)

/-- A lexer that answers every request comes to an error or to the end. -/
theorem Responds.exists_gives (hl : l.Responds) (length : Nat) (s : σ) :
    ∃ ts stop, l.Gives length s ts stop := by
  induction hn : l.remaining s using Nat.strong_induction_on generalizing s with
  | _ n ih =>
    obtain ⟨os, answer, s', h⟩ := hl s
    cases os with
    | cons o os => exact ⟨[], o, .error h⟩
    | nil =>
      by_cases hend : IsEnd answer
      · exact ⟨[], length, .ended h hend⟩
      · -- otherwise the answer is a token, and there is less left after it
        simp only [IsEnd, not_forall] at hend
        obtain ⟨t, rfl, hkind⟩ := hend
        obtain ⟨ts, stop, hrest⟩ := ih _ (hn ▸ h.remaining_lt rfl) s' rfl
        exact ⟨t :: ts, stop, .token h hkind hrest⟩

/-- A reader that hears of the errors of a request keeps the first one, unless it has one already. -/
theorem Answers.requestWithin (h : l.Answers s os answer s') (r : Reader) (hn : l.remaining s ≤ n) :
    l.requestWithin Reader.hear (n + 1) s r =
      (.ok answer, s', { r with noted := r.noted.or os.head? }) := by
  induction h generalizing n r with
  | token hpull => simp [Lexer.requestWithin, hpull]
  | ended hpull => simp [Lexer.requestWithin, hpull]
  | skipped hpull _ ih =>
    have hlt := l.pull_lt hpull rfl
    obtain ⟨m, rfl⟩ := Nat.exists_eq_succ_of_ne_zero (by omega : n ≠ 0)
    rw [Lexer.requestWithin, hpull]
    exact ih r (by omega)
  | report hpull hoffset _ ih =>
    have hlt := l.pull_lt hpull rfl
    obtain ⟨m, rfl⟩ := Nat.exists_eq_succ_of_ne_zero (by omega : n ≠ 0)
    rw [Lexer.requestWithin, hpull]
    simp [r.hear_eq hoffset, ih _ (by omega : _ ≤ m)]

end Lexer

/-! ### A scanner alone -/

namespace LexScan

variable {σ : Type} {l : Lexer σ} {s s' : σ} {os : List Int} {answer : Option Token} {length : Nat}
  {ts : List Token} {stop : Int}

/-- The scanner that has this lexer and keeps what the reader keeps. -/
def ofReader (lexer : σ) (r : Reader) : LexScan σ := ⟨lexer, r.length, r.noted, r.stop⟩

@[simp] theorem lexer_ofReader (lexer : σ) (r : Reader) : (ofReader lexer r).lexer = lexer := rfl

@[simp] theorem reader_ofReader (lexer : σ) (r : Reader) : (ofReader lexer r).reader = r := rfl

@[simp] theorem stop_reader (s : LexScan σ) : s.reader.stop = s.stop := rfl

/-- What a scanner makes of a request. -/
def settle : Except Fault (Option Token) × σ × Reader → Except Fault (Option Token) × LexScan σ
  | (.error fault, lexer, r) => (.error fault, ofReader lexer r)
  | (.ok answer, lexer, r) => (.ok (r.conclude answer).1, ofReader lexer (r.conclude answer).2)

/-- A scanner that has the lexer to itself makes a request and hears of its errors. -/
theorem take_eq_settle (l : Lexer σ) (s : LexScan σ) :
    s.take l = settle (l.request Reader.hear s.lexer s.reader) := by
  -- both look at the same events, at most equally many
  suffices h : ∀ n s, takeWithin l n s = settle (l.requestWithin Reader.hear n s.lexer s.reader) from h _ s
  intro n
  induction n with
  | zero => exact fun s => rfl
  | succ n ih =>
    intro s
    rw [takeWithin, Lexer.requestWithin]
    rcases l.pull s.lexer with ⟨e, lexer⟩
    cases e with
    | token t =>
      by_cases hend : (s.noted.isSome || t.kind = some endKind) = true
      · simp [receive, receiveToken, settle, Reader.conclude, reader, hend, finish, Reader.finish, ofReader]
      · simp [receive, receiveToken, settle, Reader.conclude, reader, hend, ofReader]
    | report report =>
      cases hnoted : s.noted with
      | some o => simpa [receive, note, Reader.hear, reader, hnoted] using ih { s with lexer }
      | none =>
        cases hoffset : report.offset with
        | ok o =>
          simpa [receive, note, Reader.hear, reader, hnoted, hoffset, bind, Except.bind, pure, Except.pure]
            using ih { s with lexer, noted := some o }
        | error fault =>
          simp [receive, note, Reader.hear, reader, hnoted, hoffset, bind, Except.bind, settle, ofReader]
    | skipped => exact ih { s with lexer }
    | failed fault => rfl
    | ended => rfl

theorem next_of_answers (h : l.Answers s os answer s') :
    l.scanner.next ⟨s, length, none, none⟩ =
      settle (.ok answer, s', { length, noted := os.head? }) := by
  show LexScan.next l ⟨s, length, none, none⟩ = _
  simp only [next, Option.isSome_none, Bool.false_eq_true, if_false, take_eq_settle, Lexer.request]
  rw [h.requestWithin _ le_rfl]
  rfl

theorem next_of_halt (h : l.Answers s os answer s') (hhalt : os ≠ [] ∨ IsEnd answer) :
    l.scanner.next ⟨s, length, none, none⟩ =
      (.ok none, ⟨s', length, os.head?, some (os.head?.getD length)⟩) := by
  rw [next_of_answers h, settle, Reader.conclude_eq_finish _ _ (hhalt.imp_left (by simp))]
  rfl

/-- A scanner alone takes what the requests give. -/
theorem all_of_gives (h : l.Gives length s ts stop) :
    ∃ s', l.scanner.all ⟨s, length, none, none⟩ = (.ok ts, s') ∧ s'.stop = some stop := by
  induction h with
  | @token s s' t ts stop ht hkind _ ih =>
    obtain ⟨u, hall, hstop⟩ := ih
    refine ⟨u, ?_, hstop⟩
    have hnext : l.scanner.next ⟨s, length, none, none⟩ = (.ok (some t), ⟨s', length, none, none⟩) := by
      rw [next_of_answers ht]
      simp [settle, Reader.conclude, hkind, ofReader]
    rw [Scanner.all_eq, hnext]
    simp only [hall]
    rfl
  | error herror => exact ⟨_, by rw [Scanner.all_eq, next_of_halt herror (.inl (by simp))], rfl⟩
  | ended hanswer hend => exact ⟨_, by rw [Scanner.all_eq, next_of_halt hanswer (.inr hend)], rfl⟩

end LexScan

/-! ### The newest of several scanners -/

/-- A map of states under which the next tokens agree is one under which all tokens agree. -/
theorem Scanner.all_map {σ τ : Type} (sc : Scanner σ) (sc' : Scanner τ) {f : σ → τ}
    (hnext : ∀ s, sc'.next (f s) = ((sc.next s).1, f (sc.next s).2)) (s : σ) :
    sc'.all (f s) = ((sc.all s).1, f (sc.all s).2) := by
  induction hn : sc.remaining s using Nat.strong_induction_on generalizing s with
  | _ n ih =>
    rw [sc.all_eq, sc'.all_eq, hnext]
    rcases h : sc.next s with ⟨reply, s'⟩
    rcases reply with fault | (_ | t)
    · rfl
    · rfl
    · simp only [ih _ (hn ▸ sc.next_lt h) s' rfl]

/-- Requests agree if listeners hear the same. -/
theorem Lexer.requestWithin_map {σ ρ ρ' : Type} {l : Lexer σ} {hear : ρ → Report → Except Fault Unit × ρ}
    {hear' : ρ' → Report → Except Fault Unit × ρ'} {g : ρ → ρ'}
    (hhear : ∀ r report, hear' (g r) report = ((hear r report).1, g (hear r report).2))
    (n : Nat) (s : σ) (r : ρ) :
    l.requestWithin hear' n s (g r) =
      ((l.requestWithin hear n s r).1, (l.requestWithin hear n s r).2.1,
        g (l.requestWithin hear n s r).2.2) := by
  induction n generalizing s r with
  | zero => rfl
  | succ n ih =>
    rw [requestWithin, requestWithin]
    rcases l.pull s with ⟨e, s'⟩
    cases e with
    | token t => rfl
    | report report =>
      simp only [hhear]
      rcases hear r report with ⟨_ | _, r'⟩
      · rfl
      · exact ih s' r'
    | skipped => exact ih s' r
    | failed fault => rfl
    | ended => rfl

namespace Shared

variable {σ : Type}

/-- The newest reader is the only one that hears of an error. -/
theorem tell_newest (report : Report) (readers : List Reader) (r : Reader) :
    tell report [readers.length] (readers ++ [r]) =
      ((r.hear report).1, readers ++ [(r.hear report).2]) := by
  rcases h : r.hear report with ⟨_ | _, r'⟩ <;> simp [tell, h]

theorem request_newest (l : Lexer σ) (readers : List Reader) (s : σ) (r : Reader) :
    l.request (fun readers' report => tell report [readers.length] readers') s (readers ++ [r]) =
      ((l.request Reader.hear s r).1, (l.request Reader.hear s r).2.1,
        readers ++ [(l.request Reader.hear s r).2.2]) :=
  Lexer.requestWithin_map (g := (readers ++ [·])) (fun r report => tell_newest report readers r) _ s r

/-- The newest scanner works as if it were alone. -/
theorem next_join (l : Lexer σ) (d : Shared σ) (s : LexScan σ) :
    (d.join s).next l d.readers.length = ((s.next l).1, d.join (s.next l).2) := by
  by_cases hstop : s.stop.isSome = true
  · simp [next, join, Session.leave, LexScan.next, hstop]
  · have hlexer : (d.join s).session.lexer = some s.lexer := rfl
    have hreader : (d.join s).readers[d.readers.length]? = some s.reader := by simp [join]
    have hrequest := request_newest l d.readers s.lexer s.reader
    simp only [next, hlexer, hreader, LexScan.stop_reader, hstop, LexScan.next, LexScan.take_eq_settle]
    simp only [join, hrequest]
    rcases l.request Reader.hear s.lexer s.reader with ⟨_ | answer, lexer, r⟩
    · simp [LexScan.settle, Session.leave]
    · simp [LexScan.settle, Session.leave]

/-- A new scanner of `text` hands out exactly these tokens, stops there, and has nothing left from then on,
whatever it is asked for. -/
def Scans (l : Lexer σ) (d : Shared σ) (text : Text) (ts : List Token) (stop : Int) : Prop :=
  ∃ d', (scanner l d.readers.length).all (d.create l text) = (.ok ts, d') ∧
    (scanner l d.readers.length).stop d' = some stop ∧
    ∀ calls, (scanner l d.readers.length).replies d' calls = calls.map fun c => (.ok c.nothing, d')

/-- The text is loaded as into a lexer that has not worked before. -/
theorem create_eq_join (l : Lexer σ) (d : Shared σ) (text : Text) :
    ∃ session, d.create l text = { d with session }.join (l.start l.fresh text) := by
  cases h : d.session.lexer with
  | none => exact ⟨⟨some l.fresh, d.session.made + 1⟩, by simp [create, Session.start, h]⟩
  | some lexer => exact ⟨d.session, by simp [create, Session.start, h, Lexer.start, l.load_eq lexer]⟩

theorem scans_of_gives {l : Lexer σ} {text : Text} {ts : List Token} {stop : Int} (d : Shared σ)
    (h : l.Gives text.length (l.load l.fresh text) ts stop) : d.Scans l text ts stop := by
  obtain ⟨session, hcreate⟩ := create_eq_join l d text
  obtain ⟨s, hall, hstop⟩ := LexScan.all_of_gives h
  have hnext := next_join l { d with session }
  have hrests : (scanner l d.readers.length).Rests ({ d with session }.join s) := by
    have hs : s.next l = (.ok none, s) := by simp [LexScan.next, hstop]
    show next l _ _ = _
    rw [hnext, hs]
  refine ⟨{ d with session }.join s, ?_, ?_, hrests.replies⟩
  · rw [hcreate, Scanner.all_map l.scanner (scanner l d.readers.length) hnext]
    simp only [Lexer.start, hall]
  · simp [scanner, Shared.stop, join, hstop]

end Shared

/-! ### Characters by a table -/

namespace Lexer

variable {table : List (Text × Int × Int)} {route : Route}

/-- The characters at the front of a text that are in the table. -/
def mapped (table : List (Text × Int × Int)) (text : Text) : Text :=
  text.takeWhile fun c => (table.lookup [c]).isSome

/-- One token for each of the characters at the front that are in the table, the first one at `position`. -/
def charTokens (table : List (Text × Int × Int)) (text : Text) (position : Nat) : List Token :=
  ((mapped table text).zipIdx position).filterMap fun (c, i) =>
    (table.lookup [c]).map fun (kind, channel) => ⟨some kind, channel, [c], i⟩

theorem offset_report (route : Route) (position : Nat) : (route.report position).offset = .ok position := by
  cases route <;> rfl

theorem answers_char {c : CodePoint} {kind channel : Int} (h : table.lookup [c] = some (kind, channel))
    (text : Text) (position : Nat) (ended : Bool) :
    (ofTable table route).Answers ⟨c :: text, position, ended⟩ []
      (some ⟨some kind, channel, [c], position⟩) ⟨text, position + 1, ended⟩ :=
  .token (by simp [ofTable, reading, pullChar, h])

theorem answers_error {c : CodePoint} {text : Text} {position : Nat} {ended : Bool} {os : List Int}
    {answer : Option Token} {s : Cursor} (h : table.lookup [c] = none)
    (rest : (ofTable table route).Answers ⟨text, position + 1, ended⟩ os answer s) :
    (ofTable table route).Answers ⟨c :: text, position, ended⟩ (position :: os) answer s :=
  .report (by simp [ofTable, reading, pullChar, h]) (offset_report route position) rest

theorem ofTable_responds (table : List (Text × Int × Int)) (route : Route) :
    (ofTable table route).Responds := by
  rintro ⟨text, position, ended⟩
  induction text generalizing position with
  | nil => exact ⟨[], none, _, .ended rfl⟩
  | cons c text ih =>
    cases hc : table.lookup [c] with
    | some entry => exact ⟨_, _, _, answers_char hc text position ended⟩
    | none =>
      obtain ⟨os, answer, s, h⟩ := ih (position + 1)
      exact ⟨_, _, _, answers_error hc h⟩

/-- Every character is a token, up to the first one that is not in the table. -/
theorem gives_ofTable (htable : ∀ entry ∈ table, entry.2.1 ≠ endKind) (route : Route) {text : Text}
    {length position : Nat} (hlength : length = position + text.length) (ended : Bool) :
    (ofTable table route).Gives length ⟨text, position, ended⟩ (charTokens table text position)
      ((position + (mapped table text).length : Nat) : Int) := by
  induction text generalizing position with
  | nil =>
    subst hlength
    exact .ended (.ended rfl) (by simp [IsEnd])
  | cons c text ih =>
    cases hc : table.lookup [c] with
    | some entry =>
      have hkind : entry.1 ≠ endKind := by
        obtain ⟨before, after, rfl, -⟩ := List.lookup_eq_some_iff.1 hc
        exact htable ([c], entry) (by simp)
      have hnext : length = position + 1 + text.length := by
        rw [hlength, List.length_cons]
        omega
      have htokens : charTokens table (c :: text) position =
          ⟨some entry.1, entry.2, [c], position⟩ :: charTokens table text (position + 1) := by
        simp [charTokens, mapped, hc]
      have hstop : position + (mapped table (c :: text)).length =
          position + 1 + (mapped table text).length := by
        simp [mapped, hc]
        omega
      rw [htokens, hstop]
      exact .token (answers_char hc text position ended) (by simpa using hkind) (ih hnext)
    | none =>
      -- the lexer goes on after the error, but the request has failed by then
      obtain ⟨os, answer, s, h⟩ := ofTable_responds table route ⟨text, position + 1, ended⟩
      have htokens : charTokens table (c :: text) position = [] := by simp [charTokens, mapped, hc]
      have hstop : position + (mapped table (c :: text)).length = position := by simp [mapped, hc]
      rw [htokens, hstop]
      exact .error (answers_error hc h)

end Lexer

namespace Shared

/-- Take a lexer that answers every request, and any scanners made over it before and called in any order, to
their ends or not. A new scanner hands out the tokens of the requests before the first one that reports an
error or answers with the end; it stops at the first error of that request, or else at the end of the text,
and then stays as it is. All this is the same when nothing has happened before. If the lexer reads characters
by a table without the kind of the end, then the tokens are the characters up to the first one that is not in
the table, where it stops, by whichever route the lexer tells the position. -/
theorem newest_stops_at_first_error :
    (∀ {σ : Type} (l : Lexer σ), l.Responds → ∀ history text, ∃ ts stop,
      l.Gives text.length (l.load l.fresh text) ts stop ∧
      (run l {} history).Scans l text ts stop ∧ ({} : Shared σ).Scans l text ts stop ∧
      (({} : Session σ).scan l text).1 = .ok ⟨ts, some stop⟩) ∧
    ∀ table, (∀ entry ∈ table, entry.2.1 ≠ endKind) → ∀ route history text,
      (run (Lexer.ofTable table route) {} history).Scans (Lexer.ofTable table route) text
        (Lexer.charTokens table text 0) (Lexer.mapped table text).length := by
  refine ⟨fun l hl history text => ?_, fun table htable route history text => ?_⟩
  · obtain ⟨ts, stop, h⟩ := hl.exists_gives text.length (l.load l.fresh text)
    refine ⟨ts, stop, h, scans_of_gives _ h, scans_of_gives _ h, ?_⟩
    obtain ⟨s, hall, hstop⟩ := LexScan.all_of_gives h
    simp [Session.scan, Session.start, Lexer.start, hall, hstop, Except.map]
  · have h := Lexer.gives_ofTable htable route (Nat.zero_add text.length).symm false
    rw [Nat.zero_add] at h
    exact scans_of_gives _ h

/-- A table of two letters. -/
def twoLetters : List (Text × Int × Int) := [(['a'], 1, 0), (['b'], 2, 1)]

/-- A first scanner goes on after a second one was made. -/
def crossing : List Step :=
  [.create ['a', 'b'], .call 0 .next, .create ['b', '?', 'a'], .call 0 .all, .call 1 .next]

theorem unknown_mark_stops :
    (Lexer.ofTable twoLetters .tokenStart).Responds ∧ (∀ entry ∈ twoLetters, entry.2.1 ≠ endKind) ∧
      (({} : Session Cursor).scan (Lexer.ofTable twoLetters .tokenStart) ['a', 'b', '?', 'b']).1 =
        .ok ⟨[⟨some 1, 0, ['a'], 0⟩, ⟨some 2, 1, ['b'], 1⟩], some 2⟩ ∧
      (run (Lexer.ofTable twoLetters .tokenStart) {} crossing).Scans (Lexer.ofTable twoLetters .tokenStart)
        ['a', 'b', '?', 'b'] [⟨some 1, 0, ['a'], 0⟩, ⟨some 2, 1, ['b'], 1⟩] 2 := by
  have hresponds := Lexer.ofTable_responds twoLetters .tokenStart
  have hkinds : ∀ entry ∈ twoLetters, entry.2.1 ≠ endKind := by decide
  obtain ⟨hlexer, htable⟩ := newest_stops_at_first_error
  have hscans := htable twoLetters hkinds .tokenStart crossing ['a', 'b', '?', 'b']
  obtain ⟨ts, stop, -, ⟨d, hall, hstop, -⟩, -, hscan⟩ :=
    hlexer (Lexer.ofTable twoLetters .tokenStart) hresponds crossing ['a', 'b', '?', 'b']
  refine ⟨hresponds, hkinds, ?_, hscans⟩
  obtain ⟨d', hall', hstop', -⟩ := hscans
  rw [hall] at hall'
  cases hall'
  rw [hstop] at hstop'
  cases hstop'
  exact hscan

end Shared
end Typeahead
