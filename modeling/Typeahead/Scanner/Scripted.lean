import Typeahead.Scanner.Lexer

/-!
Two simple lexers: one reads single characters by a table, one replays a list of events.
-/
namespace Typeahead

/-- By which route a lexer tells the position of an error. -/
inductive Route where
  | start
  | tokenStart
  | column
deriving DecidableEq, Repr

namespace Route

/-- A report of an error at `position`. -/
def report : Route → Nat → Report
  | .start, position => { start := .int position }
  | .tokenStart, position => { tokenStart := .int position }
  | .column, position => { column := .int position }

end Route

/-- A text that is being read: what is left of it, the position of that, and whether the end of the
text was seen. -/
structure Cursor where
  rest : Text := []
  position : Nat := 0
  ended : Bool := false
deriving DecidableEq, Repr

namespace Cursor

/-- The cursor after `n` characters. -/
def read (c : Cursor) (n : Nat) : Cursor :=
  ⟨c.rest.drop n, c.position + n, (c.rest.drop n).isEmpty⟩

/-- The characters left, and the end if it was not seen. -/
def remaining (c : Cursor) : Nat := c.rest.length + if c.ended then 0 else 1

theorem remaining_read_lt {c : Cursor} {n : Nat} (h : c.ended = false) (hn : 0 < n ∨ c.rest = []) :
    (c.read n).remaining < c.remaining := by
  simp only [remaining, read, h, List.isEmpty_iff]
  by_cases hd : c.rest.drop n = []
  · simp [hd]
  · have : c.rest ≠ [] := by
      intro he
      simp [he] at hd
    have hlen := List.length_pos_iff.2 this
    have : 0 < n := hn.resolve_right ‹_›
    simp [hd]
    omega

end Cursor

namespace Lexer

/-- A lexer that reads a text from its front. -/
def reading (pull : Cursor → LexEvent × Cursor)
    (pull_lt : ∀ {s s' e}, pull s = (e, s') → e.isProgress = true → s'.remaining < s.remaining) :
    Lexer Cursor where
  fresh := {}
  load _ text := { rest := text }
  pull := pull
  remaining := Cursor.remaining
  pull_lt := pull_lt
  load_eq _ _ := rfl

/-- The next character by a table of kinds and channels; a character that is not in the table is an
error. -/
def pullChar (table : List (Text × Int × Int)) (route : Route) (s : Cursor) : LexEvent × Cursor :=
  match s.rest with
  | [] => (.ended, s)
  | c :: rest =>
    let after : Cursor := { s with rest, position := s.position + 1 }
    match table.lookup [c] with
    | some (kind, channel) => (.token ⟨some kind, channel, [c], s.position⟩, after)
    | none => (.report (route.report s.position), after)

theorem pullChar_lt {table : List (Text × Int × Int)} {route : Route} {s s' : Cursor}
    {e : LexEvent} (h : pullChar table route s = (e, s')) (he : e.isProgress = true) :
    s'.remaining < s.remaining := by
  simp only [pullChar] at h
  split at h
  · simp only [Prod.mk.injEq] at h
    simp [← h.1, LexEvent.isProgress] at he
  · rename_i c rest hrest
    split at h <;>
      · simp only [Prod.mk.injEq] at h
        simp only [← h.2, Cursor.remaining, hrest, List.length_cons]
        omega

/-- Every character in the table is a token. -/
def ofTable (table : List (Text × Int × Int)) (route : Route) : Lexer Cursor :=
  reading (pullChar table route) pullChar_lt

/-- Replays events, whatever the text, and then ends. -/
def replay (events : List LexEvent) : Lexer (List LexEvent) where
  fresh := events
  load _ _ := events
  pull
    | [] => (.ended, [])
    | e :: rest => (e, rest)
  remaining := List.length
  pull_lt {s s' e} h he := by
    split at h <;> simp only [Prod.mk.injEq] at h
    · simp [← h.1, LexEvent.isProgress] at he
    · simp [← h.2]
  load_eq _ _ := rfl

end Lexer
end Typeahead
