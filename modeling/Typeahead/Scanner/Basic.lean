import Typeahead.Fault
import Typeahead.Token

/-!
Scanners hand out the tokens of a text one by one until they stop. `Scanner.all` takes everything
that is left.
-/
namespace Typeahead

/-- A scanner with states `σ`. There is less left to scan after every token, so scanning ends. -/
structure Scanner (σ : Type) where
  /-- The next token, or none once scanning has stopped. -/
  next : σ → Except Fault (Option Token) × σ
  /-- Where scanning stopped, if it has. -/
  stop : σ → Option Int
  remaining : σ → Nat
  next_lt : ∀ {s s' t}, next s = (.ok (some t), s') → remaining s' < remaining s

namespace Scanner

variable {σ : Type}

/-- The next tokens, at most `n` of them. -/
def upTo (sc : Scanner σ) : Nat → σ → Except Fault (List Token) × σ
  | 0, s => (.ok [], s)
  | n + 1, s =>
    match sc.next s with
    | (.error fault, s') => (.error fault, s')
    | (.ok none, s') => (.ok [], s')
    | (.ok (some t), s') =>
      let (rest, s'') := sc.upTo n s'
      (rest.map (t :: ·), s'')

/-- All tokens that are left. There are fewer of them than `remaining` tells. -/
def all (sc : Scanner σ) (s : σ) : Except Fault (List Token) × σ := sc.upTo (sc.remaining s + 1) s

/-- Asking for more than there can be changes nothing. -/
theorem upTo_eq_all (sc : Scanner σ) {n : Nat} {s : σ} (h : sc.remaining s < n) :
    sc.upTo n s = sc.all s := by
  suffices h : ∀ n m s, sc.remaining s < n → sc.remaining s < m → sc.upTo n s = sc.upTo m s from
    h n _ s ‹_› (Nat.lt_succ_self _)
  intro n
  induction n with
  | zero =>
    intro m s h
    exact absurd h (Nat.not_lt_zero _)
  | succ n ih =>
    intro m s hn hm
    cases m with
    | zero => exact absurd hm (Nat.not_lt_zero _)
    | succ m =>
      simp only [upTo]
      split
      · rfl
      · rfl
      · rename_i t s' hnext
        have := sc.next_lt hnext
        rw [ih m s' (by omega) (by omega)]

/-- All tokens are the next one and those after it. -/
theorem all_eq (sc : Scanner σ) (s : σ) :
    sc.all s =
      match sc.next s with
      | (.error fault, s') => (.error fault, s')
      | (.ok none, s') => (.ok [], s')
      | (.ok (some t), s') => ((sc.all s').1.map (t :: ·), (sc.all s').2) := by
  rw [all, upTo]
  split
  · rfl
  · rfl
  · rename_i t s' hnext
    rw [sc.upTo_eq_all (sc.next_lt hnext)]

/-- Scans to the end. -/
def scan (sc : Scanner σ) (s : σ) : Except Fault Scan :=
  let (tokens, s') := sc.all s
  tokens.map fun tokens => ⟨tokens, sc.stop s'⟩

/-- What a scanner can be asked for. -/
inductive Call where
  | next
  | all
deriving DecidableEq, Repr

inductive Reply where
  | token (t : Option Token)
  | tokens (ts : List Token)
deriving DecidableEq, Repr

def call (sc : Scanner σ) (s : σ) : Call → Except Fault Reply × σ
  | .next => let (r, s') := sc.next s; (r.map .token, s')
  | .all => let (r, s') := sc.all s; (r.map .tokens, s')

/-- The replies to calls in order, each with the state after it. -/
def replies (sc : Scanner σ) (s : σ) : List Call → List (Except Fault Reply × σ)
  | [] => []
  | c :: rest =>
    let (r, s') := sc.call s c
    (r, s') :: sc.replies s' rest

end Scanner

/-- A match of one or more characters, with what it means. -/
structure Match (α : Type) where
  length : Nat
  meaning : α
  positive : 0 < length

namespace Match

variable {α : Type}

/-- A match of `length` characters, if there are any. -/
def ofLength? (length : Nat) (meaning : α) : Option (Match α) :=
  if h : 0 < length then some ⟨length, meaning, h⟩ else none

/-- The longer of two matches; of equally long ones the first. -/
def longer : Option (Match α) → Option (Match α) → Option (Match α)
  | some m, some m' => if m.length < m'.length then some m' else some m
  | none, m' => m'
  | m, none => m

/-- The first of the longest matches. -/
def longest (candidates : List (Option (Match α))) : Option (Match α) := candidates.foldl longer none

theorem length_drop_lt {β : Type} (m : Match α) {l : List β} (h : l ≠ []) :
    (l.drop m.length).length < l.length := by
  have := m.positive
  have := List.length_pos_iff.2 h
  simp only [List.length_drop]
  omega

end Match
end Typeahead
