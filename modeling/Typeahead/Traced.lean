import Typeahead.Note

/-!
Computations that take notes and may end in a fault. Notes taken before a fault are kept.
-/
namespace Typeahead

structure Traced (α : Type) where
  notes : List Note
  outcome : Except Fault α

namespace Traced

variable {α β : Type}

instance : Monad Traced where
  pure a := ⟨[], .ok a⟩
  bind x f :=
    match x.outcome with
    | .error fault => ⟨x.notes, .error fault⟩
    | .ok a => let y := f a; ⟨x.notes ++ y.notes, y.outcome⟩

/-- Takes a note. -/
def tell (note : Note) : Traced Unit := ⟨[note], .ok ()⟩

/-- A computation that takes no notes. -/
def lift (outcome : Except Fault α) : Traced α := ⟨[], outcome⟩

instance : LawfulMonad Traced :=
  LawfulMonad.mk' Traced
    (fun x => by cases h : x.outcome <;> simp [Functor.map, h] <;> rw [← h])
    (fun _ _ => rfl)
    (fun x f g => by
      cases h : x.outcome with
      | error fault => simp [bind, h]
      | ok a => cases h' : (f a).outcome <;> simp [bind, h, h'])

@[simp] theorem outcome_pure (a : α) : (pure a : Traced α).outcome = .ok a := rfl

@[simp] theorem outcome_tell (note : Note) : (tell note).outcome = .ok () := rfl

@[simp] theorem outcome_lift (outcome : Except Fault α) : (lift outcome).outcome = outcome := rfl

/-- Notes have no influence on outcomes. -/
@[simp] theorem outcome_bind (x : Traced α) (f : α → Traced β) :
    (x >>= f).outcome = x.outcome >>= fun a => (f a).outcome := by
  cases h : x.outcome <;> simp [bind, h, Except.bind]

end Traced
end Typeahead
