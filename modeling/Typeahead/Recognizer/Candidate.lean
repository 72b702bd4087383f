import Typeahead.Value

/-!
Things offered as recognizers. Before one is used it is checked that it has the parts of a
recognizer and can be asked for what a recognizer does.
-/
namespace Typeahead

/-- What an offered thing holds under a name. -/
inductive Attribute where
  | value (v : Value)
  /-- A part that only recognizers have. -/
  | part
  /-- Something that can be called. -/
  | operation

structure Candidate where
  /-- The name of its type. -/
  name : String
  attributes : List (String × Attribute) := []

namespace Candidate

/-- The parts of a recognizer. -/
def parts : List String := ["char_automaton", "token_automaton", "initial_state"]

/-- What a recognizer can be asked for. -/
def operations : List String := ["create_scanner", "find_state_by_token_kind"]

/-- A part is there if it is not null, however empty it may be. -/
def hasPart (c : Candidate) (part : String) : Bool :=
  match c.attributes.lookup part with
  | none | some (.value .null) => false
  | some _ => true

def hasOperation (c : Candidate) (operation : String) : Bool :=
  match c.attributes.lookup operation with
  | some .operation => true
  | _ => false

/-- Names the parts that are missing, or else the first operation that is. -/
def check (c : Candidate) : Except Fault Unit :=
  let missing := parts.filter (!c.hasPart ·)
  if !missing.isEmpty then .error (.missingParts c.name missing)
  else
    match operations.find? (!c.hasOperation ·) with
    | some operation => .error (.missingOperation c.name operation)
    | none => .ok ()

/-- A recognizer has everything. -/
def ofRecognizer (name : String) : Candidate where
  name
  attributes := parts.map (·, .part) ++ operations.map (·, .operation)

theorem check_ofRecognizer (name : String) : (ofRecognizer name).check = .ok () := by
  simp [check, ofRecognizer, parts, operations, hasPart, hasOperation, List.lookup_cons]

/-- A plain value has nothing of a recognizer. -/
def ofValue (v : Value) : Candidate := { name := v.typeName }

end Candidate
end Typeahead
