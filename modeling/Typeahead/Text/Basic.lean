/-!
Characters and texts. A character is any code point, those between `0xD800` and `0xDFFF` included,
which no `Char` has: every label below `0x110000` stands for a character. Texts are lists of
characters, so that a length counts characters and a suffix is a `drop`.
-/
namespace Typeahead

/-- A character of a text. -/
@[ext] structure CodePoint where
  toNat : Nat
  isLt : toNat < 0x110000
deriving DecidableEq, Repr

namespace CodePoint

theorem toNat_inj {c d : CodePoint} : c.toNat = d.toNat ↔ c = d := CodePoint.ext_iff.symm

/-- The character with a given code; beyond the last code point there is none, and `0` stands in. -/
def ofNat (code : Nat) : CodePoint :=
  if h : code < 0x110000 then ⟨code, h⟩ else ⟨0, by decide⟩

theorem toNat_ofNat {code : Nat} (h : code < 0x110000) : (ofNat code).toNat = code := by
  simp [ofNat, h]

def ofChar (c : Char) : CodePoint where
  toNat := c.toNat
  isLt := by
    have h : c.toNat < 0xD800 ∨ 0xDFFF < c.toNat ∧ c.toNat < 0x110000 := c.valid
    omega

instance : Coe Char CodePoint := ⟨ofChar⟩

@[simp] theorem toNat_ofChar (c : Char) : (ofChar c).toNat = c.toNat := rfl

@[simp] theorem ofChar_inj {c d : Char} : ofChar c = ofChar d ↔ c = d := by
  rw [← toNat_inj, toNat_ofChar, toNat_ofChar, Char.toNat_inj]

/-- The `Char` with the same code. Codes between `0xD800` and `0xDFFF` have none. -/
def toChar (c : CodePoint) : Char := Char.ofNat c.toNat

end CodePoint

abbrev Text := List CodePoint

namespace Text

def ofString (s : String) : Text := s.toList.map CodePoint.ofChar

instance : Coe String Text := ⟨ofString⟩

/-- Texts are hashed by their code points. -/
instance (priority := 2000) : Hashable Text :=
  ⟨fun t => t.foldl (fun h c => mixHash h (hash c.toNat)) 7⟩

instance (priority := 2000) : LawfulBEq Text := List.instLawfulBEq

/-- Blank characters: the ones removed around a label. -/
def isBlank (c : CodePoint) : Bool :=
  let code := c.toNat
  (0x09 ≤ code && code ≤ 0x0D) || (0x1C ≤ code && code ≤ 0x20) || code == 0x85 || code == 0xA0 ||
    code == 0x1680 || (0x2000 ≤ code && code ≤ 0x200A) || code == 0x2028 || code == 0x2029 ||
    code == 0x202F || code == 0x205F || code == 0x3000

/-- The text without the blanks around it. -/
def strip (t : Text) : Text :=
  ((t.dropWhile isBlank).reverse.dropWhile isBlank).reverse

/-- What follows position `start`. A negative position counts from the end; one that lies outside
the text is moved to the nearer end. -/
def after (t : Text) (start : Int) : Text :=
  t.drop (if start < 0 then t.length + start else start).toNat

theorem after_natCast (t : Text) (n : Nat) : t.after n = t.drop n := by
  have : ¬ (n : Int) < 0 := by omega
  simp [after, this]

end Text
end Typeahead
