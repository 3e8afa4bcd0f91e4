-- The C library's functions on text that the programs call, over lists of
-- characters: the end of the list is the end of the string. And the numbers that
-- they put into an int.
import Mathlib.Tactic

namespace ics_labs.ctext

abbrev Text := List Char

/-- A number that is put into an `int`, which wraps. -/
def int (x : Int) : Int := x.bmod (2 ^ 32)

/-- `isspace`. -/
def isspace (c : Char) : Bool :=
  c == ' ' || c == '\t' || c == '\n' || c == '\x0b' || c == '\x0c' || c == '\r'

def digits : Text → Int → Int
  | [], n => n
  | c :: cs, n => if c.isDigit then digits cs (10 * n + (c.toNat - '0'.toNat : Nat)) else n

/-- The sign in front of a number, taken off: is it a minus? -/
def takeSign : Text → Bool × Text
  | [] => (false, [])
  | c :: cs => if c = '-' then (true, cs) else if c = '+' then (false, cs) else (false, c :: cs)

/-- `atoi`: blanks, a sign, digits. The value has no bound; in C a number that is no `int` has no
defined value. -/
def atoi (cs : Text) : Int :=
  let (neg, t) := takeSign (cs.dropWhile isspace)
  if neg then -digits t 0 else digits t 0

/-- The value of a character as a digit, 36 for a character that is none. -/
def digitVal (c : Char) : Nat :=
  if '0' ≤ c ∧ c ≤ '9' then c.toNat - '0'.toNat
  else if 'a' ≤ c ∧ c ≤ 'z' then c.toNat - 'a'.toNat + 10
  else if 'A' ≤ c ∧ c ≤ 'Z' then c.toNat - 'A'.toNat + 10
  else 36

def isDigitIn (base : Nat) (c : Char) : Bool := digitVal c < base

/-- The number that a row of digits spells. -/
def number (base : Nat) (ds : Text) : Nat := ds.foldl (fun n c => base * n + digitVal c) 0

/-- Is there `0x` in front of a hexadecimal digit? -/
def hasHexMark : Text → Bool
  | z :: x :: d :: _ => z == '0' && (x == 'x' || x == 'X') && isDigitIn 16 d
  | _ => false

/-- The base that the front of a number names, with its mark taken off. -/
def takeBase (cs : Text) : Nat × Text :=
  if hasHexMark cs then (16, cs.drop 2)
  else if cs.head? = some '0' then (8, cs)
  else (10, cs)

/-- The value of a number with its sign, in 64 bits. A number that is too large becomes the
largest one, whatever its sign. -/
def signed (neg : Bool) (n : Nat) : BitVec 64 :=
  if n < 2 ^ 64 then (if neg then -BitVec.ofNat 64 n else BitVec.ofNat 64 n) else BitVec.allOnes 64

/-- `strtoull(cs, &end, 0)`: the value and the text at `end`. -/
def strtoull (cs : Text) : BitVec 64 × Text :=
  let (neg, t) := takeSign (cs.dropWhile isspace)
  let (base, t) := takeBase t
  let ds := t.takeWhile (isDigitIn base)
  if ds = [] then (0, cs) else (signed neg (number base ds), t.dropWhile (isDigitIn base))

/-! ## A row of characters and what stands behind it -/

/-- The first character of the text, if there is one, fails the test. -/
def StopsAt (p : Char → Bool) (t : Text) : Prop := ∀ c ∈ t.head?, p c = false

theorem takeWhile_stop {p : Char → Bool} {a t : Text} (ha : ∀ c ∈ a, p c = true)
    (ht : StopsAt p t) : (a ++ t).takeWhile p = a := by
  rw [List.takeWhile_append_of_pos ha]
  cases t with
  | nil => simp
  | cons c t => simp [ht c rfl]

theorem dropWhile_stop {p : Char → Bool} {a t : Text} (ha : ∀ c ∈ a, p c = true)
    (ht : StopsAt p t) : (a ++ t).dropWhile p = t := by
  rw [List.dropWhile_append_of_pos ha]
  cases t with
  | nil => rfl
  | cons c t => simp [ht c rfl]

theorem stopsAt_cons {p : Char → Bool} {c : Char} {t : Text} (h : p c = false) :
    StopsAt p (c :: t) := by
  intro d hd
  cases hd
  exact h

/-- The first character behind a row of characters that pass. -/
theorem stopsAt_append {p : Char → Bool} {b t : Text} (hb : ∀ c ∈ b, p c = false)
    (ht : StopsAt p t) : StopsAt p (b ++ t) := by
  cases b with
  | nil => exact ht
  | cons c b => exact stopsAt_cons (hb c (by simp))

end ics_labs.ctext
