import Stela.Library.FloatFormat
import Stela.Lex.ParseString

/-!
# The conversions of the C library

`strtoll`, `strtoull` and `strtold` as the C standard specifies them in the "C" locale, with a 64-bit `long long`
and the `long double` of x86-64. The argument is the text before the terminating null character. Negative zero
is zero here.
-/

namespace Stela.Lex

open Stela.Library ParseString

/-- The value returned, the number of characters between the argument and `end`, and whether `errno` is set. -/
structure Conversion (α : Type) where
  value : α
  used : ℕ
  erange : Bool

/-- The value of a digit, and a number that is not below any base when the character is not a digit. -/
def digitValue (c : Char) : ℕ :=
  if 48 ≤ c.toNat ∧ c.toNat ≤ 57 then c.toNat - 48
  else if 97 ≤ c.toNat ∧ c.toNat ≤ 122 then c.toNat - 87
  else if 65 ≤ c.toNat ∧ c.toNat ≤ 90 then c.toNat - 55
  else 36

def isDigitOf (base : ℕ) (c : Char) : Bool := digitValue c < base

/-- The number that the digits denote. -/
def ofDigits (base : ℕ) (digits : List Char) : ℕ :=
  digits.foldl (fun n c ↦ n * base + digitValue c) 0

/-- Whether there is a minus sign, and the text after the sign. -/
def scanSign : List Char → Bool × List Char
  | '-' :: s => (true, s)
  | '+' :: s => (false, s)
  | s => (false, s)

/-- Whether there is a minus sign after the white space. -/
def hasMinus (s : List Char) : Bool := (scanSign (s.dropWhile isspace)).1

/-- The text after the white space and the sign. -/
def afterSign (s : List Char) : List Char := (scanSign (s.dropWhile isspace)).2

def scanHexMark : List Char → Option (List Char)
  | '0' :: 'x' :: s => some s
  | '0' :: 'X' :: s => some s
  | _ => none

def negateIf (neg : Bool) (n : ℤ) : ℤ := if neg then -n else n

/-! ## Integers -/

/-- The digits of the base that the text starts with: their number and how many there are. -/
def scanDigits (base : ℕ) (s : List Char) : Option (ℕ × ℕ) :=
  let digits := s.takeWhile (isDigitOf base)
  if digits = [] then none else some (ofDigits base digits, digits.length)

/-- An integer without its sign: the number, and the characters used. -/
def scanInteger (base : ℕ) (s : List Char) : Option (ℕ × ℕ) :=
  match (if base = 0 ∨ base = 16 then (scanHexMark s).bind (scanDigits 16) else none) with
  | some (n, used) => some (n, used + 2)
  | none => scanDigits (if base = 0 then if s.head? = some '0' then 8 else 10 else base) s

/-- The sign, the number and all the characters used, white space included. -/
def scanSigned (base : ℕ) (s : List Char) : Option (Bool × ℕ × ℕ) :=
  (scanInteger base (afterSign s)).map fun r ↦ (hasMinus s, r.1, s.length - (afterSign s).length + r.2)

def strtoll (s : List Char) (base : ℕ) : Conversion ℤ :=
  match scanSigned base s with
  | none => ⟨0, 0, false⟩
  | some (neg, n, used) =>
    if negateIf neg n < -2 ^ 63 then ⟨-2 ^ 63, used, true⟩
    else if 2 ^ 63 ≤ negateIf neg n then ⟨2 ^ 63 - 1, used, true⟩
    else ⟨negateIf neg n, used, false⟩

/-- A number with a minus sign is negated in the result type. -/
def strtoull (s : List Char) (base : ℕ) : Conversion ℤ :=
  match scanSigned base s with
  | none => ⟨0, 0, false⟩
  | some (neg, n, used) =>
    if 2 ^ 64 ≤ n then ⟨2 ^ 64 - 1, used, true⟩ else ⟨negateIf neg n % 2 ^ 64, used, false⟩

/-! ## Real numbers -/

/-- Digits with at most one point among them: the number without the point, the digits after the point, and the
characters used. -/
def scanMantissa (base : ℕ) (s : List Char) : Option (ℕ × ℕ × ℕ) :=
  let int := s.takeWhile (isDigitOf base)
  match s.dropWhile (isDigitOf base) with
  | '.' :: rest =>
    let frac := rest.takeWhile (isDigitOf base)
    if int = [] ∧ frac = [] then none
    else some (ofDigits base (int ++ frac), frac.length, int.length + 1 + frac.length)
  | _ => if int = [] then none else some (ofDigits base int, 0, int.length)

/-- The exponent after its mark and the characters used, zero of both when there is none. -/
def scanExponent (mark : Char) : List Char → ℤ × ℕ
  | [] => (0, 0)
  | c :: s =>
    let (neg, body) := scanSign s
    match scanDigits 10 body with
    | some (n, used) => if c.toLower = mark then (negateIf neg n, s.length + 1 - body.length + used) else (0, 0)
    | none => (0, 0)

/-- A number without its sign, and the characters used. -/
def scanReal (s : List Char) : Option (ℚ × ℕ) :=
  match (scanHexMark s).bind (scanMantissa 16) with
  | some (n, places, used) =>
    let (exp, usedExp) := scanExponent 'p' (s.drop (used + 2))
    some (n * 2 ^ (exp - 4 * places), used + 2 + usedExp)
  | none =>
    match scanMantissa 10 s with
    | some (n, places, used) =>
      let (exp, usedExp) := scanExponent 'e' (s.drop used)
      some (n * 10 ^ (exp - places), used + usedExp)
    | none => none

def startsWith (word : List Char) (s : List Char) : Bool := (s.take word.length).map Char.toLower = word

def isWordChar (c : Char) : Bool := digitValue c < 36 || c = '_'

/-- The characters in parentheses that may follow `nan`. -/
def nanTag (s : List Char) : ℕ :=
  match s with
  | '(' :: s =>
    match s.dropWhile isWordChar with
    | ')' :: _ => (s.takeWhile isWordChar).length + 2
    | _ => 0
  | _ => 0

def longDouble : FloatFormat := ⟨64, -16445, 16384⟩

/-- The value of a number and whether it overflows, or loses digits below the smallest normal number. -/
def toLongDouble (q : ℚ) : Floating × Bool :=
  let r := longDouble.round q
  if longDouble.IsFinite r then (.finite r, r ≠ q ∧ |q| < 2 ^ (-16382 : ℤ)) else (.infinity (q < 0), true)

def strtold (s : List Char) : Conversion Floating :=
  let before := s.length - (afterSign s).length
  match scanReal (afterSign s) with
  | some (q, used) =>
    let converted := toLongDouble (if hasMinus s then -q else q)
    ⟨converted.1, before + used, converted.2⟩
  | none =>
    if startsWith ['i', 'n', 'f', 'i', 'n', 'i', 't', 'y'] (afterSign s) then
      ⟨.infinity (hasMinus s), before + 8, false⟩
    else if startsWith ['i', 'n', 'f'] (afterSign s) then ⟨.infinity (hasMinus s), before + 3, false⟩
    else if startsWith ['n', 'a', 'n'] (afterSign s) then
      ⟨.nan, before + 3 + nanTag ((afterSign s).drop 3), false⟩
    else ⟨.finite 0, 0, false⟩

end Stela.Lex
