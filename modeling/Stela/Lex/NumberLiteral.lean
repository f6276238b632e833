import Stela.Lex.StringToNumber
import Stela.Library.Except

/-!
# Number literals and escape sequences

The lexer asks `validNumberLiteral` how many characters of the source are a number; the semantic phase turns the
body of a string into its characters with `parseStringLiteral`.
-/

namespace Stela.Lex

open Stela.Library ParseString

/-- The number types that the templates are instantiated with. -/
inductive NumberType
  | byte | char | real | sint | uint | longLong
  deriving DecidableEq, Repr

/-- The single precision numbers of `Real`. -/
def single : FloatFormat := ⟨24, -149, 128⟩

namespace NumberType

def lowest : NumberType → ℚ
  | byte => 0
  | char => -128
  | real => -(2 ^ 24 - 1) * 2 ^ 104
  | sint => -2 ^ 31
  | uint => 0
  | longLong => -2 ^ 63

def max : NumberType → ℚ
  | byte => 255
  | char => 127
  | real => (2 ^ 24 - 1) * 2 ^ 104
  | sint => 2 ^ 31 - 1
  | uint => 2 ^ 32 - 1
  | longLong => 2 ^ 63 - 1

/-- The digits after the point are dropped. -/
def truncate (q : ℚ) : ℤ := if 0 ≤ q then ⌊q⌋ else -⌊-q⌋

def wrap (ty : NumberType) (modulus n : ℤ) : ℤ := (n - ⌊ty.lowest⌋) % modulus + ⌊ty.lowest⌋

/-- `static_cast`. The conversion of a number that the integer type does not have is undefined for a `Real`; it
keeps the low bits here, as on x86-64, where the only such numbers that are converted, `2 ^ 31` to `Sint` and
`2 ^ 32` to `Uint`, become `-2 ^ 31` and `0`. -/
def cast (q : ℚ) : NumberType → ℚ
  | byte => wrap byte (2 ^ 8) (truncate q)
  | char => wrap char (2 ^ 8) (truncate q)
  | real => single.round q
  | sint => wrap sint (2 ^ 32) (truncate q)
  | uint => wrap uint (2 ^ 32) (truncate q)
  | longLong => wrap longLong (2 ^ 64) (truncate q)

end NumberType

/-! ## `from_chars` -/

/-- The distance of `ptr` from the first character, `err`, and the number when it has been assigned. -/
structure FromCharsResult where
  ptr : ℕ
  err : Bool
  number : Option Floating

def FromCharsResult.failed : FromCharsResult := ⟨0, true, none⟩

/-- The copy that the C library reads: at most 32 characters, and not past a null character. -/
def nullTerm (text : List Char) : List Char := (text.take 32).takeWhile (· ≠ '\x00')

/-- The checks that follow every conversion. -/
def fromConversion (ty : NumberType) (conv : Conversion Floating) : FromCharsResult :=
  if conv.erange ∨ (conv.used = 0 ∧ conv.value = .finite 0) then .failed
  else
    match conv.value with
    | .finite q =>
      if q < ty.lowest ∨ ty.max < q then .failed else ⟨conv.used, false, some (.finite (ty.cast q))⟩
    | .infinity _ => .failed
    | .nan => ⟨conv.used, false, some .nan⟩

def Conversion.toFloating (conv : Conversion ℤ) : Conversion Floating :=
  ⟨.finite conv.value, conv.used, conv.erange⟩

def fromChars (ty : NumberType) (text : List Char) (base : ℕ) : FromCharsResult :=
  match ty with
  | .real => fromConversion ty (strtold (nullTerm text))
  | .char | .sint | .longLong => fromConversion ty (strtoll (nullTerm text) base).toFloating
  | .byte | .uint => fromConversion ty (strtoull (nullTerm text) base).toFloating

/-- `inRange<Dst>(num)` for a number of the type `src`; every comparison with a NaN is false. -/
def inRange (dst src : NumberType) : Floating → Bool
  | .finite num => src.cast dst.lowest ≤ num ∧ num ≤ src.cast dst.max ∧ num = src.cast (dst.cast num)
  | _ => false

def eqEither (value a b : Char) : Bool := value = a || value = b

/-- A suffix, in its two letters, the type it stands for and the message when the number does not fit. -/
structure Suffix where
  lower : Char
  upper : Char
  type : NumberType
  message : String

def suffixes : List Suffix :=
  [⟨'b', 'B', .byte, "Number literal cannot be represented as byte"⟩,
   ⟨'c', 'C', .char, "Number literal cannot be represented as char"⟩,
   ⟨'r', 'R', .real, "Number literal cannot be represented as real"⟩,
   ⟨'s', 'S', .sint, "Number literal cannot be represented as sint"⟩,
   ⟨'u', 'U', .uint, "Number literal cannot be represented as uint"⟩]

/-- The first suffix that fits decides. -/
def checkSuffixes (suffix : Char) (src : NumberType) (num : Floating) (loc : LineCol) :
    List Suffix → Except Thrown Bool
  | [] => .ok false
  | s :: rest =>
    if eqEither suffix s.lower s.upper then
      if inRange s.type src num then .ok true else .error (.fatal loc s.message)
    else checkSuffixes suffix src num loc rest

def hasValidSuffix (suffix : Char) (src : NumberType) (num : Floating) (loc : LineCol) : Except Thrown Bool :=
  checkSuffixes suffix src num loc suffixes

/-- The attempts to read a number of each type, in order. The suffix is the character at `ptr`, which is read
wherever `ptr` points. -/
def tryNumbers (mem : Memory) (beg : ℕ) (str : List Char) (loc : LineCol) :
    List NumberType → Except Thrown ℕ
  | [] => .ok 0
  | ty :: types =>
    match fromChars ty str 0 with
    | ⟨size, false, some num⟩ =>
      match hasValidSuffix (mem (beg + size)) ty num loc with
      | .ok true => .ok (size + 1)
      | .ok false => .ok size
      | .error e => .error e
    | _ => tryNumbers mem beg str loc types

def validNumberLiteral (mem : Memory) (s : ParseString) (loc : LineCol) : Except Thrown ℕ :=
  if s.empty then .error .assertion else tryNumbers mem s.beg (s.view mem) loc [.real, .uint, .sint]

/-! ## Escape sequences -/

def isdigit (c : Char) : Bool := 48 ≤ c.toNat && c.toNat ≤ 57

def isOctDigit (c : Char) : Bool := isdigit c && c ≠ '8' && c ≠ '9'

def isHexDigit (c : Char) : Bool := isDigitOf 16 c

/-- The character of the digits that the text starts with, and the text after them. The iterator of the source
is left on the last digit, from where the loop steps on. -/
def parseCodeChar (base : ℕ) (isDigit : Char → Bool) (message : String) (ch : List Char) (loc : LineCol) :
    Except Thrown (Char × List Char) :=
  match fromChars .longLong (ch.takeWhile isDigit) base with
  | ⟨_, false, some (.finite code)⟩ =>
    if inRange .char .longLong (.finite code) then .ok (Char.ofNat code.num.toNat, ch.dropWhile isDigit)
    else .error (.fatal loc message)
  | _ => .error (.fatal loc message)

def parseOctChar (ch : List Char) (loc : LineCol) : Except Thrown (Char × List Char) :=
  parseCodeChar 8 isOctDigit "Octal sequence out of range" ch loc

def parseHexChar (ch : List Char) (loc : LineCol) : Except Thrown (Char × List Char) :=
  parseCodeChar 16 isHexDigit "Hex sequence out of range" ch loc

theorem parseCodeChar_rest {base : ℕ} {isDigit : Char → Bool} {message : String} {ch rest : List Char}
    {loc : LineCol} {c : Char} (h : parseCodeChar base isDigit message ch loc = .ok (c, rest)) :
    rest = ch.dropWhile isDigit := by
  rw [parseCodeChar] at h
  split at h
  · split at h
    · cases h
      rfl
    · cases h
  · cases h

/-- The character that a single-character escape stands for. -/
def simpleEscape (c : Char) : Option Char :=
  if c = '\'' ∨ c = '"' ∨ c = '?' ∨ c = '\\' then some c
  else if c = 'a' then some '\x07'
  else if c = 'b' then some '\x08'
  else if c = 'f' then some '\x0c'
  else if c = 'n' then some '\n'
  else if c = 'r' then some '\r'
  else if c = 't' then some '\t'
  else if c = 'v' then some '\x0b'
  else none

/-- The loop over the characters; the flag is `prevWasBack`. -/
def parseStringFrom (loc : LineCol) (prevWasBack : Bool) (lit : List Char) : Except Thrown (List Char) :=
  match prevWasBack, lit with
  | false, [] => .ok []
  | true, [] => .error .assertion
  | false, c :: rest =>
    if c = '\\' then parseStringFrom loc true rest
    else (c :: ·) <$> parseStringFrom loc false rest
  | true, c :: rest =>
    match simpleEscape c with
    | some b => (b :: ·) <$> parseStringFrom loc false rest
    | none =>
      if isOctDigit c then
        match _h : parseOctChar (c :: rest) loc with
        | .ok (b, after) => (b :: ·) <$> parseStringFrom loc false after
        | .error e => .error e
      else if c = 'x' then
        match _h : parseHexChar rest loc with
        | .ok (b, after) => (b :: ·) <$> parseStringFrom loc false after
        | .error e => .error e
      else parseStringFrom loc false rest
termination_by lit.length
decreasing_by
  · simp
  · simp
  · simp
  · rw [parseCodeChar_rest _h, List.dropWhile_cons_of_pos ‹_›]
    exact Nat.lt_succ_of_le (List.length_dropWhile_le _ rest)
  · rw [parseCodeChar_rest _h]
    exact Nat.lt_succ_of_le (List.length_dropWhile_le _ rest)
  · simp

def parseStringLiteral (lit : List Char) (loc : LineCol) : Except Thrown (List Char) :=
  parseStringFrom loc false lit

end Stela.Lex
