import Stela.Lex.NumberRanges
import Stela.Lex.LexicalAnalysis

/-!
# Escape sequences

The body of a literal reads as pieces: characters and escapes, where the digits of a numeric escape are as many as
there are. `parseStringLiteral` gives the characters that the pieces stand for, except that only the first 32
digits of a numeric escape count.
-/

namespace Stela.Lex

open Stela.Library ParseString NumberType

/-! ## The pieces of a body -/

inductive Piece
  | plain (c : Char)
  | escape (c : Char)
  | octal (digits : List Char)
  | hex (digits : List Char)
  /-- A backslash before a character that begins no escape. -/
  | unknown (c : Char)

namespace Piece

def text : Piece → List Char
  | plain c => [c]
  | escape c => ['\\', c]
  | octal digits => '\\' :: digits
  | hex digits => '\\' :: 'x' :: digits
  | unknown c => ['\\', c]

/-- The piece is well formed, and is what is read where this text follows it. -/
def Fits (next : List Char) : Piece → Prop
  | plain c => c ≠ '\\'
  | escape c => simpleEscape c ≠ none
  | octal digits => digits ≠ [] ∧ (∀ c ∈ digits, isOctDigit c) ∧ ∀ c ∈ next.head?, isOctDigit c = false
  | hex digits => (∀ c ∈ digits, isHexDigit c) ∧ ∀ c ∈ next.head?, isHexDigit c = false
  | unknown c => simpleEscape c = none ∧ isOctDigit c = false ∧ c ≠ 'x'

/-- The character with the number that the digits denote, when there are digits and the number is at most 127. -/
def code (base : ℕ) (digits : List Char) : Option (List Char) :=
  if digits ≠ [] ∧ ofDigits base digits ≤ 127 then some [Char.ofNat (ofDigits base digits)] else none

/-- The characters that the piece stands for, and nothing when it is an error. -/
def decode : Piece → Option (List Char)
  | plain c => some [c]
  | escape c => (simpleEscape c).map ([·])
  | octal digits => code 8 digits
  | hex digits => code 16 digits
  | unknown _ => some []

/-- The same, from the first 32 digits of a numeric escape. -/
def decode32 : Piece → Option (List Char)
  | octal digits => code 8 (digits.take 32)
  | hex digits => code 16 (digits.take 32)
  | p => p.decode

end Piece

/-- The body reads as these pieces. -/
inductive Reading : List Char → List Piece → Prop
  | nil : Reading [] []
  | cons {p next ps} : Piece.Fits next p → Reading next ps → Reading (p.text ++ next) (p :: ps)

/-- The characters of the pieces one after the other, and nothing when one of them is an error. -/
def decodeAll (decode : Piece → Option (List Char)) (ps : List Piece) : Option (List Char) :=
  (ps.mapM decode).map List.flatten

/-- The result is these characters, or a `FatalError` when there are none. -/
def Yields (r : Except Thrown (List Char)) : Option (List Char) → Prop
  | some cs => r = .ok cs
  | none => ∃ loc message, r = .error (.fatal loc message)

/-! ## Runs of digits -/

section

variable {c : Char} {digits next : List Char} {base : ℕ}

theorem isOctDigit_eq (c : Char) : isOctDigit c = isDigitOf 8 c := by
  have h8 : c = '8' ↔ c.toNat = 56 := Char.toNat_inj.symm
  have h9 : c = '9' ↔ c.toNat = 57 := Char.toNat_inj.symm
  rw [Bool.eq_iff_iff]
  simp only [isOctDigit, isdigit, isDigitOf, Bool.and_eq_true, decide_eq_true_eq, ne_eq, h8, h9]
  rw [digitValue]
  split_ifs <;> omega

theorem alnum_of_isDigitOf (hbase : base ≤ 36) (h : isDigitOf base c) :
    (48 ≤ c.toNat ∧ c.toNat ≤ 57) ∨ (97 ≤ c.toNat ∧ c.toNat ≤ 122) ∨ (65 ≤ c.toNat ∧ c.toNat ≤ 90) := by
  rw [isDigitOf, decide_eq_true_iff, digitValue] at h
  split_ifs at h with h₁ h₂ h₃
  · exact .inl h₁
  · exact .inr (.inl h₂)
  · exact .inr (.inr h₃)
  · omega

theorem nullTerm_digits (hbase : base ≤ 36) (h : ∀ c ∈ digits, isDigitOf base c) :
    nullTerm digits = digits.take 32 := by
  refine List.takeWhile_eq_self_iff.mpr fun c hc ↦ decide_eq_true fun hzero ↦ ?_
  have := alnum_of_isDigitOf hbase (h c (List.mem_of_mem_take hc))
  rw [hzero] at this
  revert this
  decide

theorem scanSigned_digits (hbase : base = 8 ∨ base = 16) (hne : digits ≠ []) (h : ∀ c ∈ digits, isDigitOf base c) :
    scanSigned base digits = some (false, ofDigits base digits, digits.length) := by
  obtain ⟨c, rest, rfl⟩ := List.exists_cons_of_ne_nil hne
  have hc := alnum_of_isDigitOf (by omega) (h c List.mem_cons_self)
  have hspace : isspace c = false := by
    have : c = ' ' ↔ c.toNat = 32 := Char.toNat_inj.symm
    simp only [isspace, this, Bool.or_eq_false_iff, decide_eq_false_iff_not, Bool.and_eq_false_iff]
    omega
  have hsign : scanSign (c :: rest) = (false, c :: rest) := by
    refine scanSign.eq_3 _ ?_ ?_ <;> rintro s ⟨⟩ <;> revert hc <;> decide
  have hdigits : scanDigits base (c :: rest) = some (ofDigits base (c :: rest), (c :: rest).length) := by
    rw [scanDigits, List.takeWhile_eq_self_iff.mpr h, if_neg (List.cons_ne_nil c rest)]
  have hint : scanInteger base (c :: rest) = some (ofDigits base (c :: rest), (c :: rest).length) := by
    have hmark : scanHexMark (c :: rest) = none := by
      refine scanHexMark.eq_3 _ ?_ ?_ <;> rintro s ⟨⟩ <;>
        exact absurd (h _ (List.mem_cons_of_mem _ List.mem_cons_self)) (by rcases hbase with rfl | rfl <;> decide)
    rcases hbase with rfl | rfl
    · exact hdigits
    · rw [scanInteger, if_pos (.inr rfl), hmark]
      exact hdigits
  have hdrop : (c :: rest).dropWhile isspace = c :: rest :=
    List.dropWhile_cons_of_neg (by rw [hspace]; exact Bool.false_ne_true)
  rw [scanSigned, afterSign, hasMinus, hdrop, hsign, hint]
  simp

theorem strtoll_digits (hbase : base = 8 ∨ base = 16) (hne : digits ≠ []) (h : ∀ c ∈ digits, isDigitOf base c) :
    strtoll digits base =
      if 2 ^ 63 ≤ ofDigits base digits then ⟨2 ^ 63 - 1, digits.length, true⟩
      else ⟨ofDigits base digits, digits.length, false⟩ := by
  rw [strtoll, scanSigned_digits hbase hne h]
  have hpos : negateIf false (ofDigits base digits) = ofDigits base digits := rfl
  simp only [hpos]
  rw [if_neg (by omega)]
  split_ifs with h₁ h₂ h₂
  · rfl
  · omega
  · omega
  · rfl

/-- The conversion of digits fails when there are none, or when the first 32 denote more than a `long long`. -/
theorem fromChars_digits (hbase : base = 8 ∨ base = 16) (h : ∀ c ∈ digits, isDigitOf base c) :
    fromChars .longLong digits base =
      if digits = [] ∨ 2 ^ 63 ≤ ofDigits base (digits.take 32) then .failed
      else ⟨(digits.take 32).length, false, some (.finite (ofDigits base (digits.take 32) : ℤ))⟩ := by
  rw [fromChars, nullTerm_digits (by omega) h]
  by_cases hnil : digits = []
  · subst hnil
    rw [if_pos (.inl rfl)]
    rcases hbase with rfl | rfl <;> rfl
  have hne : digits.take 32 ≠ [] := by simpa using hnil
  have hlen : (digits.take 32).length ≠ 0 := fun hzero ↦ hne (List.eq_nil_of_length_eq_zero hzero)
  simp only [fromConversion_intCast isRange_longLong,
    strtoll_digits hbase hne fun c hc ↦ h c (List.mem_of_mem_take hc)]
  by_cases hbig : 2 ^ 63 ≤ ofDigits base (digits.take 32)
  · rw [if_pos hbig, if_pos (.inl rfl), if_pos (.inr hbig)]
  · rw [if_neg hbig, if_neg (not_or.mpr ⟨hnil, hbig⟩), if_neg]
    simp only [hlen, false_and, false_or, Bool.false_eq_true]
    omega

theorem parseCodeChar_digits (hbase : base = 8 ∨ base = 16) {message : String} {loc : LineCol}
    (h : ∀ c ∈ digits, isDigitOf base c) (hnext : ∀ c ∈ next.head?, isDigitOf base c = false) :
    parseCodeChar base (isDigitOf base) message (digits ++ next) loc =
      match Piece.code base (digits.take 32) with
      | some cs => .ok (cs.headD '\x00', next)
      | none => .error (.fatal loc message) := by
  have htake : (digits ++ next).takeWhile (isDigitOf base) = digits := by
    rw [List.takeWhile_append_of_pos h]
    cases next with
    | nil => simp
    | cons c next => rw [List.takeWhile_cons_of_neg (by simpa using hnext c rfl), List.append_nil]
  have hdrop : (digits ++ next).dropWhile (isDigitOf base) = next := by
    rw [List.dropWhile_append_of_pos h]
    cases next with
    | nil => rfl
    | cons c next => exact List.dropWhile_cons_of_neg (by simpa using hnext c rfl)
  have hrange (n : ℕ) (hn : n < 2 ^ 63) : inRange .char .longLong (.finite (n : ℤ)) ↔ n ≤ 127 := by
    rw [inRange_intCast isRange_char isRange_longLong (by norm_num) (by norm_num) (by norm_num) (by omega)
      (by omega)]
    omega
  have htake32 : digits.take 32 = [] ↔ digits = [] := by simp
  rw [parseCodeChar, htake, hdrop, fromChars_digits hbase h, Piece.code]
  by_cases hbad : digits = [] ∨ 2 ^ 63 ≤ ofDigits base (digits.take 32)
  · have hcode : ¬(digits.take 32 ≠ [] ∧ ofDigits base (digits.take 32) ≤ 127) := by
      rintro ⟨hne, hle⟩
      obtain hnil | hbig := hbad
      · exact hne (htake32.mpr hnil)
      · omega
    rw [if_pos hbad, if_neg hcode]
    rfl
  · obtain ⟨hne, hlt⟩ := not_or.mp hbad
    rw [if_neg hbad]
    simp only [hrange _ (Nat.lt_of_not_le hlt)]
    by_cases hcode : ofDigits base (digits.take 32) ≤ 127
    · rw [if_pos hcode, if_pos ⟨mt htake32.mp hne, hcode⟩]
      simp
    · rw [if_neg hcode, if_neg fun h ↦ hcode h.2]

end

/-! ## The decoder on pieces -/

section

variable {loc : LineCol} {next body : List Char} {p : Piece} {ps : List Piece}

theorem isOctDigit_funext : isOctDigit = isDigitOf 8 := funext isOctDigit_eq

theorem simpleEscape_of_isOctDigit {c : Char} (h : isOctDigit c) : simpleEscape c = none := by
  rw [isOctDigit_eq, isDigitOf, decide_eq_true_iff, digitValue] at h
  simp only [simpleEscape, ← Char.toNat_inj]
  repeat rw [if_neg]
  all_goals
    simp only [Char.reduceToNat]
    split_ifs at h <;> omega

variable {c b : Char} {rest : List Char}

theorem parseStringFrom_plain (hc : c ≠ '\\') :
    parseStringFrom loc false (c :: rest) = (c :: ·) <$> parseStringFrom loc false rest := by
  rw [parseStringFrom, if_neg hc]

theorem parseStringFrom_simple (hb : simpleEscape c = some b) :
    parseStringFrom loc false ('\\' :: c :: rest) = (b :: ·) <$> parseStringFrom loc false rest := by
  rw [parseStringFrom, if_pos rfl, parseStringFrom]
  simp only [hb]

/-- What follows a numeric escape, told by what the parser of its digits returns. -/
def afterCode (loc : LineCol) : Except Thrown (Char × List Char) → Except Thrown (List Char)
  | .ok (b, after) => (b :: ·) <$> parseStringFrom loc false after
  | .error e => .error e

theorem parseStringFrom_octal (hc : isOctDigit c) :
    parseStringFrom loc false ('\\' :: c :: rest) = afterCode loc (parseOctChar (c :: rest) loc) := by
  rw [parseStringFrom, if_pos rfl, parseStringFrom]
  simp only [simpleEscape_of_isOctDigit hc, hc, if_true]
  cases hcode : parseOctChar (c :: rest) loc <;> rfl

theorem parseStringFrom_hex :
    parseStringFrom loc false ('\\' :: 'x' :: rest) = afterCode loc (parseHexChar rest loc) := by
  rw [parseStringFrom, if_pos rfl, parseStringFrom]
  simp only [show simpleEscape 'x' = none from by decide, show isOctDigit 'x' = false from by decide,
    Bool.false_eq_true, if_false, if_true]
  cases hcode : parseHexChar rest loc <;> rfl

theorem parseStringFrom_unknown (hc : simpleEscape c = none ∧ isOctDigit c = false ∧ c ≠ 'x') :
    parseStringFrom loc false ('\\' :: c :: rest) = parseStringFrom loc false rest := by
  rw [parseStringFrom, if_pos rfl, parseStringFrom]
  simp only [hc.1, hc.2.1, hc.2.2, Bool.false_eq_true, if_false]

/-- The rest of the body is decoded after the characters of a piece. -/
def andThen (r : Except Thrown (List Char)) (message : String) (loc : LineCol) :
    Option (List Char) → Except Thrown (List Char)
  | some cs => (cs ++ ·) <$> r
  | none => .error (.fatal loc message)

theorem afterCode_code {base : ℕ} {digits : List Char} {message : String} :
    afterCode loc (match Piece.code base digits with
      | some cs => .ok (cs.headD '\x00', next)
      | none => .error (.fatal loc message)) =
      andThen (parseStringFrom loc false next) message loc (Piece.code base digits) := by
  rw [Piece.code]
  split_ifs <;> rfl

theorem parseStringFrom_piece (hfits : p.Fits next) :
    ∃ message, parseStringFrom loc false (p.text ++ next) =
      andThen (parseStringFrom loc false next) message loc p.decode32 := by
  cases p with
  | plain c => exact ⟨"", parseStringFrom_plain hfits⟩
  | escape c =>
    obtain ⟨b, hb⟩ := Option.ne_none_iff_exists'.mp hfits
    refine ⟨"", (parseStringFrom_simple hb).trans ?_⟩
    rw [Piece.decode32, Piece.decode, hb]
    · rfl
    · exact nofun
    · exact nofun
  | octal digits =>
    obtain ⟨hne, hdigits, hnext⟩ := hfits
    obtain ⟨c, rest, rfl⟩ := List.exists_cons_of_ne_nil hne
    refine ⟨"Octal sequence out of range", (parseStringFrom_octal (hdigits c List.mem_cons_self)).trans ?_⟩
    rw [isOctDigit_funext] at hdigits hnext
    rw [parseOctChar, isOctDigit_funext]
    exact (congrArg (afterCode loc) (parseCodeChar_digits (.inl rfl) hdigits hnext)).trans afterCode_code
  | hex digits =>
    refine ⟨"Hex sequence out of range", parseStringFrom_hex.trans ?_⟩
    exact (congrArg (afterCode loc) (parseCodeChar_digits (.inr rfl) hfits.1 hfits.2)).trans afterCode_code
  | unknown c =>
    refine ⟨"", (parseStringFrom_unknown hfits).trans ?_⟩
    cases hrest : parseStringFrom loc false next <;> simp [Piece.decode32, Piece.decode, andThen, hrest]

theorem decodeAll_cons {decode : Piece → Option (List Char)} :
    decodeAll decode (p :: ps) = (decode p).bind fun cs ↦ (decodeAll decode ps).map (cs ++ ·) := by
  rw [decodeAll, List.mapM_cons]
  cases decode p with
  | none => rfl
  | some cs => cases hps : ps.mapM decode <;> simp [decodeAll, hps]

theorem yields_andThen {r : Except Thrown (List Char)} {message : String} {o : Option (List Char)}
    (hr : Yields r o) (cs : Option (List Char)) :
    Yields (andThen r message loc cs) (cs.bind fun cs ↦ o.map (cs ++ ·)) := by
  cases cs with
  | none => exact ⟨_, _, rfl⟩
  | some cs =>
    cases o with
    | none =>
      obtain ⟨loc', message', rfl⟩ := hr
      exact ⟨loc', message', rfl⟩
    | some cs' =>
      cases hr
      rfl

/-- The decoder gives what the pieces stand for by the first 32 digits of each numeric escape. -/
theorem yields_decode32 (h : Reading body ps) :
    Yields (parseStringLiteral body loc) (decodeAll Piece.decode32 ps) := by
  induction h with
  | nil => exact (parseStringFrom.eq_1 loc :)
  | cons hfits _ ih =>
    obtain ⟨message, hpiece⟩ := @parseStringFrom_piece loc _ _ hfits
    rw [parseStringLiteral, hpiece, decodeAll_cons]
    exact yields_andThen ih _

end

/-! ## Which literals are decoded as they read -/

namespace Piece

/-- The digits of a numeric escape, and their base. -/
def digits? : Piece → Option (ℕ × List Char)
  | octal digits => some (8, digits)
  | hex digits => some (16, digits)
  | _ => none

/-- A numeric escape without digits, or whose first 32 digits denote more than 127. -/
def Overflows (p : Piece) : Prop :=
  ∃ base digits, p.digits? = some (base, digits) ∧ (digits = [] ∨ 127 < ofDigits base (digits.take 32))

/-- A numeric escape of more than 32 digits that does not denote zero. -/
def Cut (p : Piece) : Prop :=
  ∃ base digits, p.digits? = some (base, digits) ∧ 32 < digits.length ∧ ofDigits base digits ≠ 0

end Piece

theorem ofDigits_append (base : ℕ) (a b : List Char) :
    ofDigits base (a ++ b) = ofDigits base a * base ^ b.length + ofDigits base b := by
  have hfold (n : ℕ) (ds : List Char) :
      ds.foldl (fun n c ↦ n * base + digitValue c) n = n * base ^ ds.length + ofDigits base ds := by
    induction ds generalizing n with
    | nil => simp [ofDigits]
    | cons c ds ih =>
      rw [ofDigits, List.foldl_cons, List.foldl_cons, ih, ih (0 * base + digitValue c), List.length_cons, pow_succ]
      ring
  rw [ofDigits, List.foldl_append, hfold]
  rfl

section

variable {base : ℕ} {digits : List Char}

theorem ofDigits_take (base : ℕ) (digits : List Char) :
    ofDigits base digits =
      ofDigits base (digits.take 32) * base ^ (digits.drop 32).length + ofDigits base (digits.drop 32) := by
  rw [← ofDigits_append, List.take_append_drop]

theorem ofDigits_take_le (hbase : 0 < base) : ofDigits base (digits.take 32) ≤ ofDigits base digits := by
  rw [ofDigits_take base digits]
  exact (Nat.le_mul_of_pos_right _ (Nat.pow_pos hbase)).trans (Nat.le_add_right _ _)

/-- More digits only leave the number as it is when they are zeros after zeros. -/
theorem ofDigits_take_eq_iff (hbase : 1 < base) (hlen : 32 < digits.length) :
    ofDigits base (digits.take 32) = ofDigits base digits ↔ ofDigits base digits = 0 := by
  have htake := ofDigits_take base digits
  have hpos : (digits.drop 32).length ≠ 0 := by
    rw [List.length_drop]
    omega
  have hpow : 1 < base ^ (digits.drop 32).length := Nat.one_lt_pow hpos hbase
  constructor
  · intro h
    by_contra hne
    rw [← h] at htake hne
    have hlt : ofDigits base (digits.take 32) * 1 < ofDigits base (digits.take 32) * base ^ (digits.drop 32).length :=
      Nat.mul_lt_mul_of_pos_left hpow (Nat.pos_of_ne_zero hne)
    omega
  · intro h
    rw [h]
    exact Nat.le_zero.mp (h ▸ ofDigits_take_le (Nat.zero_lt_of_lt hbase))

theorem toNat_ofNat {n : ℕ} (h : n ≤ 127) : (Char.ofNat n).toNat = n := by
  have hvalid : n.isValidChar := .inl (by omega)
  rw [Char.ofNat, dif_pos hvalid]
  rfl

theorem code_take_eq_iff (hbase : 1 < base) (hne : digits ≠ []) (hsmall : ofDigits base (digits.take 32) ≤ 127) :
    Piece.code base digits = Piece.code base (digits.take 32) ↔
      ¬(32 < digits.length ∧ ofDigits base digits ≠ 0) := by
  have hne32 : digits.take 32 ≠ [] := by simpa using hne
  have htake : Piece.code base (digits.take 32) = some [Char.ofNat (ofDigits base (digits.take 32))] :=
    if_pos ⟨hne32, hsmall⟩
  by_cases hlen : 32 < digits.length
  · rw [not_and, not_not, imp_iff_right hlen, ← ofDigits_take_eq_iff hbase hlen, htake, Piece.code]
    split_ifs with hcode
    · constructor
      · intro h
        have hchar := (List.cons.inj (Option.some.inj h)).1
        rw [← toNat_ofNat hsmall, ← hchar, toNat_ofNat hcode.2]
      · intro h
        rw [h]
    · exact iff_of_false nofun fun h ↦ hcode ⟨hne, h ▸ hsmall⟩
  · rw [List.take_of_length_le (Nat.le_of_not_lt hlen)]
    exact iff_of_true rfl fun h ↦ hlen h.1

theorem code_eq_none_of_take (hbase : 0 < base) (h : digits = [] ∨ 127 < ofDigits base (digits.take 32)) :
    Piece.code base digits = none ∧ Piece.code base (digits.take 32) = none := by
  constructor <;> refine if_neg fun ⟨hne, hle⟩ ↦ ?_
  · exact h.elim hne fun hlt ↦ absurd (hlt.trans_le (ofDigits_take_le hbase)) (Nat.not_lt.mpr hle)
  · exact h.elim (fun hnil ↦ hne (by rw [hnil, List.take_nil])) fun hlt ↦ absurd hlt (Nat.not_lt.mpr hle)

end

namespace Piece

variable {p : Piece} {next : List Char}

theorem decode_of_overflows (h : p.Overflows) : p.decode = none ∧ p.decode32 = none := by
  obtain ⟨base, digits, hp, hbad⟩ := h
  cases p with
  | octal ds =>
    cases hp
    exact code_eq_none_of_take (by omega) hbad
  | hex ds =>
    cases hp
    exact code_eq_none_of_take (by omega) hbad
  | plain => cases hp
  | escape => cases hp
  | unknown => cases hp

theorem decode_eq_decode32_iff (h : ¬p.Overflows) : p.decode = p.decode32 ↔ ¬p.Cut := by
  have hnumeric {base : ℕ} {digits : List Char} (hbase : 1 < base) (hp : p.digits? = some (base, digits)) :
      code base digits = code base (digits.take 32) ↔ ¬p.Cut := by
    have hsmall : ¬(digits = [] ∨ 127 < ofDigits base (digits.take 32)) := fun hbad ↦ h ⟨base, digits, hp, hbad⟩
    rw [code_take_eq_iff hbase (not_or.mp hsmall).1 (Nat.le_of_not_lt (not_or.mp hsmall).2)]
    refine not_congr ⟨fun hcut ↦ ⟨base, digits, hp, hcut⟩, fun ⟨b, ds, hp', hcut⟩ ↦ ?_⟩
    cases hp.symm.trans hp'
    exact hcut
  have hother (hp : p.digits? = none) : ¬p.Cut := fun ⟨_, _, hp', _⟩ ↦ by cases hp.symm.trans hp'
  cases p with
  | octal digits => exact hnumeric (by omega) rfl
  | hex digits => exact hnumeric (by omega) rfl
  | plain => exact iff_of_true rfl (hother rfl)
  | escape => exact iff_of_true rfl (hother rfl)
  | unknown => exact iff_of_true rfl (hother rfl)

/-- A piece without overflow is decoded, and both readings of it have the same number of characters. -/
theorem exists_decode32 (hfits : p.Fits next) (h : ¬p.Overflows) :
    ∃ cs, p.decode32 = some cs ∧ ∀ cs' ∈ p.decode, cs'.length = cs.length := by
  have hnumeric {base : ℕ} {digits : List Char} (hp : p.digits? = some (base, digits)) :
      ∃ cs, code base (digits.take 32) = some cs ∧ ∀ cs' ∈ code base digits, cs'.length = cs.length := by
    have hsmall : ¬(digits = [] ∨ 127 < ofDigits base (digits.take 32)) := fun hbad ↦ h ⟨base, digits, hp, hbad⟩
    refine ⟨_, if_pos ⟨by simpa using (not_or.mp hsmall).1, Nat.le_of_not_lt (not_or.mp hsmall).2⟩, ?_⟩
    intro cs' hcs'
    rw [code] at hcs'
    split at hcs' <;> cases hcs'
    rfl
  cases p with
  | octal digits => exact hnumeric rfl
  | hex digits => exact hnumeric rfl
  | plain c => exact ⟨_, rfl, by rintro _ ⟨⟩; rfl⟩
  | escape c =>
    obtain ⟨b, hb⟩ := Option.ne_none_iff_exists'.mp hfits
    refine ⟨[b], ?_, ?_⟩
    · rw [decode32, decode, hb]
      · rfl
      · exact nofun
      · exact nofun
    · intro cs' hcs'
      rw [decode, hb] at hcs'
      cases hcs'
      rfl
  | unknown c => exact ⟨[], rfl, by rintro _ ⟨⟩; rfl⟩

end Piece

section

variable {body : List Char} {ps : List Piece}

theorem decodeAll_eq_none {decode : Piece → Option (List Char)} {p : Piece} (hp : p ∈ ps) (h : decode p = none) :
    decodeAll decode ps = none := by
  induction ps with
  | nil => cases hp
  | cons q ps ih =>
    rw [decodeAll_cons]
    rcases List.mem_cons.mp hp with rfl | hp
    · rw [h]
      rfl
    · rw [ih hp]
      cases decode q <;> rfl

theorem decodeAll_congr (h : ∀ p ∈ ps, p.decode = p.decode32) :
    decodeAll Piece.decode ps = decodeAll Piece.decode32 ps := by
  induction ps with
  | nil => rfl
  | cons p ps ih =>
    rw [decodeAll_cons, decodeAll_cons, h p List.mem_cons_self, ih fun q hq ↦ h q (List.mem_cons_of_mem p hq)]

theorem exists_decodeAll32 (hread : Reading body ps) (h : ∀ p ∈ ps, ¬p.Overflows) :
    ∃ cs, decodeAll Piece.decode32 ps = some cs := by
  induction hread with
  | nil => exact ⟨[], rfl⟩
  | cons hfits _ ih =>
    obtain ⟨cs, hcs, -⟩ := Piece.exists_decode32 hfits (h _ List.mem_cons_self)
    obtain ⟨cs', hcs'⟩ := ih fun p hp ↦ h p (List.mem_cons_of_mem _ hp)
    exact ⟨cs ++ cs', by rw [decodeAll_cons, hcs, hcs']; rfl⟩

theorem forall_of_decodeAll_eq (hread : Reading body ps) (h : ∀ p ∈ ps, ¬p.Overflows)
    (heq : decodeAll Piece.decode ps = decodeAll Piece.decode32 ps) : ∀ p ∈ ps, p.decode = p.decode32 := by
  induction hread with
  | nil => nofun
  | @cons p next ps hfits hread ih =>
    have hps : ∀ p ∈ ps, ¬p.Overflows := fun q hq ↦ h q (List.mem_cons_of_mem p hq)
    obtain ⟨cs, hcs, hlen⟩ := Piece.exists_decode32 hfits (h p List.mem_cons_self)
    obtain ⟨cs', hcs'⟩ := exists_decodeAll32 hread hps
    rw [decodeAll_cons, decodeAll_cons, hcs, hcs'] at heq
    obtain ⟨ds, hds, heq⟩ := Option.bind_eq_some_iff.mp heq
    obtain ⟨ds', hds', heq⟩ := Option.map_eq_some_iff.mp heq
    obtain ⟨rfl, rfl⟩ := List.append_inj heq (hlen ds hds)
    intro q hq
    rcases List.mem_cons.mp hq with rfl | hq
    · rw [hds, hcs]
    · exact ih hps (hds'.trans hcs'.symm) q hq

theorem decodeAll_eq_iff (hread : Reading body ps) :
    decodeAll Piece.decode ps = decodeAll Piece.decode32 ps ↔
      (∃ p ∈ ps, p.Overflows) ∨ ∀ p ∈ ps, ¬p.Cut := by
  by_cases h : ∃ p ∈ ps, p.Overflows
  · obtain ⟨p, hp, hover⟩ := h
    obtain ⟨hnone, hnone32⟩ := Piece.decode_of_overflows hover
    exact iff_of_true ((decodeAll_eq_none hp hnone).trans (decodeAll_eq_none hp hnone32).symm) (.inl ⟨p, hp, hover⟩)
  · have hnot : ∀ p ∈ ps, ¬p.Overflows := fun p hp hover ↦ h ⟨p, hp, hover⟩
    rw [or_iff_right h]
    constructor
    · intro heq p hp
      exact (Piece.decode_eq_decode32_iff (hnot p hp)).mp (forall_of_decodeAll_eq hread hnot heq p hp)
    · intro hcut
      exact decodeAll_congr fun p hp ↦ (Piece.decode_eq_decode32_iff (hnot p hp)).mpr (hcut p hp)

theorem Yields.unique {r : Except Thrown (List Char)} {o o' : Option (List Char)} (h : Yields r o)
    (h' : Yields r o') : o = o' := by
  cases o with
  | some cs =>
    cases h
    cases o' with
    | some cs' => exact congrArg some (Except.ok.inj h')
    | none =>
      obtain ⟨_, _, h'⟩ := h'
      cases h'
  | none =>
    obtain ⟨_, _, rfl⟩ := h
    cases o' with
    | some cs' => cases h'
    | none => rfl

end

/-! ## What the lexer accepts -/

/-- The body does not end after a backslash that begins an escape. -/
def Complete : List Char → Prop
  | [] => True
  | '\\' :: [] => False
  | '\\' :: _ :: rest => Complete rest
  | _ :: rest => Complete rest

theorem complete_cons {c : Char} (hc : c ≠ '\\') (rest : List Char) : Complete (c :: rest) ↔ Complete rest := by
  rw [Complete.eq_4]
  · exact fun h _ ↦ hc h
  · exact fun _ _ h _ ↦ hc h

theorem complete_append {t : List Char} (ht : ∀ c ∈ t, c ≠ '\\') (rest : List Char) :
    Complete (t ++ rest) ↔ Complete rest := by
  induction t with
  | nil => rfl
  | cons c t ih =>
    rw [List.cons_append, complete_cons (ht c List.mem_cons_self),
      ih fun c hc ↦ ht c (List.mem_cons_of_mem _ hc)]

theorem quotedLoop_reads {mem : Memory} {quote : Char} {message : String} {s s' : ParseString}
    (h : (quotedLoop mem quote message).run s = .ok s') :
    ∃ body, Complete body ∧ Reads mem s (body ++ [quote]) s' := by
  induction s using ShrinkingLoop.induction (quotedLoop mem quote message) with
  | h s ih =>
    cases hbody : quotedStep mem quote message s with
    | error e => cases (ShrinkingLoop.run_of_error hbody).symm.trans h
    | ok r =>
      cases r with
      | inl closed =>
        cases (ShrinkingLoop.run_of_return hbody).symm.trans h
        cases quotedStep_cases hbody with
        | @closed t _ ht hreads =>
          refine ⟨t, ?_, hreads⟩
          rw [← List.append_nil t, complete_append fun c hc ↦ (ht c hc).2.1]
          trivial
      | inr next =>
        have hnext : (quotedLoop mem quote message).Next s next := hbody
        rw [ShrinkingLoop.run_of_next hnext] at h
        obtain ⟨body, hcomplete, hrest⟩ := ih next hnext h
        cases quotedStep_cases hbody with
        | @escaped t c _ ht hreads =>
          refine ⟨t ++ '\\' :: c :: body, ?_, by simpa using hreads.trans hrest⟩
          rw [complete_append fun c hc ↦ (ht c hc).2.1]
          exact hcomplete

theorem Complete.of_digits {isDigit : Char → Bool} (hback : isDigit '\\' = false) {rest : List Char}
    (h : Complete rest) : Complete (rest.dropWhile isDigit) := by
  rw [← List.takeWhile_append_dropWhile (p := isDigit) (l := rest), complete_append] at h
  · exact h
  · rintro c hc rfl
    rw [List.mem_takeWhile_imp hc] at hback
    cases hback

theorem head_dropWhile (isDigit : Char → Bool) (rest : List Char) :
    ∀ c ∈ (rest.dropWhile isDigit).head?, isDigit c = false := by
  intro c hc
  have hhead := List.head?_dropWhile_not isDigit rest
  rw [Option.mem_def.mp hc] at hhead
  simpa using hhead

theorem exists_reading {body : List Char} (h : Complete body) : ∃ ps, Reading body ps := by
  induction hn : body.length using Nat.strongRecOn generalizing body with
  | ind n ih =>
    subst hn
    have hread (p : Piece) (next : List Char) (hfits : p.Fits next) (hnext : Complete next)
        (hlen : next.length < body.length) (htext : p.text ++ next = body) : ∃ ps, Reading body ps := by
      obtain ⟨ps, hps⟩ := ih _ hlen hnext rfl
      exact ⟨p :: ps, htext ▸ .cons hfits hps⟩
    cases body with
    | nil => exact ⟨[], .nil⟩
    | cons c rest =>
      by_cases hback : c = '\\'
      · subst hback
        cases rest with
        | nil => exact absurd h id
        | cons c rest =>
          have hlen (f : Char → Bool) : (rest.dropWhile f).length < rest.length + 2 :=
            Nat.lt_add_right 1 (Nat.lt_succ_of_le (List.length_dropWhile_le f rest))
          have hrest : Complete rest := h
          by_cases hsimple : simpleEscape c = none
          · by_cases hoct : isOctDigit c
            · refine hread (.octal (c :: rest.takeWhile isOctDigit)) _ ⟨List.cons_ne_nil _ _, ?_,
                head_dropWhile isOctDigit rest⟩ (hrest.of_digits (by decide)) (hlen isOctDigit)
                (congrArg ('\\' :: c :: ·) List.takeWhile_append_dropWhile)
              intro d hd
              rcases List.mem_cons.mp hd with rfl | hd
              · exact hoct
              · exact List.mem_takeWhile_imp hd
            · by_cases hx : c = 'x'
              · subst hx
                exact hread (.hex (rest.takeWhile isHexDigit)) _
                  ⟨fun d hd ↦ List.mem_takeWhile_imp hd, head_dropWhile isHexDigit rest⟩
                  (hrest.of_digits (show isHexDigit '\\' = false by decide)) (hlen isHexDigit)
                  (congrArg ('\\' :: 'x' :: ·) List.takeWhile_append_dropWhile)
              · exact hread (.unknown c) rest ⟨hsimple, Bool.not_eq_true _ ▸ hoct, hx⟩ hrest
                  (Nat.lt_add_of_pos_right Nat.two_pos) rfl
          · exact hread (.escape c) rest hsimple hrest (Nat.lt_add_of_pos_right Nat.two_pos) rfl
      · exact hread (.plain c) rest hback ((complete_cons hback rest).mp h) (Nat.lt_succ_self _) rfl

/-- The literal that the lexer accepts, with its quotes. -/
def Accepted (mem : Memory) (s : ParseString) (quote : Char) (body : List Char) : Prop :=
  ∃ message s', parseQuoted mem s quote message = .ok (some s') ∧ Reads mem s (quote :: (body ++ [quote])) s'

theorem Accepted.complete {mem : Memory} {s : ParseString} {quote : Char} {body : List Char}
    (h : Accepted mem s quote body) : Complete body := by
  obtain ⟨message, s', hparse, hreads⟩ := h
  rw [parseQuoted] at hparse
  split at hparse
  · rename_i opened hopened
    obtain ⟨closed, hrun, hclosed⟩ := Except.map_eq_ok.mp hparse
    cases hclosed
    obtain ⟨body', hcomplete, hrest⟩ := quotedLoop_reads hrun
    have hall := (checkChar_eq_some.mp hopened).trans hrest
    have hlen : (quote :: (body ++ [quote])).length = ([quote] ++ (body' ++ [quote])).length :=
      Nat.add_left_cancel (hreads.beg.symm.trans hall.beg)
    have heq := (List.append_inj (hreads.view.symm.trans hall.view) hlen).1
    rw [List.singleton_append, List.cons.injEq, List.append_cancel_right_eq] at heq
    exact heq.2 ▸ hcomplete
  · cases hparse

/-! ## Encoding -/

def octalDigit (n : ℕ) : Char := Char.ofNat (48 + n)

/-- A numeric escape of three digits. -/
def encodeChar (c : Char) : Piece :=
  .octal [octalDigit (c.toNat / 64), octalDigit (c.toNat / 8 % 8), octalDigit (c.toNat % 8)]

def encode (cs : List Char) : List Char := cs.flatMap fun c ↦ (encodeChar c).text

theorem toNat_octalDigit {n : ℕ} (h : n < 8) : (octalDigit n).toNat = 48 + n := toNat_ofNat (by omega)

theorem digitValue_octalDigit {n : ℕ} (h : n < 8) : digitValue (octalDigit n) = n := by
  rw [digitValue, toNat_octalDigit h, if_pos (by omega)]
  omega

theorem isOctDigit_octalDigit {n : ℕ} (h : n < 8) : isOctDigit (octalDigit n) := by
  rw [isOctDigit_eq, isDigitOf, digitValue_octalDigit h]
  exact decide_eq_true h

theorem decode_encodeChar {c : Char} (h : c.toNat ≤ 127) : (encodeChar c).decode = some [c] := by
  have hcode : ofDigits 8 [octalDigit (c.toNat / 64), octalDigit (c.toNat / 8 % 8), octalDigit (c.toNat % 8)] =
      c.toNat := by
    simp only [ofDigits, List.foldl_cons, List.foldl_nil]
    rw [digitValue_octalDigit (by omega), digitValue_octalDigit (by omega), digitValue_octalDigit (by omega)]
    omega
  rw [encodeChar, Piece.decode, Piece.code, hcode, if_pos ⟨List.cons_ne_nil _ _, h⟩, Char.ofNat_toNat]

/-- Every string of small characters has an encoding: numeric escapes that are each followed by a backslash or the
end. -/
theorem reading_encode {cs : List Char} (h : ∀ c ∈ cs, c.toNat ≤ 127) :
    Reading (encode cs) (cs.map encodeChar) ∧ decodeAll Piece.decode (cs.map encodeChar) = some cs := by
  induction cs with
  | nil => exact ⟨.nil, rfl⟩
  | cons c cs ih =>
    have hc := h c List.mem_cons_self
    obtain ⟨hread, hdecode⟩ := ih fun d hd ↦ h d (List.mem_cons_of_mem c hd)
    constructor
    · refine .cons (p := encodeChar c) ⟨List.cons_ne_nil _ _, ?_, ?_⟩ hread
      · intro d hd
        simp only [List.mem_cons, List.not_mem_nil, or_false] at hd
        rcases hd with rfl | rfl | rfl <;> exact isOctDigit_octalDigit (by omega)
      · cases cs with
        | nil => nofun
        | cons d cs =>
          rintro _ ⟨⟩
          decide
    · rw [List.map_cons, decodeAll_cons, decode_encodeChar hc, hdecode]
      rfl

theorem not_cut_encodeChar (c : Char) : ¬(encodeChar c).Cut := by
  rintro ⟨_, _, ⟨⟩, hlen, -⟩
  simp at hlen

/-! ## `parseStringLiteral` -/

section

variable {loc : LineCol} {body : List Char} {ps : List Piece}

theorem yields_decode_iff (hread : Reading body ps) :
    Yields (parseStringLiteral body loc) (decodeAll Piece.decode ps) ↔
      (∃ p ∈ ps, p.Overflows) ∨ ∀ p ∈ ps, ¬p.Cut := by
  rw [← decodeAll_eq_iff hread]
  constructor
  · intro h
    exact h.unique (yields_decode32 hread)
  · intro h
    rw [h]
    exact yields_decode32 hread

/-- The body of an accepted literal reads as pieces, and is decoded to what they stand for exactly when one of them
is refused for its first 32 digits or none of them is cut to 32 digits and changed by that. The encoding of a string
is decoded to the string. -/
theorem parseStringLiteral_iff (mem : Memory) (s : ParseString) (quote : Char) (body : List Char) (loc : LineCol)
    (haccepted : Accepted mem s quote body) :
    (∃ ps, Reading body ps) ∧
      (∀ ps, Reading body ps → (Yields (parseStringLiteral body loc) (decodeAll Piece.decode ps) ↔
        (∃ p ∈ ps, p.Overflows) ∨ ∀ p ∈ ps, ¬p.Cut)) ∧
      ∀ cs, (∀ c ∈ cs, c.toNat ≤ 127) → parseStringLiteral (encode cs) loc = .ok cs := by
  refine ⟨exists_reading haccepted.complete, fun ps hread ↦ yields_decode_iff hread, fun cs hcs ↦ ?_⟩
  obtain ⟨hread, hdecode⟩ := reading_encode hcs
  have hyields : Yields (parseStringLiteral (encode cs) loc) (decodeAll Piece.decode (cs.map encodeChar)) := by
    refine (yields_decode_iff hread).mpr (.inr fun p hp ↦ ?_)
    obtain ⟨c, -, rfl⟩ := List.mem_map.mp hp
    exact not_cut_encodeChar c
  rwa [hdecode] at hyields

end

def hexLiteral : List Char := ['"', '\\', 'x', '4', '1', '"']

theorem accepted_hexLiteral : Accepted (memoryOf hexLiteral) (.ofText hexLiteral) '"' ['\\', 'x', '4', '1'] :=
  ⟨"", ⟨6, 6, ⟨1, 7⟩, Nat.le_refl 6⟩, by decide +kernel, ⟨rfl, rfl, rfl, by decide +kernel⟩⟩

theorem yields_hexLiteral : Yields (parseStringLiteral ['\\', 'x', '4', '1'] .first) (some ['A']) := by
  have hread : Reading ['\\', 'x', '4', '1'] [.hex ['4', '1']] := .cons (p := .hex ['4', '1']) ⟨List.all_eq_true.mp (by decide), nofun⟩ .nil
  refine ((parseStringLiteral_iff _ _ _ _ .first accepted_hexLiteral).2.1 _ hread).mpr (.inr fun p hp ↦ ?_)
  rw [List.mem_singleton.mp hp]
  rintro ⟨_, _, ⟨⟩, hlen, -⟩
  exact absurd hlen (by decide)

/-- So many zeros before the last digit that this is not read. -/
def longDigits : List Char := List.replicate 32 '0' ++ ['1']

def longLiteral : List Char := '"' :: '\\' :: (longDigits ++ ['"'])

theorem accepted_longLiteral : Accepted (memoryOf longLiteral) (.ofText longLiteral) '"' ('\\' :: longDigits) :=
  ⟨"", ⟨36, 36, ⟨1, 37⟩, Nat.le_refl 36⟩, by decide +kernel, ⟨rfl, rfl, rfl, by decide +kernel⟩⟩

/-- The escape denotes one, and is decoded to zero. -/
theorem longLiteral_misread :
    Accepted (memoryOf longLiteral) (.ofText longLiteral) '"' ('\\' :: longDigits) ∧
      Reading ('\\' :: longDigits) [.octal longDigits] ∧
      decodeAll Piece.decode [.octal longDigits] = some ['\x01'] ∧
      parseStringLiteral ('\\' :: longDigits) .first = .ok ['\x00'] := by
  have hread : Reading ('\\' :: longDigits) [.octal longDigits] :=
    .cons (p := .octal longDigits) ⟨by decide, List.all_eq_true.mp (by decide), nofun⟩ .nil
  exact ⟨accepted_longLiteral, hread, by decide +kernel, @yields_decode32 .first _ _ hread⟩

end Stela.Lex
