import Stela.Lex.NumberRanges

/-!
# How far a number reaches

The conversions use no more characters than there are. `numberMatch` is the number that the lexer finds at the
start of a text, before the suffix is looked at.
-/

namespace Stela.Lex

open Stela.Library ParseString

section

variable {s body : List Char} {base n used places : ℕ} {neg : Bool}

theorem length_scanSign (s : List Char) : (scanSign s).2.length ≤ s.length := by
  rw [scanSign.eq_def]
  split <;> simp

/-- The mark of hexadecimal digits is two characters long. -/
theorem scanHexMark_length (h : scanHexMark s = some body) : s.length = body.length + 2 := by
  rw [scanHexMark.eq_def] at h
  split at h <;> cases h <;> rfl

/-- Digits that are found are at least one, and no more than there are characters. -/
theorem scanDigits_le (h : scanDigits base s = some (n, used)) : 0 < used ∧ used ≤ s.length := by
  rw [scanDigits] at h
  split at h
  · cases h
  · rename_i hne
    cases h
    exact ⟨List.length_pos_iff.mpr hne, (List.takeWhile_prefix _).length_le⟩

theorem scanInteger_le (h : scanInteger base s = some (n, used)) : 0 < used ∧ used ≤ s.length := by
  rw [scanInteger] at h
  split at h
  · rename_i m u hhex
    split at hhex
    · obtain ⟨body, hbody, hdigits⟩ := Option.bind_eq_some_iff.mp hhex
      have := scanHexMark_length hbody
      have := scanDigits_le hdigits
      cases h
      omega
    · cases hhex
  · exact scanDigits_le h

theorem length_afterSign (s : List Char) : (afterSign s).length ≤ s.length :=
  (length_scanSign _).trans (List.length_dropWhile_le isspace s)

/-- The sign and the white space are counted with the digits. -/
theorem scanSigned_le (h : scanSigned base s = some (neg, n, used)) : 0 < used ∧ used ≤ s.length := by
  obtain ⟨⟨m, u⟩, hint, h⟩ := Option.map_eq_some_iff.mp h
  cases h
  have := scanInteger_le hint
  have := length_afterSign s
  omega

theorem strtoll_used (s : List Char) (base : ℕ) : (strtoll s base).used ≤ s.length := by
  rw [strtoll]
  split
  · exact Nat.zero_le _
  · rename_i h
    have := (scanSigned_le h).2
    split_ifs <;> exact this

theorem strtoull_used (s : List Char) (base : ℕ) : (strtoull s base).used ≤ s.length := by
  rw [strtoull]
  split
  · exact Nat.zero_le _
  · rename_i h
    have := (scanSigned_le h).2
    split_ifs <;> exact this

/-- A mantissa has a digit, in front of the point or behind it. -/
theorem scanMantissa_le (h : scanMantissa base s = some (n, places, used)) : 0 < used ∧ used ≤ s.length := by
  have hlen := congrArg List.length (@List.takeWhile_append_dropWhile _ (isDigitOf base) s)
  rw [List.length_append] at hlen
  rw [scanMantissa] at h
  split at h
  · rename_i rest hrest
    dsimp only at h
    split at h
    · cases h
    · cases h
      rw [hrest, List.length_cons] at hlen
      have := (List.takeWhile_prefix (l := rest) (isDigitOf base)).length_le
      omega
  · split at h
    · cases h
    · rename_i hne
      cases h
      have := List.length_pos_iff.mpr hne
      omega

/-- An exponent without digits is not read, nor is its mark. -/
theorem scanExponent_le (mark : Char) (s : List Char) : (scanExponent mark s).2 ≤ s.length := by
  cases s with
  | nil => exact Nat.le_refl 0
  | cons c s =>
    have hsign := length_scanSign s
    rw [scanExponent]
    cases hscan : scanSign s with
    | mk neg body =>
      rw [hscan] at hsign
      cases hdigits : scanDigits 10 body with
      | none =>
        simp only [hdigits]
        exact Nat.zero_le _
      | some found =>
        have hfound := (scanDigits_le hdigits).2
        simp only [hdigits, List.length_cons]
        split
        · simp only at hsign ⊢
          omega
        · exact Nat.zero_le _

theorem scanReal_le {q : ℚ} (h : scanReal s = some (q, used)) : 0 < used ∧ used ≤ s.length := by
  have hdrop (mark : Char) (k : ℕ) : (scanExponent mark (s.drop k)).2 ≤ s.length - k := by
    rw [← List.length_drop]
    exact scanExponent_le mark _
  rw [scanReal] at h
  split at h
  · rename_i m p u hhex
    obtain ⟨body, hbody, hmantissa⟩ := Option.bind_eq_some_iff.mp hhex
    have := scanHexMark_length hbody
    have := scanMantissa_le hmantissa
    have hexp := hdrop 'p' (u + 2)
    generalize scanExponent 'p' (s.drop (u + 2)) = r at h hexp
    cases h
    omega
  · split at h
    · rename_i m p u hmantissa
      have := scanMantissa_le hmantissa
      have hexp := hdrop 'e' u
      generalize scanExponent 'e' (s.drop u) = r at h hexp
      cases h
      omega
    · cases h

theorem startsWith_length {word : List Char} (h : startsWith word s) : word.length ≤ s.length := by
  have hlen := congrArg List.length (of_decide_eq_true h)
  rw [List.length_map, List.length_take] at hlen
  omega

/-- A tag ends inside the text. -/
theorem nanTag_le (s : List Char) : nanTag s ≤ s.length := by
  rw [nanTag.eq_def]
  split
  · rename_i s
    split
    · rename_i rest hrest
      have hlen := congrArg List.length (@List.takeWhile_append_dropWhile _ isWordChar s)
      rw [List.length_append, hrest] at hlen
      simp only [List.length_cons] at hlen ⊢
      omega
    · exact Nat.zero_le _
  · exact Nat.zero_le _

/-- No conversion to a real number reads past the text. -/
theorem strtold_used (s : List Char) : (strtold s).used ≤ s.length := by
  have hafter := length_afterSign s
  have hbefore {k : ℕ} (h : k ≤ (afterSign s).length) : s.length - (afterSign s).length + k ≤ s.length := by omega
  rw [strtold]
  split
  · rename_i q used hreal
    exact hbefore (scanReal_le hreal).2
  · split_ifs with hinfinity hinf hnan
    · exact hbefore (startsWith_length hinfinity)
    · exact hbefore (startsWith_length hinf)
    · have htag := nanTag_le ((afterSign s).drop 3)
      have hlen : 3 ≤ (afterSign s).length := startsWith_length hnan
      rw [List.length_drop] at htag
      have hall : s.length - (afterSign s).length + (3 + nanTag ((afterSign s).drop 3)) ≤ s.length :=
        hbefore (by omega)
      exact (Nat.add_assoc _ _ _).symm ▸ hall
    · exact Nat.zero_le _

end

theorem nullTerm_length (text : List Char) : (nullTerm text).length ≤ text.length :=
  (List.takeWhile_prefix _).length_le.trans (List.take_prefix 32 text).length_le

theorem fromConversion_ptr {ty : NumberType} {conv : Conversion Floating} {size : ℕ} {num : Floating}
    (h : fromConversion ty conv = ⟨size, false, some num⟩) : size = conv.used := by
  rw [fromConversion] at h
  split at h
  · cases h
  · split at h
    · split at h
      · cases h
      · cases h
        rfl
    · cases h
    · cases h
      rfl

/-- Where a number is found, `ptr` points into the text or at its end. -/
theorem fromChars_ptr {ty : NumberType} {text : List Char} {base size : ℕ} {num : Floating}
    (h : fromChars ty text base = ⟨size, false, some num⟩) : size ≤ text.length := by
  have hlen := nullTerm_length text
  have hreal := strtold_used (nullTerm text)
  have hsigned := strtoll_used (nullTerm text) base
  have hunsigned := strtoull_used (nullTerm text) base
  cases ty <;> rw [fromConversion_ptr h]
  · exact hunsigned.trans hlen
  · exact hsigned.trans hlen
  · exact hreal.trans hlen
  · exact hsigned.trans hlen
  · exact hunsigned.trans hlen
  · exact hsigned.trans hlen

/-- A conversion that uses no character gives zero, which counts as a failure. -/
def NoneIsZero (conv : Conversion Floating) : Prop := conv.used = 0 → conv.value = .finite 0

theorem strtold_noneIsZero (s : List Char) : NoneIsZero (strtold s) := by
  rw [strtold]
  split
  · rename_i q used hreal
    have := (scanReal_le hreal).1
    intro h
    dsimp only at h
    omega
  · split_ifs
    · exact fun h ↦ absurd h (by simp)
    · exact fun h ↦ absurd h (by simp)
    · intro h
      dsimp only at h
      omega
    · exact fun _ ↦ rfl

theorem strtoll_noneIsZero (s : List Char) (base : ℕ) : NoneIsZero (strtoll s base).toFloating := by
  rw [strtoll]
  split
  · exact fun _ ↦ by simp [Conversion.toFloating]
  · rename_i hsigned
    have := (scanSigned_le hsigned).1
    split_ifs <;> exact fun h ↦ absurd h (Nat.ne_of_gt this)

theorem strtoull_noneIsZero (s : List Char) (base : ℕ) : NoneIsZero (strtoull s base).toFloating := by
  rw [strtoull]
  split
  · exact fun _ ↦ by simp [Conversion.toFloating]
  · rename_i hsigned
    have := (scanSigned_le hsigned).1
    split_ifs <;> exact fun h ↦ absurd h (Nat.ne_of_gt this)

theorem fromConversion_pos {ty : NumberType} {conv : Conversion Floating} (hconv : NoneIsZero conv) {size : ℕ}
    {num : Floating} (h : fromConversion ty conv = ⟨size, false, some num⟩) : 0 < size := by
  rw [fromConversion_ptr h]
  refine Nat.pos_of_ne_zero fun hzero ↦ ?_
  rw [fromConversion, if_pos (.inr ⟨hzero, hconv hzero⟩)] at h
  cases h

/-- Where a number is found, at least one character is used. -/
theorem fromChars_pos {ty : NumberType} {text : List Char} {base size : ℕ} {num : Floating}
    (h : fromChars ty text base = ⟨size, false, some num⟩) : 0 < size := by
  cases ty
  · exact fromConversion_pos (strtoull_noneIsZero _ _) h
  · exact fromConversion_pos (strtoll_noneIsZero _ _) h
  · exact fromConversion_pos (strtold_noneIsZero _) h
  · exact fromConversion_pos (strtoll_noneIsZero _ _) h
  · exact fromConversion_pos (strtoull_noneIsZero _ _) h
  · exact fromConversion_pos (strtoll_noneIsZero _ _) h

/-! ## The number that the lexer finds -/

/-- The first type in which the text begins with a number, how far the number reaches, and its value. -/
def firstNumber (text : List Char) : List NumberType → Option (NumberType × ℕ × Floating)
  | [] => none
  | ty :: types =>
    match fromChars ty text 0 with
    | ⟨size, false, some num⟩ => some (ty, size, num)
    | _ => firstNumber text types

def numberMatch (text : List Char) : Option (NumberType × ℕ × Floating) :=
  firstNumber text [.real, .uint, .sint]

/-- The number that is found is one that the conversion to its type finds. -/
theorem firstNumber_eq_some {text : List Char} {ty : NumberType} {size : ℕ} {num : Floating} :
    {types : List NumberType} → firstNumber text types = some (ty, size, num) →
      ty ∈ types ∧ fromChars ty text 0 = ⟨size, false, some num⟩
  | [], h => by cases h
  | ty' :: types, h => by
    rw [firstNumber] at h
    split at h
    · cases h
      exact ⟨List.mem_cons_self, ‹_›⟩
    · obtain ⟨hmem, hfrom⟩ := firstNumber_eq_some h
      exact ⟨List.mem_cons_of_mem _ hmem, hfrom⟩

/-- A number has a character, and ends inside the text. -/
theorem numberMatch_le {text : List Char} {ty : NumberType} {size : ℕ} {num : Floating}
    (h : numberMatch text = some (ty, size, num)) : 0 < size ∧ size ≤ text.length :=
  let hfrom := (firstNumber_eq_some h).2
  ⟨fromChars_pos hfrom, fromChars_ptr hfrom⟩

/-- The suffix is looked for behind the number. -/
theorem tryNumbers_eq (mem : Memory) (beg : ℕ) (text : List Char) (loc : LineCol) (types : List NumberType) :
    tryNumbers mem beg text loc types =
      match firstNumber text types with
      | none => .ok 0
      | some (ty, size, num) =>
        (hasValidSuffix (mem (beg + size)) ty num loc).map fun suffix ↦ if suffix then size + 1 else size := by
  induction types with
  | nil => rfl
  | cons ty types ih =>
    rw [tryNumbers, firstNumber]
    obtain ⟨size, err, number⟩ := fromChars ty text 0
    cases err with
    | true => exact ih
    | false =>
      cases number with
      | none => exact ih
      | some num =>
        dsimp only
        cases hasValidSuffix (mem (beg + size)) ty num loc with
        | error e => rfl
        | ok suffix => cases suffix <;> rfl

/-- The characters of a number literal are those of the number, and its suffix. -/
theorem validNumberLiteral_eq {mem : Memory} {s : ParseString} (hempty : s.empty = false) (loc : LineCol) :
    validNumberLiteral mem s loc =
      match numberMatch (s.view mem) with
      | none => .ok 0
      | some (ty, size, num) =>
        (hasValidSuffix (mem (s.beg + size)) ty num loc).map fun suffix ↦ if suffix then size + 1 else size := by
  rw [validNumberLiteral, if_neg (by rw [hempty]; exact Bool.false_ne_true)]
  exact tryNumbers_eq mem s.beg (s.view mem) loc _

/-- A suffix that does not fit is an error of the program, not of the compiler. -/
theorem hasValidSuffix_error {suffix : Char} {ty : NumberType} {num : Floating} {loc : LineCol} {e : Thrown}
    (h : hasValidSuffix suffix ty num loc = .error e) : ∃ message, e = .fatal loc message := by
  have hlist (ss : List Suffix) (h : checkSuffixes suffix ty num loc ss = .error e) :
      ∃ message, e = .fatal loc message := by
    induction ss with
    | nil => cases h
    | cons s ss ih =>
      rw [checkSuffixes] at h
      split at h
      · split at h
        · cases h
        · cases h
          exact ⟨s.message, rfl⟩
      · exact ih h
  exact hlist suffixes h

/-! ## How a number begins -/

section

variable {c : Char} {rest text : List Char}

/-- The first character is none of those that a number begins with, other than a letter. -/
structure NoNumber (c : Char) : Prop where
  space : isspace c = false
  digit : isDigitOf 10 c = false
  plus : c ≠ '+'
  minus : c ≠ '-'
  point : c ≠ '.'

theorem afterSign_cons (hc : NoNumber c) : afterSign (c :: rest) = c :: rest := by
  have hdrop : (c :: rest).dropWhile isspace = c :: rest :=
    List.dropWhile_cons_of_neg (by rw [hc.space]; exact Bool.false_ne_true)
  rw [afterSign, hdrop, scanSign.eq_3]
  · rintro s ⟨⟩
    exact hc.minus rfl
  · rintro s ⟨⟩
    exact hc.plus rfl

theorem scanHexMark_cons (hc : NoNumber c) : scanHexMark (c :: rest) = none := by
  refine scanHexMark.eq_3 _ ?_ ?_ <;>
    · rintro s ⟨⟩
      exact absurd hc.digit (by decide)

theorem scanReal_cons (hc : NoNumber c) : scanReal (c :: rest) = none := by
  have hmantissa : scanMantissa 10 (c :: rest) = none := by
    have hneg : ¬isDigitOf 10 c = true := by rw [hc.digit]; exact Bool.false_ne_true
    rw [scanMantissa, List.takeWhile_cons_of_neg hneg, List.dropWhile_cons_of_neg hneg]
    split
    · rename_i heq
      exact absurd (List.cons.inj heq).1 hc.point
    · rfl
  rw [scanReal, scanHexMark_cons hc]
  simp only [Option.bind_none, hmantissa]

theorem scanSigned_cons (hc : NoNumber c) : scanSigned 0 (c :: rest) = none := by
  have hzero : (c :: rest).head? ≠ some '0' := by
    intro h
    rw [List.head?_cons, Option.some.injEq] at h
    exact absurd hc.digit (by rw [h]; decide)
  have hneg : ¬isDigitOf 10 c = true := by rw [hc.digit]; exact Bool.false_ne_true
  have hdigits : scanDigits 10 (c :: rest) = none := by
    rw [scanDigits, List.takeWhile_cons_of_neg hneg, if_pos rfl]
  have hint : scanInteger 0 (c :: rest) = none := by
    rw [scanInteger, if_pos (.inl rfl), scanHexMark_cons hc]
    simp only [Option.bind_none, if_true, if_neg hzero, hdigits]
  rw [scanSigned, afterSign_cons hc, hint]
  rfl

theorem fromConversion_none (ty : NumberType) : fromConversion ty ⟨.finite 0, 0, false⟩ = .failed :=
  if_pos (.inr ⟨rfl, rfl⟩)

theorem startsWith_append {word s s' : List Char} (hs : s <+: s') (h : startsWith word s) : startsWith word s' := by
  obtain ⟨t, rfl⟩ := hs
  have hlen := startsWith_length h
  rw [startsWith, List.take_append_of_le_length hlen]
  exact h

theorem nullTerm_prefix (text : List Char) : nullTerm text <+: text :=
  (List.takeWhile_prefix _).trans (List.take_prefix 32 text)

theorem firstNumber_failed {ty : NumberType} {types : List NumberType} (h : fromChars ty text 0 = .failed) :
    firstNumber text (ty :: types) = firstNumber text types := by
  rw [firstNumber, h]
  rfl

/-- A character that begins no number begins none with letters either, other than `nan`: the infinities are out of
range. -/
theorem numberMatch_cons (hc : NoNumber c) (hzero : c ≠ '\x00') (hnan : startsWith ['n', 'a', 'n'] (c :: rest) = false) :
    numberMatch (c :: rest) = none := by
  obtain ⟨rest', hterm⟩ : ∃ rest', nullTerm (c :: rest) = c :: rest' := by
    rw [nullTerm, List.take_succ_cons, List.takeWhile_cons_of_pos (p := fun c ↦ decide (c ≠ '\x00')) (decide_eq_true hzero)]
    exact ⟨_, rfl⟩
  have hreal : fromChars .real (c :: rest) 0 = .failed := by
    have hprefix := nullTerm_prefix (c :: rest)
    rw [hterm] at hprefix
    rw [fromChars, hterm, strtold, afterSign_cons hc, scanReal_cons hc]
    dsimp only
    split_ifs with hinfinity hinf hnan'
    · exact if_neg (by simp)
    · exact if_neg (by simp)
    · rw [startsWith_append hprefix hnan'] at hnan
      cases hnan
    · exact fromConversion_none _
  have huint : fromChars .uint (c :: rest) 0 = .failed := by
    rw [fromChars, hterm, strtoull, scanSigned_cons hc]
    exact fromConversion_none _
  have hsint : fromChars .sint (c :: rest) 0 = .failed := by
    rw [fromChars, hterm, strtoll, scanSigned_cons hc]
    exact fromConversion_none _
  rw [numberMatch, firstNumber_failed hreal, firstNumber_failed huint, firstNumber_failed hsint]
  rfl

theorem numberMatch_nil : numberMatch [] = none := by decide +kernel

end

end Stela.Lex
