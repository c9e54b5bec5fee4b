import LedgerFlow.Arithmetic.Decimal

/-! `str(Decimal)` and `Decimal(str)`: the scientific string of a decimal and its reading. -/

namespace Decimal

def signedDigits (n : ℤ) : List Char := (if n < 0 then '-' else '+') :: Nat.toDigits 10 n.natAbs

/-- The characters of `Decimal.__str__`. -/
def chars (d : Decimal) : List Char :=
  let int := Nat.toDigits 10 d.int
  let leftdigits : ℤ := d.exp + int.length
  -- number of digits of int to the left of the decimal point
  let dotplace : ℤ := if d.exp ≤ 0 ∧ -6 < leftdigits then leftdigits else 1
  let intpart :=
    if dotplace ≤ 0 then ['0']
    else if int.length ≤ dotplace then int ++ List.replicate (dotplace - int.length).toNat '0'
    else int.take dotplace.toNat
  let fracpart :=
    if dotplace ≤ 0 then '.' :: (List.replicate (-dotplace).toNat '0' ++ int)
    else if int.length ≤ dotplace then []
    else '.' :: int.drop dotplace.toNat
  let exponent := if leftdigits = dotplace then [] else 'E' :: signedDigits (leftdigits - dotplace)
  (if d.sign then ['-'] else []) ++ (intpart ++ (fracpart ++ exponent))

def str (d : Decimal) : String := String.ofList d.chars

inductive Number where
  | finite (d : Decimal)
  | infinite (sign : Bool)
  | nan (signaling : Bool)
  deriving DecidableEq, Repr

def readExponent : List Char → Option ℤ
  | [] => some 0
  | e :: rest =>
    if e = 'E' ∨ e = 'e' then
      let negative := rest.head? = some '-'
      let digits := if rest.head? = some '-' ∨ rest.head? = some '+' then rest.tail else rest
      if digits ≠ [] ∧ digits.all Char.isDigit then
        some (if negative then -(Nat.ofDigitChars 10 digits 0 : ℤ) else Nat.ofDigitChars 10 digits 0)
      else none
    else none

def readFinite (sign : Bool) (text : List Char) : Option Decimal :=
  let intpart := text.takeWhile Char.isDigit
  let rest := text.dropWhile Char.isDigit
  let fracpart := if rest.head? = some '.' then rest.tail.takeWhile Char.isDigit else []
  let rest := if rest.head? = some '.' then rest.tail.dropWhile Char.isDigit else rest
  if intpart ++ fracpart = [] then none
  else (readExponent rest).map fun e => ⟨sign, Nat.ofDigitChars 10 (intpart ++ fracpart) 0, e - fracpart.length⟩

def readSpecial (sign : Bool) (text : List Char) : Option Number :=
  let lower := text.map Char.toLower
  let digits := fun prefixLength => (lower.drop prefixLength).all Char.isDigit
  if lower = "inf".toList ∨ lower = "infinity".toList then some (.infinite sign)
  else if lower.take 3 = "nan".toList ∧ digits 3 then some (.nan false)
  else if lower.take 4 = "snan".toList ∧ digits 4 then some (.nan true)
  else none

def strip (text : List Char) : List Char :=
  ((text.dropWhile Char.isWhitespace).reverse.dropWhile Char.isWhitespace).reverse

/-- `Decimal(value)` for a string, nothing where it raises `InvalidOperation`. -/
def ofStr (value : String) : Option Number :=
  let text := (strip value.toList).filter (· ≠ '_')
  let sign := text.head? = some '-'
  let unsigned := if text.head? = some '-' ∨ text.head? = some '+' then text.tail else text
  match readFinite sign unsigned with
  | some d => some (.finite d)
  | none => readSpecial sign unsigned

theorem takeWhile_digits {ds rest : List Char} (digits : ∀ c ∈ ds, c.isDigit)
    (stop : ∀ c ∈ rest.head?, c.isDigit = false) : (ds ++ rest).takeWhile Char.isDigit = ds := by
  rw [List.takeWhile_append_of_pos digits]
  cases rest with
  | nil => simp
  | cons c cs => simp [stop c rfl]

theorem dropWhile_digits {ds rest : List Char} (digits : ∀ c ∈ ds, c.isDigit)
    (stop : ∀ c ∈ rest.head?, c.isDigit = false) : (ds ++ rest).dropWhile Char.isDigit = rest := by
  rw [List.dropWhile_append_of_pos digits]
  cases rest with
  | nil => simp
  | cons c cs => simp [stop c rfl]

theorem digit_of_mem_toDigits {n : ℕ} {c : Char} (member : c ∈ Nat.toDigits 10 n) : c.isDigit :=
  Nat.isDigit_of_mem_toDigits (by decide) (by decide) member

theorem ne_of_digit {c x : Char} (digit : c.isDigit) (other : x.isDigit = false) : c ≠ x := by
  rintro rfl
  simp [digit] at other

theorem readExponent_signedDigits (n : ℤ) : readExponent ('E' :: signedDigits n) = some n := by
  have read : Nat.ofDigitChars 10 (Nat.toDigits 10 n.natAbs) 0 = n.natAbs := Nat.ofDigitChars_ten_toDigits
  have all : (Nat.toDigits 10 n.natAbs).all Char.isDigit := List.all_eq_true.2 fun _ => digit_of_mem_toDigits
  unfold readExponent signedDigits
  by_cases negative : n < 0
  · simp [negative, all, Nat.toDigits_ne_nil, read, abs_of_neg]
  · simp [negative, all, Nat.toDigits_ne_nil, read, abs_of_nonneg (not_lt.mp negative)]

theorem readFinite_parts (sign : Bool) {intpart fraction exponent : List Char} {e : ℤ} {point : Bool}
    (nonempty : intpart ≠ []) (intDigits : ∀ c ∈ intpart, c.isDigit)
    (fracDigits : ∀ c ∈ fraction, c.isDigit)
    (noPoint : point = false → fraction = []) (stop : ∀ c ∈ exponent.head?, c.isDigit = false ∧ c ≠ '.')
    (read : readExponent exponent = some e) :
    readFinite sign (intpart ++ ((if point then ['.'] else []) ++ fraction ++ exponent)) =
      some ⟨sign, Nat.ofDigitChars 10 (intpart ++ fraction) 0, e - fraction.length⟩ := by
  cases point with
  | false =>
    have empty := noPoint rfl
    subst empty
    have noDot : exponent.head? ≠ some '.' := fun dot => (stop '.' dot).2 rfl
    have digitStop : ∀ c ∈ exponent.head?, c.isDigit = false := fun c member => (stop c member).1
    simp only [Bool.false_eq_true, ↓reduceIte, List.append_nil, List.nil_append, readFinite,
      takeWhile_digits intDigits digitStop, dropWhile_digits intDigits digitStop, if_neg noDot, nonempty, read,
      Option.map_some]
  | true =>
    have dotStop : ∀ c ∈ ('.' :: (fraction ++ exponent)).head?, c.isDigit = false := by simp
    have digitStop : ∀ c ∈ exponent.head?, c.isDigit = false := fun c member => (stop c member).1
    simp only [↓reduceIte, List.cons_append, List.nil_append, readFinite,
      takeWhile_digits intDigits dotStop, dropWhile_digits intDigits dotStop, List.head?_cons, List.tail_cons,
      takeWhile_digits fracDigits digitStop, dropWhile_digits fracDigits digitStop, List.append_eq_nil_iff,
      nonempty, false_and, read, Option.map_some]

/-- The printed text is a sign and the parts that reading puts together again. -/
theorem chars_parts (d : Decimal) : ∃ intpart fraction exponent e point,
    d.chars = (if d.sign then ['-'] else []) ++
      (intpart ++ ((if point then ['.'] else []) ++ fraction ++ exponent)) ∧
    intpart ≠ [] ∧ (∀ c ∈ intpart, c.isDigit) ∧ (∀ c ∈ fraction, c.isDigit) ∧
    (point = false → fraction = []) ∧ (exponent = [] ∨ ∃ n, exponent = 'E' :: signedDigits n) ∧
    readExponent exponent = some e ∧ Nat.ofDigitChars 10 (intpart ++ fraction) 0 = d.int ∧
    e - fraction.length = d.exp := by
  have read : Nat.ofDigitChars 10 (Nat.toDigits 10 d.int) 0 = d.int := Nat.ofDigitChars_ten_toDigits
  have digits : ∀ c ∈ Nat.toDigits 10 d.int, c.isDigit := fun _ => digit_of_mem_toDigits
  have positive : 0 < (Nat.toDigits 10 d.int).length := Nat.length_toDigits_pos
  obtain ⟨int, int_eq⟩ : ∃ int, int = Nat.toDigits 10 d.int := ⟨_, rfl⟩
  rw [← int_eq] at read digits positive
  by_cases plain : d.exp ≤ 0 ∧ -6 < d.exp + int.length
  · by_cases small : d.exp + int.length ≤ 0
    · refine ⟨['0'], List.replicate (-(d.exp + int.length)).toNat '0' ++ int, [], 0, true, ?_, by simp, by simp,
        fun c member => ?_, by simp, .inl rfl, rfl, ?_, ?_⟩
      · simp [chars, ← int_eq, plain, small]
      · rcases List.mem_append.1 member with zero | digit
        · rw [List.eq_of_mem_replicate zero]
          rfl
        · exact digits c digit
      · rw [List.cons_append, List.nil_append, Nat.ofDigitChars_cons, Nat.ofDigitChars_append,
          Nat.ofDigitChars_replicate_zero]
        simpa using read
      · simp only [List.length_append, List.length_replicate]
        omega
    · by_cases whole : (int.length : ℤ) ≤ d.exp + int.length
      · have exp : d.exp = 0 := by omega
        refine ⟨int, [], [], 0, false, ?_, List.length_pos_iff.1 positive, digits, by simp, by simp, .inl rfl, rfl,
          by simpa using read, by simp [exp]⟩
        have start : ¬(int.length : ℤ) ≤ 0 := by omega
        have wide : (-6 : ℤ) < int.length := by omega
        have nonempty : int ≠ [] := List.length_pos_iff.1 positive
        simp [chars, ← int_eq, exp, wide, nonempty]
      · refine ⟨int.take (d.exp + int.length).toNat, int.drop (d.exp + int.length).toNat, [], 0, true, ?_, ?_,
          fun c member => digits c (List.mem_of_mem_take member), fun c member =>
            digits c (List.mem_of_mem_drop member),
          by simp, .inl rfl, rfl, by simpa using read, ?_⟩
        · simp only [chars, ← int_eq, if_pos plain, if_neg small, if_neg whole]
          simp
        · intro empty
          have length := congrArg List.length empty
          simp only [List.length_take, List.length_nil] at length
          omega
        · simp only [List.length_drop]
          omega
  · have one : ¬(1 : ℤ) ≤ 0 := by decide
    obtain ⟨exponent, exponent_eq⟩ : ∃ exponent, exponent =
        if d.exp + int.length = 1 then [] else 'E' :: signedDigits (d.exp + int.length - 1) := ⟨_, rfl⟩
    have readExp : readExponent exponent = some (d.exp + int.length - 1) := by
      rw [exponent_eq]
      split_ifs with none
      · simp [readExponent, none]
      · exact readExponent_signedDigits _
    have shape : exponent = [] ∨ ∃ n, exponent = 'E' :: signedDigits n := by
      rw [exponent_eq]
      split_ifs
      · exact .inl rfl
      · exact .inr ⟨_, rfl⟩
    by_cases single : int.length ≤ 1
    · have length : int.length = 1 := by omega
      refine ⟨int, [], exponent, _, false, ?_, List.length_pos_iff.1 positive, digits, by simp, by simp, shape,
        readExp, by simpa using read, by simp [length]⟩
      have fits : (int.length : ℤ) ≤ 1 := by omega
      have unpadded : (1 - (int.length : ℤ)).toNat = 0 := by omega
      simp only [chars, ← int_eq, if_neg plain, if_neg one, if_pos fits, unpadded, exponent_eq]
      simp
    · have more : ¬(int.length : ℤ) ≤ 1 := by omega
      refine ⟨int.take 1, int.drop 1, exponent, _, true, ?_, ?_,
        fun c member => digits c (List.mem_of_mem_take member), fun c member =>
          digits c (List.mem_of_mem_drop member),
        by simp, shape, readExp, by rwa [List.take_append_drop], ?_⟩
      · simp only [chars, ← int_eq, if_neg plain, if_neg one, if_neg more, exponent_eq]
        simp
      · intro empty
        have length := congrArg List.length empty
        simp only [List.length_take, List.length_nil] at length
        omega
      · simp only [List.length_drop]
        omega

theorem strip_of_printable {text : List Char} (printable : ∀ c ∈ text, c.isWhitespace = false) :
    strip text = text := by
  have front : ∀ {cs : List Char}, (∀ c ∈ cs, c.isWhitespace = false) →
      cs.dropWhile Char.isWhitespace = cs := by
    intro cs visible
    cases cs with
    | nil => rfl
    | cons c cs => simp [visible c]
  rw [strip, front printable, front (fun c member => printable c (List.mem_reverse.1 member)), List.reverse_reverse]

def Printed (c : Char) : Prop := c.isDigit ∨ c = '-' ∨ c = '+' ∨ c = '.' ∨ c = 'E'

theorem Printed.visible {c : Char} (printed : Printed c) : c.isWhitespace = false ∧ c ≠ '_' := by
  rcases printed with digit | rfl | rfl | rfl | rfl
  · have different := fun x other => ne_of_digit (x := x) digit other
    refine ⟨?_, different _ rfl⟩
    simp [Char.isWhitespace, different ' ' rfl, different '\t' rfl, different '\r' rfl, different '\n' rfl]
  all_goals decide

theorem printed_chars (d : Decimal) : ∀ c ∈ d.chars, Printed c := by
  obtain ⟨intpart, fraction, exponent, e, point, chars, _, intDigits, fracDigits, _, shape, _⟩ := d.chars_parts
  intro c member
  rw [chars] at member
  simp only [List.mem_append] at member
  rcases member with sign | int | (dot | frac) | exp
  · split_ifs at sign <;> simp_all [Printed]
  · exact .inl (intDigits c int)
  · split_ifs at dot <;> simp_all [Printed]
  · exact .inl (fracDigits c frac)
  · rcases shape with rfl | ⟨n, rfl⟩
    · simp at exp
    · simp only [signedDigits, List.mem_cons] at exp
      rcases exp with rfl | same | digit
      · simp [Printed]
      · split_ifs at same <;> simp_all [Printed]
      · exact .inl (digit_of_mem_toDigits digit)

/-- Reading a printed decimal gives it back, digit for digit. -/
theorem ofStr_str (d : Decimal) : ofStr d.str = some (.finite d) := by
  have text : (strip d.str.toList).filter (· ≠ '_') = d.chars := by
    rw [str, String.toList_ofList, strip_of_printable fun c member => (d.printed_chars c member).visible.1,
      List.filter_eq_self.2]
    intro c member
    simpa using (d.printed_chars c member).visible.2
  obtain ⟨intpart, fraction, exponent, e, point, chars, nonempty, intDigits, fracDigits, noPoint, shape, readExp,
    value, exp⟩ := d.chars_parts
  have stop : ∀ c ∈ exponent.head?, c.isDigit = false ∧ c ≠ '.' := by
    rcases shape with rfl | ⟨n, rfl⟩
    · simp
    · simp
  have finite := fun sign => readFinite_parts sign nonempty intDigits fracDigits noPoint stop readExp
  obtain ⟨c, rest, rfl⟩ := List.exists_cons_of_ne_nil nonempty
  simp only [value, exp] at finite
  simp only [List.cons_append, List.append_assoc] at finite
  have digit := intDigits c (by simp)
  have first : c ≠ '-' ∧ c ≠ '+' := ⟨ne_of_digit digit rfl, ne_of_digit digit rfl⟩
  unfold ofStr
  rw [text, chars]
  cases sign : d.sign with
  | false =>
    have same : (⟨false, d.int, d.exp⟩ : Decimal) = d := by rw [← sign]
    simp [first, finite, same]
  | true =>
    have same : (⟨true, d.int, d.exp⟩ : Decimal) = d := by rw [← sign]
    simp [finite, same]

theorem str_injective : Function.Injective str := by
  intro a b same
  have read := ofStr_str a
  rw [same, ofStr_str b] at read
  simpa using read.symm

end Decimal
