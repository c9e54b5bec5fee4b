import Mathlib.Tactic

/-! `uuid.UUID`: 128-bit identifiers, `str(UUID)` and `UUID(str)`. -/

abbrev UUID := Fin (2 ^ 128)

instance UUID.neZero : NeZero (2 ^ 128 : ℕ) := ⟨by decide⟩
instance UUID.lawfulBEq : LawfulBEq UUID := inferInstance

namespace UUID

def hexDigits : ℕ → ℕ → List Char
  | 0, _ => []
  | count + 1, n => hexDigits count (n / 16) ++ [Nat.digitChar (n % 16)]

def dashed (hex : List Char) : List Char :=
  hex.take 8 ++ '-' :: ((hex.drop 8).take 4 ++ '-' :: ((hex.drop 12).take 4 ++
    '-' :: ((hex.drop 16).take 4 ++ '-' :: hex.drop 20)))

/-- `str(u)`: 32 hexadecimal digits in groups of 8, 4, 4, 4 and 12. -/
def str (u : UUID) : String := String.ofList (dashed (hexDigits 32 u.val))

def hexValue (c : Char) : Option ℕ :=
  if '0' ≤ c ∧ c ≤ '9' then some (c.toNat - '0'.toNat)
  else if 'a' ≤ c ∧ c ≤ 'f' then some (c.toNat - 'a'.toNat + 10)
  else if 'A' ≤ c ∧ c ≤ 'F' then some (c.toNat - 'A'.toNat + 10)
  else none

def readHex (acc : ℕ) : List Char → Option ℕ
  | [] => some acc
  | c :: rest =>
    match hexValue c with
    | none => none
    | some value => readHex (16 * acc + value) rest

/-- `text.replace(pattern, "")`; the first argument counts the characters of a match still to skip. -/
def remove (pattern : List Char) : ℕ → List Char → List Char
  | _, [] => []
  | skip + 1, _ :: rest => remove pattern skip rest
  | 0, c :: rest =>
    if pattern.isPrefixOf (c :: rest) then remove pattern (pattern.length - 1) rest
    else c :: remove pattern 0 rest

def isBrace (c : Char) : Bool := c = '{' || c = '}'

def stripBraces (text : List Char) : List Char :=
  ((text.dropWhile isBrace).reverse.dropWhile isBrace).reverse

/-- `uuid.UUID(hex)`, nothing where it raises `ValueError`: braces, hyphens and a URN prefix are optional. -/
def ofStr (hex : String) : Option UUID :=
  let digits := (stripBraces (remove "uuid:".toList 0 (remove "urn:".toList 0 hex.toList))).filter (· ≠ '-')
  if digits.length = 32 then
    match readHex 0 digits with
    | none => none
    | some int => if small : int < 2 ^ 128 then some ⟨int, small⟩ else none
  else none

theorem length_hexDigits (count n : ℕ) : (hexDigits count n).length = count := by
  induction count generalizing n with
  | zero => rfl
  | succ count ih => simp [hexDigits, ih]

theorem hexValue_digitChar {n : ℕ} (small : n < 16) : hexValue (Nat.digitChar n) = some n := by
  interval_cases n <;> decide

theorem readHex_hexDigits (count n acc : ℕ) (rest : List Char) :
    readHex acc (hexDigits count n ++ rest) = readHex (acc * 16 ^ count + n % 16 ^ count) rest := by
  induction count generalizing n rest with
  | zero => simp [hexDigits, Nat.mod_one]
  | succ count ih =>
    rw [hexDigits, List.append_assoc, ih, List.singleton_append]
    simp only [readHex, hexValue_digitChar (Nat.mod_lt n (by decide : 0 < 16))]
    congr 1
    rw [pow_succ', Nat.mod_mul, mul_add]
    ring

theorem digitChar_plain {n : ℕ} (small : n < 16) :
    Nat.digitChar n ≠ '-' ∧ Nat.digitChar n ≠ ':' ∧ isBrace (Nat.digitChar n) = false := by
  interval_cases n <;> decide

theorem mem_hexDigits {count n : ℕ} {c : Char} (member : c ∈ hexDigits count n) :
    c ≠ '-' ∧ c ≠ ':' ∧ isBrace c = false := by
  induction count generalizing n with
  | zero => simp [hexDigits] at member
  | succ count ih =>
    rw [hexDigits, List.mem_append, List.mem_singleton] at member
    rcases member with earlier | rfl
    · exact ih earlier
    · exact digitChar_plain (Nat.mod_lt n (by decide))

theorem mem_dashed {hex : List Char} {c : Char} (member : c ∈ dashed hex) : c ∈ hex ∨ c = '-' := by
  simp only [dashed, List.mem_append, List.mem_cons] at member
  rcases member with part | rfl | part | rfl | part | rfl | part | rfl | part
  · exact .inl (List.mem_of_mem_take part)
  · exact .inr rfl
  · exact .inl (List.mem_of_mem_drop (List.mem_of_mem_take part))
  · exact .inr rfl
  · exact .inl (List.mem_of_mem_drop (List.mem_of_mem_take part))
  · exact .inr rfl
  · exact .inl (List.mem_of_mem_drop (List.mem_of_mem_take part))
  · exact .inr rfl
  · exact .inl (List.mem_of_mem_drop part)

theorem filter_dashed {hex : List Char} (plain : ∀ c ∈ hex, c ≠ '-') :
    (dashed hex).filter (· ≠ '-') = hex := by
  have keep : ∀ {part : List Char}, (∀ c ∈ part, c ∈ hex) → part.filter (· ≠ '-') = part :=
    fun within => List.filter_eq_self.2 fun c member => by simpa using plain c (within c member)
  have pieces : (dashed hex).filter (· ≠ '-') = hex.take 8 ++ ((hex.drop 8).take 4 ++ ((hex.drop 12).take 4 ++
      ((hex.drop 16).take 4 ++ hex.drop 20))) := by
    simp only [dashed, List.filter_append, List.filter_cons, ne_eq, not_true_eq_false, decide_false,
      Bool.false_eq_true, ↓reduceIte]
    simp only [← ne_eq]
    rw [keep fun _ => List.mem_of_mem_take, keep fun _ part => List.mem_of_mem_drop (List.mem_of_mem_take part),
      keep fun _ part => List.mem_of_mem_drop (List.mem_of_mem_take part),
      keep fun _ part => List.mem_of_mem_drop (List.mem_of_mem_take part), keep fun _ => List.mem_of_mem_drop]
  have join : ∀ n, (hex.drop n).take 4 ++ hex.drop (n + 4) = hex.drop n := by
    intro n
    rw [← List.drop_drop, List.take_append_drop]
  rw [pieces, join 16, join 12, join 8, List.take_append_drop]

theorem remove_absent (pattern : List Char) {text : List Char} (colon : ':' ∈ pattern) (absent : ':' ∉ text) :
    remove pattern 0 text = text := by
  induction text with
  | nil => rfl
  | cons c rest ih =>
    have other : ¬pattern.isPrefixOf (c :: rest) := fun isPrefix =>
      absent ((List.isPrefixOf_iff_prefix.1 isPrefix).subset colon)
    rw [remove, if_neg other, ih fun later => absent (List.mem_cons_of_mem _ later)]

theorem stripBraces_absent {text : List Char} (absent : ∀ c ∈ text, isBrace c = false) :
    stripBraces text = text := by
  have front : ∀ {cs : List Char}, (∀ c ∈ cs, isBrace c = false) → cs.dropWhile isBrace = cs := by
    intro cs none
    cases cs with
    | nil => rfl
    | cons c cs => simp [none c]
  rw [stripBraces, front absent, front fun c member => absent c (List.mem_reverse.1 member), List.reverse_reverse]

/-- Reading a printed identifier gives it back. -/
theorem ofStr_str (u : UUID) : ofStr u.str = some u := by
  have plain : ∀ c ∈ dashed (hexDigits 32 u.val), c ≠ ':' ∧ isBrace c = false := by
    intro c member
    rcases mem_dashed member with digit | rfl
    · exact (mem_hexDigits digit).2
    · decide
  have absent : ':' ∉ dashed (hexDigits 32 u.val) := fun member => (plain _ member).1 rfl
  have digits : (stripBraces (remove "uuid:".toList 0 (remove "urn:".toList 0 u.str.toList))).filter (· ≠ '-') =
      hexDigits 32 u.val := by
    have text : u.str.toList = dashed (hexDigits 32 u.val) := String.toList_ofList
    rw [text, remove_absent "urn:".toList (by decide) absent,
      remove_absent "uuid:".toList (by decide) absent,
      stripBraces_absent fun c member => (plain c member).2, filter_dashed fun c member => (mem_hexDigits member).1]
  have read := readHex_hexDigits 32 u.val 0 []
  have small : u.val < 16 ^ 32 := lt_of_lt_of_eq u.isLt (by norm_num)
  rw [List.append_nil, Nat.zero_mul, Nat.zero_add, Nat.mod_eq_of_lt small, readHex] at read
  simp only [ofStr, digits, length_hexDigits, ↓reduceIte, read, u.isLt, ↓reduceDIte]

theorem str_injective : Function.Injective str := by
  intro a b same
  have read := ofStr_str a
  rw [same, ofStr_str b] at read
  exact (Option.some.inj read).symm

theorem length_str (u : UUID) : u.str.toList.length = 36 := by
  simp [str, dashed, length_hexDigits]

end UUID
