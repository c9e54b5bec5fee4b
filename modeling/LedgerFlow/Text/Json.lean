import LedgerFlow.Common.Values

/-! `json.dumps` and `json.loads`, on the documents without lists and fractions. -/

namespace LedgerFlow.Json

/-! `json.dumps`, with the separators and the ASCII escapes that it has by default. -/

def unicodeEscape (n : ℕ) : List Char := '\\' :: 'u' :: UUID.hexDigits 4 n

def escape (c : Char) : List Char :=
  if c = '"' then ['\\', '"']
  else if c = '\\' then ['\\', '\\']
  else if c = '\n' then ['\\', 'n']
  else if c = '\r' then ['\\', 'r']
  else if c = '\t' then ['\\', 't']
  else if c = '\x0c' then ['\\', 'f']
  else if c = '\x08' then ['\\', 'b']
  else if 32 ≤ c.toNat ∧ c.toNat < 127 then [c]
  else if c.toNat < 65536 then unicodeEscape c.toNat
  else
    -- a surrogate pair
    let n := c.toNat - 65536
    unicodeEscape (55296 + n / 1024 % 1024) ++ unicodeEscape (56320 + n % 1024)

def quote (text : String) : List Char := '"' :: text.toList.flatMap escape ++ ['"']

def printInt (n : ℤ) : List Char := if n < 0 then '-' :: Nat.toDigits 10 n.natAbs else Nat.toDigits 10 n.natAbs

mutual

def encode : Json → List Char
  | .null => "null".toList
  | .bool true => "true".toList
  | .bool false => "false".toList
  | .int n => printInt n
  | .str text => quote text
  | .obj [] => "{}".toList
  | .obj (entry :: rest) => '{' :: encodeEntry entry ++ encodeRest rest
termination_by structural d => d

def encodeEntry : String × Json → List Char
  | (key, value) => quote key ++ ": ".toList ++ encode value
termination_by structural entry => entry

def encodeRest : List (String × Json) → List Char
  | [] => ['}']
  | entry :: rest => ", ".toList ++ encodeEntry entry ++ encodeRest rest
termination_by structural entries => entries

end

def dumps (document : Json) : String := String.ofList document.encode

/-! `json.loads`. Nothing is returned where it raises an exception or reads a list, a
fraction or a string that is no sequence of characters. -/

def isSpace (c : Char) : Bool := c = ' ' || c = '\t' || c = '\n' || c = '\r'

def skip (text : List Char) : List Char := text.dropWhile isSpace

def hex4 : List Char → Option (ℕ × List Char)
  | a :: b :: c :: d :: rest => (UUID.readHex 0 [a, b, c, d]).map fun n => (n, rest)
  | _ => none

/-- A character outside the first plane is written as a pair of surrogates. -/
def scanUnicode (text : List Char) : Option (Char × List Char) :=
  match hex4 text with
  | none => none
  | some (high, rest) =>
    if 55296 ≤ high ∧ high < 56320 then
      match rest with
      | '\\' :: 'u' :: rest =>
        match hex4 rest with
        | none => none
        | some (low, rest) =>
          if 56320 ≤ low ∧ low < 57344 then some (Char.ofNat
            (65536 + (high - 55296) * 1024 + (low - 56320)), rest)
          else none
      | _ => none
    else if 56320 ≤ high ∧ high < 57344 then none
    else some (Char.ofNat high, rest)

def scanEscape : List Char → Option (Char × List Char)
  | '"' :: rest => some ('"', rest)
  | '\\' :: rest => some ('\\', rest)
  | '/' :: rest => some ('/', rest)
  | 'b' :: rest => some ('\x08', rest)
  | 'f' :: rest => some ('\x0c', rest)
  | 'n' :: rest => some ('\n', rest)
  | 'r' :: rest => some ('\r', rest)
  | 't' :: rest => some ('\t', rest)
  | 'u' :: rest => scanUnicode rest
  | _ => none

/-- `py_scanstring`, from behind the opening quote. -/
def scanChars : ℕ → List Char → Option (List Char × List Char)
  | 0, _ => none
  | _ + 1, [] => none
  | fuel + 1, c :: rest =>
    if c = '"' then some ([], rest)
    else if c = '\\' then
      match scanEscape rest with
      | none => none
      | some (c, rest) => (scanChars fuel rest).map fun scanned => (c :: scanned.1, scanned.2)
    else if c.toNat < 32 then none
    else (scanChars fuel rest).map fun scanned => (c :: scanned.1, scanned.2)

def scanString (text : List Char) : Option (String × List Char) :=
  (scanChars (text.length + 1) text).map fun scanned => (String.ofList scanned.1, scanned.2)

/-- `(?:0|[1-9]\d*)`. -/
def scanNat (text : List Char) : Option (ℕ × List Char) :=
  let digits := if text.head? = some '0' then ['0'] else text.takeWhile Char.isDigit
  if digits = [] then none else some (Nat.ofDigitChars 10 digits 0, text.drop digits.length)

def scanInt (text : List Char) : Option (ℤ × List Char) :=
  if text.head? = some '-' then (scanNat text.tail).map fun scanned => (-scanned.1, scanned.2)
  else (scanNat text).map fun scanned => (scanned.1, scanned.2)

def put (fields : List (String × Json)) (entry : String × Json) : List (String × Json) :=
  if entry.1 ∈ fields.map Prod.fst then fields.map fun other => if other.1 = entry.1 then entry else other
  else fields ++ [entry]

mutual

def scanOnce : ℕ → List Char → Option (Json × List Char)
  | 0, _ => none
  | fuel + 1, text =>
    match text with
    | '"' :: rest => (scanString rest).map fun scanned => (.str scanned.1, scanned.2)
    | '{' :: rest =>
      match skip rest with
      | '}' :: rest => some (.obj [], rest)
      | text => (scanObject fuel text).map fun scanned => (.obj (scanned.1.foldl put []), scanned.2)
    | 'n' :: 'u' :: 'l' :: 'l' :: rest => some (.null, rest)
    | 't' :: 'r' :: 'u' :: 'e' :: rest => some (.bool true, rest)
    | 'f' :: 'a' :: 'l' :: 's' :: 'e' :: rest => some (.bool false, rest)
    | text => (scanInt text).map fun scanned => (.int scanned.1, scanned.2)

def scanObject : ℕ → List Char → Option (List (String × Json) × List Char)
  | 0, _ => none
  | fuel + 1, text =>
    match text with
    | '"' :: rest =>
      match scanString rest with
      | none => none
      | some (key, rest) =>
        match skip rest with
        | ':' :: rest =>
          match scanOnce fuel (skip rest) with
          | none => none
          | some (value, rest) =>
            match skip rest with
            | '}' :: rest => some ([(key, value)], rest)
            | ',' :: rest => (scanObject fuel (skip rest)).map fun scanned => ((key, value) :: scanned.1, scanned.2)
            | _ => none
        | _ => none
    | _ => none

end

def loads (text : String) : Option Json :=
  match scanOnce (text.toList.length + 1) (skip text.toList) with
  | none => none
  | some (document, rest) => if skip rest = [] then some document else none

/-- No object has a key twice, as in a `dict`. -/
inductive WellFormed : Json → Prop where
  | null : WellFormed .null
  | bool (value : Bool) : WellFormed (.bool value)
  | int (n : ℤ) : WellFormed (.int n)
  | str (text : String) : WellFormed (.str text)
  | obj (fields : List (String × Json)) (distinct : (fields.map Prod.fst).Nodup)
      (values : ∀ entry ∈ fields, WellFormed entry.2) : WellFormed (.obj fields)

/-! A character comes back from its escape. -/

theorem hex4_hexDigits {n : ℕ} (small : n < 65536) (rest : List Char) :
    hex4 (UUID.hexDigits 4 n ++ rest) = some (n, rest) := by
  have read := UUID.readHex_hexDigits 4 n 0 []
  have value : (0 * 16 ^ 4 + n % 16 ^ 4) = n := by omega
  rw [List.append_nil, value] at read
  have shape : UUID.hexDigits 4 n ++ rest =
      Nat.digitChar (n / 16 / 16 / 16 % 16) :: Nat.digitChar (n / 16 / 16 % 16) ::
      Nat.digitChar (n / 16 % 16) :: Nat.digitChar (n % 16) :: rest := rfl
  rw [shape]
  change (UUID.readHex 0 (UUID.hexDigits 4 n)).map _ = _
  rw [read]
  rfl

theorem toNat_cases (c : Char) : c.toNat < 55296 ∨ 57343 < c.toNat ∧ c.toNat < 1114112 := c.valid

theorem scanUnicode_basic {c : Char} (small : c.toNat < 65536) (rest : List Char) :
    scanUnicode (UUID.hexDigits 4 c.toNat ++ rest) = some (c, rest) := by
  have valid := toNat_cases c
  unfold scanUnicode
  rw [hex4_hexDigits small]
  have first : ¬(55296 ≤ c.toNat ∧ c.toNat < 56320) := by omega
  have second : ¬(56320 ≤ c.toNat ∧ c.toNat < 57344) := by omega
  simp only [if_neg first, if_neg second, Char.ofNat_toNat]

theorem scanUnicode_surrogates {high low : ℕ} (first : 55296 ≤ high ∧ high < 56320)
    (second : 56320 ≤ low ∧ low < 57344)
    (rest : List Char) : scanUnicode (UUID.hexDigits 4 high ++ (unicodeEscape low ++ rest)) =
      some (Char.ofNat (65536 + (high - 55296) * 1024 + (low - 56320)), rest) := by
  unfold scanUnicode unicodeEscape
  rw [hex4_hexDigits (by omega)]
  simp only [if_pos first, List.cons_append]
  rw [hex4_hexDigits (by omega)]
  simp only [if_pos second]

theorem scanUnicode_pair {c : Char} (large : 65536 ≤ c.toNat) (rest : List Char) :
    scanUnicode (UUID.hexDigits 4 (55296 + (c.toNat - 65536) / 1024 % 1024) ++
      (unicodeEscape (56320 + (c.toNat - 65536) % 1024) ++ rest)) = some (c, rest) := by
  have valid := toNat_cases c
  rw [scanUnicode_surrogates (by omega) (by omega)]
  have value : 65536 + (55296 + (c.toNat - 65536) / 1024 % 1024 - 55296) * 1024 +
      (56320 + (c.toNat - 65536) % 1024 - 56320) = c.toNat := by omega
  rw [value, Char.ofNat_toNat]

theorem scanChars_unicode {fuel n : ℕ} {c : Char} {text rest : List Char}
    (scanned : scanUnicode (UUID.hexDigits 4 n ++ text) = some (c, rest)) :
    scanChars (fuel + 1) (unicodeEscape n ++ text) = (scanChars fuel rest).map fun scanned =>
    (c :: scanned.1, scanned.2) := by
  have escaped : scanEscape ('u' :: (UUID.hexDigits 4 n ++ text)) = some (c, rest) := scanned
  change scanChars (fuel + 1) ('\\' :: 'u' :: (UUID.hexDigits 4 n ++ text)) = _
  rw [scanChars, if_neg (by decide), if_pos rfl, escaped]

theorem scanChars_escape (fuel : ℕ) (c : Char) (rest : List Char) :
    scanChars (fuel + 1) (escape c ++ rest) = (scanChars fuel rest).map fun scanned =>
    (c :: scanned.1, scanned.2) := by
  unfold escape
  split_ifs with a b d e f g h printable basic
  · subst a; rfl
  · subst b; rfl
  · subst d; rfl
  · subst e; rfl
  · subst f; rfl
  · subst g; rfl
  · subst h; rfl
  · have visible : ¬c.toNat < 32 := by omega
    rw [List.singleton_append, scanChars, if_neg a, if_neg b, if_neg visible]
  · exact scanChars_unicode (scanUnicode_basic basic rest)
  · rw [List.append_assoc]
    exact scanChars_unicode (scanUnicode_pair (by omega) rest)

theorem length_escape_pos (c : Char) : 0 < (escape c).length := by
  unfold escape
  split_ifs <;> simp [unicodeEscape]

theorem scanChars_escapes (text rest : List Char) : ∀ fuel, text.length < fuel →
    scanChars fuel (text.flatMap escape ++ '"' :: rest) = some (text, rest) := by
  induction text with
  | nil =>
    intro fuel enough
    obtain ⟨fuel, rfl⟩ := Nat.exists_eq_add_of_lt enough
    rw [List.flatMap_nil, List.nil_append, scanChars, if_pos rfl]
  | cons c text ih =>
    intro fuel enough
    cases fuel with
    | zero => exact absurd enough (Nat.not_lt_zero _)
    | succ fuel =>
      rw [List.flatMap_cons, List.append_assoc, scanChars_escape, ih fuel (Nat.lt_of_succ_lt_succ enough)]
      rfl

theorem length_le_escapes (text : List Char) : text.length ≤ (text.flatMap escape).length := by
  induction text with
  | nil => exact Nat.le_refl _
  | cons c text ih =>
    have positive := length_escape_pos c
    rw [List.flatMap_cons, List.length_append, List.length_cons]
    omega

theorem scanString_quote (text : String) (rest : List Char) :
    scanString (text.toList.flatMap escape ++ '"' :: rest) = some (text, rest) := by
  have enough := length_le_escapes text.toList
  unfold scanString
  rw [scanChars_escapes text.toList rest]
  · simp
  · rw [List.length_append]
    omega

/-! A whole number comes back from its digits. -/

theorem head_toDigits {n : ℕ} (positive : 0 < n) : (Nat.toDigits 10 n).head? ≠ some '0' := by
  induction n using Nat.strong_induction_on with
  | _ n ih =>
    by_cases small : n < 10
    · rw [Nat.toDigits_of_lt_base small]
      interval_cases n <;> decide
    · have first := ih (n / 10) (by omega) (by omega)
      rw [Nat.toDigits_of_base_le (by decide) (by omega), List.head?_append_of_ne_nil _ Nat.toDigits_ne_nil]
      exact first

/-- What follows a value in a document: nothing, or the next delimiter. -/
def Delimited (rest : List Char) : Prop := ∀ c ∈ rest.head?, c = ',' ∨ c = '}'

theorem Delimited.digit {rest : List Char} (delimited : Delimited rest) : ∀ c ∈ rest.head?,
    c.isDigit = false := by
  intro c member
  rcases delimited c member with rfl | rfl
  · rfl
  · rfl

theorem scanNat_toDigits (n : ℕ) {rest : List Char} (delimited : Delimited rest) :
    scanNat (Nat.toDigits 10 n ++ rest) = some (n, rest) := by
  have digits : (if (Nat.toDigits 10 n ++ rest).head? = some '0' then ['0']
      else (Nat.toDigits 10 n ++ rest).takeWhile Char.isDigit) = Nat.toDigits 10 n := by
    rcases Nat.eq_zero_or_pos n with rfl | positive
    · rfl
    · rw [List.head?_append_of_ne_nil _ Nat.toDigits_ne_nil, if_neg (head_toDigits positive)]
      exact Decimal.takeWhile_digits (fun _ => Decimal.digit_of_mem_toDigits) delimited.digit
  have read : Nat.ofDigitChars 10 (Nat.toDigits 10 n) 0 = n := Nat.ofDigitChars_ten_toDigits
  unfold scanNat
  simp only [digits]
  rw [if_neg Nat.toDigits_ne_nil, read, List.drop_left]

theorem printInt_cons (n : ℤ) : ∃ c text, printInt n = c :: text ∧ (c = '-' ∨ c.isDigit) := by
  unfold printInt
  split_ifs
  · exact ⟨'-', _, rfl, .inl rfl⟩
  · obtain ⟨c, text, same⟩ := List.exists_cons_of_ne_nil (Nat.toDigits_ne_nil (n := n.natAbs) (b := 10))
    have member : c ∈ Nat.toDigits 10 n.natAbs := by
      rw [same]
      exact List.mem_cons_self
    exact ⟨c, text, same, .inr (Decimal.digit_of_mem_toDigits member)⟩

theorem scanInt_printInt (n : ℤ) {rest : List Char} (delimited : Delimited rest) :
    scanInt (printInt n ++ rest) = some (n, rest) := by
  have read := scanNat_toDigits n.natAbs delimited
  unfold scanInt printInt
  split_ifs with negative minus minus
  · rw [List.cons_append, List.tail_cons, read, Option.map_some]
    have value : -(n.natAbs : ℤ) = n := by omega
    rw [value]
  · exact absurd rfl minus
  · rw [List.head?_append_of_ne_nil _ Nat.toDigits_ne_nil] at minus
    have digit := Decimal.digit_of_mem_toDigits (List.mem_of_head? minus)
    cases digit
  · rw [read, Option.map_some]
    have value : (n.natAbs : ℤ) = n := by omega
    rw [value]

/-! A document comes back from its text. -/

theorem skip_cons {c : Char} (visible : isSpace c = false) (rest : List Char) : skip (c :: rest) = c :: rest := by
  unfold skip
  rw [List.dropWhile_cons, visible]
  rfl

theorem skip_space (text : List Char) : skip (' ' :: text) = skip text := rfl

theorem encode_cons (document : Json) : ∃ c text, document.encode = c :: text ∧ isSpace c = false := by
  cases document with
  | null => exact ⟨'n', _, rfl, rfl⟩
  | bool value => cases value <;> exact ⟨_, _, rfl, rfl⟩
  | int n =>
    obtain ⟨c, text, same, first⟩ := printInt_cons n
    refine ⟨c, text, same, ?_⟩
    rcases first with rfl | digit
    · rfl
    · unfold isSpace
      simp [Decimal.ne_of_digit digit (x := ' ') rfl, Decimal.ne_of_digit digit (x := '\t') rfl,
        Decimal.ne_of_digit digit (x := '\n') rfl, Decimal.ne_of_digit digit (x := '\r') rfl]
  | str text => exact ⟨'"', _, rfl, rfl⟩
  | obj fields => cases fields <;> exact ⟨_, _, rfl, rfl⟩

theorem skip_encode (document : Json) (rest : List Char) :
    skip (document.encode ++ rest) = document.encode ++ rest := by
  obtain ⟨c, text, same, visible⟩ := encode_cons document
  rw [same]
  exact skip_cons visible (text ++ rest)

theorem scanOnce_printInt (fuel : ℕ) (n : ℤ) {rest : List Char} (delimited : Delimited rest) :
    scanOnce (fuel + 1) (printInt n ++ rest) = some (.int n, rest) := by
  have read := scanInt_printInt n delimited
  obtain ⟨c, text, same, first⟩ := printInt_cons n
  have other : ∀ x : Char, x.isDigit = false → x ≠ '-' → c ≠ x := by
    intro x plain sign
    rcases first with rfl | digit
    · exact fun same => sign same.symm
    · exact Decimal.ne_of_digit digit plain
  rw [same, List.cons_append] at read ⊢
  unfold scanOnce
  split
  · rename_i opened
    exact absurd (List.cons.inj opened).1 (other _ rfl (by decide))
  · rename_i opened
    exact absurd (List.cons.inj opened).1 (other _ rfl (by decide))
  · rename_i opened
    exact absurd (List.cons.inj opened).1 (other _ rfl (by decide))
  · rename_i opened
    exact absurd (List.cons.inj opened).1 (other _ rfl (by decide))
  · rename_i opened
    exact absurd (List.cons.inj opened).1 (other _ rfl (by decide))
  · rw [read]
    rfl

theorem foldl_put {fields kept : List (String × Json)} (distinct : ((kept ++ fields).map Prod.fst).Nodup) :
    fields.foldl put kept = kept ++ fields := by
  induction fields generalizing kept with
  | nil => exact (List.append_nil kept).symm
  | cons entry fields ih =>
    have fresh : entry.1 ∉ kept.map Prod.fst := by
      intro member
      rw [List.map_append, List.nodup_append'] at distinct
      exact distinct.2.2 member List.mem_cons_self
    rw [List.foldl_cons, put, if_neg fresh, ih]
    · rw [List.append_assoc, List.singleton_append]
    · rwa [List.append_assoc, List.singleton_append]

theorem encodeEntry_append (key : String) (value : Json) (tail : List Char) :
    encodeEntry (key, value) ++ tail =
      '"' :: (key.toList.flatMap escape ++ '"' :: (':' :: ' ' :: (value.encode ++ tail))) := by
  simp [encodeEntry, quote]

theorem scanObject_last {fuel : ℕ} {key : String} {value : Json} {tail : List Char}
    (scanned : scanOnce fuel (value.encode ++ '}' :: tail) = some (value, '}' :: tail)) :
    scanObject (fuel + 1) (encodeEntry (key, value) ++ '}' :: tail) = some ([(key, value)], tail) := by
  rw [encodeEntry_append]
  unfold scanObject
  simp only [scanString_quote, skip_cons (c := ':') rfl, skip_space, skip_encode, scanned, skip_cons (c := '}') rfl]

theorem scanObject_next {fuel : ℕ} {key : String} {value : Json} {tail : List Char}
    (scanned : scanOnce fuel (value.encode ++ ',' :: tail) = some (value, ',' :: tail)) :
    scanObject (fuel + 1) (encodeEntry (key, value) ++ ',' :: tail) =
      (scanObject fuel (skip tail)).map fun scanned => ((key, value) :: scanned.1, scanned.2) := by
  rw [encodeEntry_append]
  conv_lhs => unfold scanObject
  simp only [scanString_quote, skip_cons (c := ':') rfl, skip_space, skip_encode, scanned, skip_cons (c := ',') rfl]

theorem length_encodeEntry (entry : String × Json) : entry.2.encode.length + 2 ≤ (encodeEntry entry).length := by
  obtain ⟨key, value⟩ := entry
  have length := congrArg List.length (encodeEntry_append key value [])
  simp only [List.append_nil, List.length_cons, List.length_append] at length
  change value.encode.length + 2 ≤ _
  omega

theorem delimited_cons {c : Char} (delimiter : c = ',' ∨ c = '}') (rest : List Char) : Delimited (c :: rest) := by
  intro x member
  cases member
  exact delimiter

/-- The document is read from its text, whatever comes behind. -/
def Reads (document : Json) : Prop :=
  ∀ fuel after, document.encode.length ≤ fuel → Delimited after →
    scanOnce fuel (document.encode ++ after) = some (document, after)

theorem scanObject_encode (after : List Char) {rest : List (String × Json)} : ∀ {entry : String × Json},
    (∀ other ∈ entry :: rest, Reads other.2) → ∀ fuel,
    (encodeEntry entry ++ encodeRest rest).length ≤ fuel →
      scanObject fuel (encodeEntry entry ++ (encodeRest rest ++ after)) = some (entry :: rest, after) := by
  induction rest with
  | nil =>
    intro entry values fuel enough
    have longer := length_encodeEntry entry
    rw [List.length_append] at enough
    obtain ⟨fuel, rfl⟩ := Nat.exists_eq_succ_of_ne_zero (n := fuel) (by omega)
    apply scanObject_last
    apply values entry List.mem_cons_self fuel
    · omega
    · exact delimited_cons (.inr rfl) after
  | cons next rest ih =>
    intro entry values fuel enough
    have longer := length_encodeEntry entry
    have shape : encodeRest (next :: rest) ++ after =
        ',' :: ' ' :: (encodeEntry next ++ (encodeRest rest ++ after)) := by
      simp [encodeRest]
    have length := congrArg List.length (show encodeRest (next :: rest) =
        ',' :: ' ' :: (encodeEntry next ++ encodeRest rest) by
      simp [encodeRest])
    rw [List.length_append] at enough
    rw [List.length_cons, List.length_cons] at length
    obtain ⟨fuel, rfl⟩ := Nat.exists_eq_succ_of_ne_zero (n := fuel) (by omega)
    have scanned : scanOnce fuel (entry.2.encode ++ ',' :: ' ' ::
        (encodeEntry next ++ (encodeRest rest ++ after))) = _ :=
      values entry List.mem_cons_self fuel _ (by omega) (delimited_cons (.inl rfl) _)
    have opened : skip (encodeEntry next ++ (encodeRest rest ++ after)) =
        encodeEntry next ++ (encodeRest rest ++ after) := by
      obtain ⟨key, value⟩ := next
      rw [encodeEntry_append]
      exact skip_cons rfl _
    have later := ih (fun other member => values other (List.mem_cons_of_mem _ member)) fuel (by omega)
    rw [shape]
    rw [scanObject_next scanned, skip_space, opened, later]
    rfl

theorem reads_of_wellFormed {document : Json} (wellFormed : document.WellFormed) : Reads document := by
  induction wellFormed with
  | null =>
    intro fuel after enough delimited
    obtain ⟨fuel, rfl⟩ := Nat.exists_eq_succ_of_ne_zero
      (Nat.pos_iff_ne_zero.1 (Nat.lt_of_lt_of_le (by decide) enough))
    rfl
  | bool value =>
    intro fuel after enough delimited
    cases value with
    | false =>
      obtain ⟨fuel, rfl⟩ := Nat.exists_eq_succ_of_ne_zero
        (Nat.pos_iff_ne_zero.1 (Nat.lt_of_lt_of_le (by decide) enough))
      rfl
    | true =>
      obtain ⟨fuel, rfl⟩ := Nat.exists_eq_succ_of_ne_zero
        (Nat.pos_iff_ne_zero.1 (Nat.lt_of_lt_of_le (by decide) enough))
      rfl
  | int n =>
    intro fuel after enough delimited
    obtain ⟨c, text, same, _⟩ := printInt_cons n
    have enough : (printInt n).length ≤ fuel := enough
    rw [same, List.length_cons] at enough
    obtain ⟨fuel, rfl⟩ := Nat.exists_eq_succ_of_ne_zero (n := fuel) (by omega)
    exact scanOnce_printInt fuel n delimited
  | str text =>
    intro fuel after enough delimited
    have enough : (quote text).length ≤ fuel := enough
    have opened : quote text ++ after = '"' :: (text.toList.flatMap escape ++ '"' :: after) := by simp [quote]
    have longer := congrArg List.length (show quote text = '"' :: (text.toList.flatMap escape ++ ['"']) from rfl)
    rw [List.length_cons] at longer
    obtain ⟨fuel, rfl⟩ := Nat.exists_eq_succ_of_ne_zero (n := fuel) (by omega)
    change scanOnce (fuel + 1) (quote text ++ after) = _
    rw [opened]
    unfold scanOnce
    simp only [scanString_quote]
    rfl
  | obj fields distinct values ih =>
    intro fuel after enough delimited
    cases fields with
    | nil =>
      obtain ⟨fuel, rfl⟩ := Nat.exists_eq_succ_of_ne_zero
        (Nat.pos_iff_ne_zero.1 (Nat.lt_of_lt_of_le (by decide) enough))
      rfl
    | cons entry rest =>
      have shape : (Json.obj (entry :: rest)).encode = '{' :: (encodeEntry entry ++ encodeRest rest) := by
        simp [encode]
      rw [shape, List.length_cons] at enough
      obtain ⟨fuel, rfl⟩ := Nat.exists_eq_succ_of_ne_zero (n := fuel) (by omega)
      have scanned := scanObject_encode after ih fuel (by omega)
      have quoted : ∃ text, encodeEntry entry ++ (encodeRest rest ++ after) = '"' :: text :=
        ⟨_, encodeEntry_append ..⟩
      obtain ⟨text, quoted⟩ := quoted
      rw [shape, List.cons_append, List.append_assoc]
      rw [quoted] at scanned ⊢
      unfold scanOnce
      simp only [skip_cons (c := '"') rfl]
      change (scanObject fuel ('"' :: text)).map _ = _
      rw [scanned, Option.map_some, foldl_put (by simpa using distinct)]
      rfl

/-- A document without repeated keys is read back from its text. -/
theorem loads_dumps {document : Json} (wellFormed : document.WellFormed) :
    loads (dumps document) = some document := by
  have read := reads_of_wellFormed wellFormed (document.encode.length + 1) [] (Nat.le_succ _) nofun
  have whole := skip_encode document []
  rw [List.append_nil] at read whole
  unfold loads dumps
  rw [String.toList_ofList, whole, read]
  rfl

end LedgerFlow.Json
