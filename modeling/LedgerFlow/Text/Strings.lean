import LedgerFlow.Text.Uuid

/-! Texts in Python and in PostgreSQL: `repr`, and what a `varchar(n)` column keeps. -/

namespace LedgerFlow

/-- `repr(text)`; `isprintable` is `str.isprintable` of one character. -/
def pyRepr (isprintable : Char → Bool) (text : String) : String :=
  let quote := if '\'' ∈ text.toList ∧ '"' ∉ text.toList then '"' else '\''
  let escape (c : Char) : List Char :=
    if c = quote ∨ c = '\\' then ['\\', c]
    else if c = '\t' then ['\\', 't']
    else if c = '\n' then ['\\', 'n']
    else if c = '\r' then ['\\', 'r']
    else if isprintable c then [c]
    else if c.toNat < 256 then '\\' :: 'x' :: UUID.hexDigits 2 c.toNat
    else if c.toNat < 65536 then '\\' :: 'u' :: UUID.hexDigits 4 c.toNat
    else '\\' :: 'U' :: UUID.hexDigits 8 c.toNat
  String.ofList (quote :: text.toList.flatMap escape ++ [quote])

/-- Excess characters are refused unless all of them are blanks, which are cut off; NUL is refused anywhere. -/
def varchar (n : ℕ) (text : String) : Option String :=
  if '\x00' ∈ text.toList ∨ (text.toList.drop n).any (· ≠ ' ') then none
  else some (String.ofList (text.toList.take n))

variable {n : ℕ} {text kept : String}

theorem varchar_cases (stored : varchar n text = some kept) :
    '\x00' ∉ text.toList ∧ (∀ c ∈ text.toList.drop n, c = ' ') ∧ kept.toList = text.toList.take n := by
  unfold varchar at stored
  split_ifs at stored with refused
  cases stored
  simp only [not_or, Bool.not_eq_true, List.any_eq_false, decide_eq_true_eq, ne_eq, not_not] at refused
  exact ⟨refused.1, refused.2, String.toList_ofList⟩

theorem varchar_of_length_le (clean : '\x00' ∉ text.toList) (short : text.length ≤ n) :
    varchar n text = some text := by
  have all : text.toList.length ≤ n := by
    rwa [String.length_toList]
  unfold varchar
  rw [List.drop_of_length_le all, List.take_of_length_le all, if_neg, String.ofList_toList]
  rintro (nul | excess)
  · exact clean nul
  · cases excess

theorem varchar_eq_self (short : text.length ≤ n) (stored : varchar n text = some kept) : kept = text := by
  rw [varchar_of_length_le (varchar_cases stored).1 short, Option.some.injEq] at stored
  exact stored.symm

theorem length_varchar_le (stored : varchar n text = some kept) : kept.length ≤ n := by
  obtain ⟨_, _, same⟩ := varchar_cases stored
  rw [← String.length_toList, same]
  exact List.length_take_le ..

theorem varchar_varchar (stored : varchar n text = some kept) : varchar n kept = some kept := by
  obtain ⟨clean, _, same⟩ := varchar_cases stored
  apply varchar_of_length_le _ (length_varchar_le stored)
  intro nul
  rw [same] at nul
  exact clean (List.mem_of_mem_take nul)

example : varchar 3 "INR " = some "INR" := by decide +kernel

example : pyRepr (fun c => 32 ≤ c.toNat) "it's" = "\"it's\"" := by decide +kernel

end LedgerFlow
