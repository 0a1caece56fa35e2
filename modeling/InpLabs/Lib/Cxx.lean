/-
  File:      InpLabs/Lib/Cxx.lean
  Subject:   The pieces of the C and C++ standard libraries that the programs use on strings.

  A `std::string` is its list of bytes. Character classes are those of the "C" locale; the UTF-8
  locale that the web servers ask for has the same ones for single bytes.

  * `tokenize`: `std::istream_iterator<std::string>` run over a string stream to its end;
  * `stoi`: `std::stoi` in base 10, with its two exceptions;
  * `lt`: `operator<` on strings, which compares bytes as unsigned numbers;
  * `cString`: a string that ends at its terminator.
-/
import InpLabs.Lib.Substring

namespace InpLabs.Lib

/-- A `std::string`. -/
abbrev Bytes := List UInt8

/-- The bytes of an ASCII literal. -/
def ascii (s : String) : Bytes := s.toList.map Char.toUInt8

/-! ## 1. Character classes -/

def isspace (c : UInt8) : Bool := c == 32 || (9 ≤ c && c ≤ 13)

/-- A text without white space. -/
theorem isspace_of_all {w : Bytes} (h : w.all (!isspace ·) = true) :
    ∀ c ∈ w, isspace c = false := by
  simpa using h

def isdigit (c : UInt8) : Bool := 48 ≤ c && c ≤ 57

def tolower (c : UInt8) : UInt8 := if 65 ≤ c && c ≤ 90 then c + 32 else c

/-! ## 2. Tokens -/

/-- The whitespace-separated words of a line. -/
def tokenize (line : Bytes) : List Bytes := words isspace line

theorem ne_nil_of_mem_tokenize {line w : Bytes} (h : w ∈ tokenize line) : w ≠ [] :=
  ne_nil_of_mem_words h

/-! ## 3. Numbers -/

/-- The exceptions of `std::stoi`. -/
inductive StoiError where
  | invalidArgument
  | outOfRange
  deriving DecidableEq, Repr

/-- The value of a string of decimal digits. -/
def decimal (ds : Bytes) : Nat := ds.foldl (fun n d => 10 * n + (d.toNat - 48)) 0

/-- The optional sign `strtol` accepts: whether the number is negative, and what follows. -/
def sign : Bytes → Bool × Bytes
  | 45 :: s => (true, s)
  | 43 :: s => (false, s)
  | s => (false, s)

/-- `std::stoi(s)`: the longest numeric prefix counts, what follows it is ignored. -/
def stoi (s : Bytes) : Except StoiError Int :=
  let (neg, t) := sign (s.dropWhile isspace)
  let ds := t.takeWhile isdigit
  if ds = [] then .error .invalidArgument
  else
    let n : Int := if neg then -decimal ds else decimal ds
    if n < -2147483648 ∨ 2147483647 < n then .error .outOfRange else .ok n

/-- `std::to_string(int)`. -/
def toStringInt (n : Int) : Bytes := ascii (toString n)

theorem isdigit_of_isDigit {c : Char} (h : c.isDigit) : isdigit c.toUInt8 = true := by
  have hc : 48 ≤ c.val.toNat ∧ c.val.toNat ≤ 57 := by
    simp only [Char.isDigit, Bool.and_eq_true, decide_eq_true_eq, UInt32.le_iff_toNat_le] at h
    exact h
  have hlt : c.val.toNat < 256 := by omega
  simp only [isdigit, Bool.and_eq_true, decide_eq_true_eq, UInt8.le_iff_toNat_le, Char.toUInt8,
    UInt32.toNat_toUInt8, Nat.mod_eq_of_lt hlt]
  exact hc

/-- A natural number is printed with digits. -/
theorem isdigit_of_mem_repr {k : Nat} {b : UInt8} (h : b ∈ ascii k.repr) : isdigit b = true := by
  obtain ⟨c, hc, rfl⟩ := List.mem_map.mp h
  rw [Nat.toList_repr] at hc
  exact isdigit_of_isDigit (Nat.isDigit_of_mem_toDigits (by decide) (by decide) hc)

/-- A number is printed with digits and a sign. -/
theorem toStringInt_bytes {n : Int} {b : UInt8} (h : b ∈ toStringInt n) :
    b = 45 ∨ isdigit b = true := by
  cases n with
  | ofNat k => exact .inr (isdigit_of_mem_repr h)
  | negSucc k =>
    have hsign : toStringInt (Int.negSucc k) = 45 :: ascii (k + 1).repr := by
      show ascii ("-" ++ (k + 1).repr) = _
      rw [ascii, String.toList_append]
      rfl
    rw [hsign] at h
    exact (List.mem_cons.mp h).imp_right isdigit_of_mem_repr

/-! ## 4. Order -/

/-- `operator<` on strings. -/
def lt : Bytes → Bytes → Bool
  | _, [] => false
  | [], _ :: _ => true
  | a :: s, b :: t => a < b || (a == b && lt s t)

/-- It is the lexicographic order. -/
theorem lt_iff {s t : Bytes} : lt s t = true ↔ s < t := by
  induction s generalizing t with
  | nil => cases t <;> simp [lt]
  | cons a s ih =>
    cases t with
    | nil => simp [lt]
    | cons b t => simp [lt, ih, List.cons_lt_cons_iff]

theorem lt_eq_false {s t : Bytes} : lt s t = false ↔ t ≤ s := by
  rw [← Bool.not_eq_true, lt_iff, Std.not_lt]

/-! ## 5. Strings in memory -/

/-- What a `char *` to these bytes points at, of which `strlen` is the length. -/
def cString (memory : Bytes) : Bytes := memory.takeWhile (· != 0)

/-- What stands behind a terminator plays no part. -/
theorem cString_terminated {text memory : Bytes} (h : text ++ [0] <+: memory) :
    cString memory = cString text := by
  obtain ⟨rest, rfl⟩ := h
  unfold cString
  rw [List.append_assoc, List.singleton_append]
  exact takeWhile_append_cons (by decide) text rest

end InpLabs.Lib
