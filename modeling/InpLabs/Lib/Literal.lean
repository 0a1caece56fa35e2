/-
  File:      InpLabs/Lib/Literal.lean
  Subject:   Decimal integer literals, and what `std::stoi` makes of a string that begins with one.

  * `Literal`: an optional sign and digits, with their value; of any length;
  * `NumericPrefix`: a string as a literal, all its digits, and what follows;
  * `stoi_of_numeric`, `stoi_none`: `stoi` reads the prefix, checks its range, drops what follows;
    `stoi_cases`: the three outcomes;
    without a prefix there is no conversion.
-/
import InpLabs.Lib.Cxx

namespace InpLabs.Lib

/-- `t` is an optional sign and at least one digit, and stands for `n`. -/
def Literal (t : Bytes) (n : Int) : Prop :=
  ∃ ds : Bytes, ds ≠ [] ∧ (∀ d ∈ ds, isdigit d = true) ∧
    ((t = ds ∧ n = decimal ds) ∨ (t = 43 :: ds ∧ n = decimal ds) ∨ (t = 45 :: ds ∧ n = -decimal ds))

/-- `t` begins with a literal for `n`, and `rest` follows its last digit. -/
def NumericPrefix (t : Bytes) (n : Int) (rest : Bytes) : Prop :=
  ∃ l, t = l ++ rest ∧ Literal l n ∧ ∀ c, rest.head? = some c → isdigit c = false

/-- The value of digits behind a sign. -/
def signedValue (neg : Bool) (ds : Bytes) : Int := if neg then -(decimal ds : Int) else decimal ds

/-- The values of an `int`. -/
def InInt (n : Int) : Prop := -2147483648 ≤ n ∧ n ≤ 2147483647

instance (n : Int) : Decidable (InInt n) := inferInstanceAs (Decidable (_ ∧ _))

section Literals

variable {t ds rest : Bytes} {n : Int}

/-- A whole literal is a prefix that nothing follows. -/
theorem literal_iff : Literal t n ↔ NumericPrefix t n [] := by
  constructor
  · exact fun h => ⟨t, (List.append_nil t).symm, h, fun _ hc => by cases hc⟩
  · rintro ⟨l, rfl, h, -⟩
    rwa [List.append_nil]

theorem takeWhile_digits (hds : ∀ d ∈ ds, isdigit d = true)
    (hrest : ∀ c, rest.head? = some c → isdigit c = false) :
    (ds ++ rest).takeWhile isdigit = ds := by
  rw [List.takeWhile_append_of_pos hds]
  cases rest with
  | nil => rw [List.takeWhile_nil, List.append_nil]
  | cons c rest =>
    have hc : ¬ isdigit c = true := by simp [hrest c rfl]
    rw [List.takeWhile_cons_of_neg hc, List.append_nil]

/-- A digit is no white space and no sign. -/
theorem digit_ne {d : UInt8} (h : isdigit d = true) : isspace d = false ∧ d ≠ 43 ∧ d ≠ 45 := by
  simp only [isdigit, Bool.and_eq_true, decide_eq_true_eq, UInt8.le_iff_toNat_le] at h
  simp only [isspace, Bool.or_eq_false_iff, beq_eq_false_iff_ne, Bool.and_eq_false_iff,
    decide_eq_false_iff_not, UInt8.le_iff_toNat_le, ne_eq, UInt8.ext_iff]
  have h9 : (48 : UInt8).toNat = 48 ∧ (57 : UInt8).toNat = 57 ∧ (32 : UInt8).toNat = 32 ∧
      (9 : UInt8).toNat = 9 ∧ (13 : UInt8).toNat = 13 ∧ (43 : UInt8).toNat = 43 ∧
      (45 : UInt8).toNat = 45 := by decide
  omega

/-- What `stoi` reads of a string whose sign has been taken off. -/
theorem stoi_signed {s u : Bytes} {neg : Bool} (hs : sign (s.dropWhile isspace) = (neg, u)) :
    stoi s = if u.takeWhile isdigit = [] then .error .invalidArgument
      else if InInt (signedValue neg (u.takeWhile isdigit)) then
        .ok (signedValue neg (u.takeWhile isdigit))
      else .error .outOfRange := by
  have hunfold : stoi s = if u.takeWhile isdigit = [] then .error .invalidArgument
      else if signedValue neg (u.takeWhile isdigit) < -2147483648 ∨
          2147483647 < signedValue neg (u.takeWhile isdigit) then .error .outOfRange
        else .ok (signedValue neg (u.takeWhile isdigit)) := by
    unfold stoi
    rw [hs]
    rfl
  rw [hunfold]
  congr 1
  by_cases hint : InInt (signedValue neg (u.takeWhile isdigit))
  · rw [if_pos hint, if_neg]
    unfold InInt at hint
    omega
  · rw [if_neg hint, if_pos]
    unfold InInt at hint
    omega

/-- The sign of a string that begins with a digit, or with a sign. -/
theorem sign_of_digit {d : UInt8} (h : isdigit d = true) : sign (d :: t) = (false, d :: t) := by
  obtain ⟨-, h43, h45⟩ := digit_ne h
  unfold sign
  split
  · rename_i heq
    cases heq
    exact absurd rfl h45
  · rename_i heq
    cases heq
    exact absurd rfl h43
  · rfl

/-- The sign and the digits of a prefix, as `stoi` finds them. -/
theorem NumericPrefix.parts (h : NumericPrefix t n rest) : ∃ (neg : Bool) (ds : Bytes), ds ≠ [] ∧
    sign (t.dropWhile isspace) = (neg, ds ++ rest) ∧ (ds ++ rest).takeWhile isdigit = ds ∧
    n = signedValue neg ds := by
  obtain ⟨l, rfl, ⟨ds, hne, hds, hl⟩, hrest⟩ := h
  have htake := takeWhile_digits hds hrest
  rcases hl with ⟨rfl, rfl⟩ | ⟨rfl, rfl⟩ | ⟨rfl, rfl⟩
  · refine ⟨false, l, hne, ?_, htake, rfl⟩
    obtain ⟨d, ds', rfl⟩ := List.exists_cons_of_ne_nil hne
    have hd := hds d List.mem_cons_self
    have hspace : ¬ isspace d = true := by simp [(digit_ne hd).1]
    rw [List.cons_append, List.dropWhile_cons_of_neg hspace]
    exact sign_of_digit hd
  · refine ⟨false, ds, hne, ?_, htake, rfl⟩
    rw [List.cons_append, List.dropWhile_cons_of_neg (by decide)]
    rfl
  · refine ⟨true, ds, hne, ?_, htake, rfl⟩
    rw [List.cons_append, List.dropWhile_cons_of_neg (by decide)]
    rfl

/-- A string begins with one number at most, as far as its digits go. -/
theorem NumericPrefix.unique {m : Int} {rest' : Bytes} (h : NumericPrefix t n rest)
    (h' : NumericPrefix t m rest') : n = m ∧ rest = rest' := by
  obtain ⟨neg, ds, -, hsign, htake, rfl⟩ := h.parts
  obtain ⟨neg', ds', -, hsign', htake', rfl⟩ := h'.parts
  rw [hsign, Prod.mk.injEq] at hsign'
  obtain ⟨rfl, heq⟩ := hsign'
  obtain rfl : ds = ds' := by rw [← htake, ← htake', heq]
  exact ⟨rfl, List.append_cancel_left heq⟩

/-- **A string that begins with a literal**: `stoi` returns its value, if it is one of an `int`. -/
theorem stoi_of_numeric (h : NumericPrefix t n rest) :
    stoi t = if InInt n then .ok n else .error .outOfRange := by
  obtain ⟨neg, ds, hne, hsign, htake, rfl⟩ := h.parts
  rw [stoi_signed hsign, htake, if_neg hne]

/-- **A string without white space that begins with no literal**: no conversion. -/
theorem stoi_none (hspace : ∀ c ∈ t, isspace c = false) (h : ∀ n rest, ¬ NumericPrefix t n rest) :
    stoi t = .error .invalidArgument := by
  have hdrop : t.dropWhile isspace = t := by
    cases t with
    | nil => rfl
    | cons c t =>
      rw [List.dropWhile_cons_of_neg]
      rw [hspace c List.mem_cons_self]
      exact Bool.false_ne_true
  obtain ⟨neg, u, hsign⟩ : ∃ neg u, sign (t.dropWhile isspace) = (neg, u) := ⟨_, _, rfl⟩
  rw [stoi_signed hsign]
  refine if_pos ?_
  by_contra hne
  -- the digits that follow the sign would be a prefix
  have hdigits : ∀ d ∈ u.takeWhile isdigit, isdigit d = true := fun d hd =>
    List.mem_takeWhile_imp hd
  have hrest : ∀ c, (u.dropWhile isdigit).head? = some c → isdigit c = false := by
    intro c hc
    have hhead := List.head?_dropWhile_not isdigit u
    rw [hc] at hhead
    simpa using hhead
  have hu := (List.takeWhile_append_dropWhile (p := isdigit) (l := u)).symm
  rw [hdrop] at hsign
  unfold sign at hsign
  split at hsign
  · cases hsign
    exact h _ _ ⟨45 :: u.takeWhile isdigit, congrArg (45 :: ·) hu,
      ⟨_, hne, hdigits, .inr (.inr ⟨rfl, rfl⟩)⟩, hrest⟩
  · cases hsign
    exact h _ _ ⟨43 :: u.takeWhile isdigit, congrArg (43 :: ·) hu,
      ⟨_, hne, hdigits, .inr (.inl ⟨rfl, rfl⟩)⟩, hrest⟩
  · cases hsign
    exact h _ _ ⟨_, hu, ⟨_, hne, hdigits, .inl ⟨rfl, rfl⟩⟩, hrest⟩

/-- A literal that begins with a literal is nothing more. -/
theorem NumericPrefix.of_literal {m : Int} (h : NumericPrefix t n rest) (hm : Literal t m) :
    n = m ∧ rest = [] := h.unique (literal_iff.mp hm)

/-- What `stoi` does with a string without white space. -/
theorem stoi_cases (hspace : ∀ c ∈ t, isspace c = false) :
    (∃ n rest, NumericPrefix t n rest ∧ InInt n ∧ stoi t = .ok n) ∨
    (∃ n rest, NumericPrefix t n rest ∧ ¬ InInt n ∧ stoi t = .error .outOfRange) ∨
    ((∀ n rest, ¬ NumericPrefix t n rest) ∧ stoi t = .error .invalidArgument) := by
  by_cases hpre : ∃ n rest, NumericPrefix t n rest
  · obtain ⟨n, rest, hpre⟩ := hpre
    have hread := stoi_of_numeric hpre
    by_cases hint : InInt n
    · exact .inl ⟨n, rest, hpre, hint, by rw [hread, if_pos hint]⟩
    · exact .inr (.inl ⟨n, rest, hpre, hint, by rw [hread, if_neg hint]⟩)
  · have hno : ∀ n rest, ¬ NumericPrefix t n rest := fun n rest h => hpre ⟨n, rest, h⟩
    exact .inr (.inr ⟨hno, stoi_none hspace hno⟩)

end Literals

end InpLabs.Lib
