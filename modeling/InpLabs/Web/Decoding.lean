/-
  File:      InpLabs/Web/Decoding.lean
  Subject:   **URL decoding undoes percent-encoding and never grows** (homework1: utils.c,
             utils_https.c, `urlDecode`).

  * `urlDecodeFrom`, `urlDecodeInto`: the loop over the two arrays, by their indices; `none` is an
    access outside of an array;
  * `urlDecodeFrom_eq`: it leaves in the destination what `urlDecode` makes of the string;
  * `Encoding`: the encodings of a string; `urlDecode_encoding`: every one is undone;
  * `urlDecode_append`: no escape goes across a byte that is no hexadecimal digit;
  * `urlDecode_malformed`: so what follows a malformed escape is copied;
  * `urlDecode_lossless`: the law, for every input.
-/
import InpLabs.Web.Encoded

namespace InpLabs.Web

open InpLabs.Lib

/-! ## 1. The loop -/

/-- `decoded[pos] = c`. -/
def store (decoded : Bytes) (pos : Nat) (c : UInt8) : Option Bytes :=
  if pos < decoded.length then some (decoded.set pos c) else none

/-- The test `url[i] == '%' && i + 2 < len && isxdigit(url[i + 1]) && isxdigit(url[i + 2])`, and the
value of the two digits. The bytes from 128 on count as no digits, as in the table of glibc. -/
def escapeAt (url : Bytes) (len i : Nat) : Option UInt8 :=
  if url[i]? = some 37 ∧ i + 2 < len then
    match url[i + 1]?, url[i + 2]? with
    | some a, some b =>
      if isxdigit a && isxdigit b then some (16 * hexValue a + hexValue b) else none
    | _, _ => none
  else none

/-- What is stored for a character that is not decoded. -/
def Program.literal : Program → UInt8 → UInt8
  | .plain => fun c => if c = 43 then 32 else c
  | .https => id

/-- The loop of `urlDecode` from `i` on, and the terminator behind it. -/
def Program.urlDecodeFrom (p : Program) (url : Bytes) (len i decodedPos : Nat) (decoded : Bytes) :
    Option Bytes :=
  if i < len then
    match escapeAt url len i with
    | some value => do
      let decoded ← store decoded decodedPos value
      p.urlDecodeFrom url len (i + 3) (decodedPos + 1) decoded
    | none => do
      let c ← url[i]?
      let decoded ← store decoded decodedPos (p.literal c)
      p.urlDecodeFrom url len (i + 1) (decodedPos + 1) decoded
  else store decoded decodedPos 0
termination_by len - i

/-- `urlDecode(url, decoded)`: what it leaves in the array `decoded`. -/
def Program.urlDecodeInto (p : Program) (url decoded : Bytes) : Option Bytes :=
  p.urlDecodeFrom url (cString url).length 0 0 decoded

section Loop

variable {p : Program} {url decoded done todo s : Bytes} {i : Nat} {c : UInt8}

theorem urlDecode_eq (p : Program) (url : Bytes) : p.urlDecode url = decodeLoop p.literal url := by
  cases p <;> rfl

theorem store_append (h : todo ≠ []) :
    store (done ++ todo) done.length c = some (done ++ [c] ++ todo.tail) := by
  obtain ⟨t, rest, rfl⟩ := List.exists_cons_of_ne_nil h
  have hlen : done.length < (done ++ t :: rest).length := by
    rw [List.length_append, List.length_cons]
    omega
  rw [store, if_pos hlen, List.set_append_right _ _ (le_refl _)]
  simp

/-- What stands in the string stands in the array. -/
theorem getElem?_of_drop (h : (cString url).drop i = c :: s) :
    url[i]? = some c ∧ i < (cString url).length ∧ (cString url).drop (i + 1) = s := by
  have hlt : i < (cString url).length := by
    by_contra hge
    rw [List.drop_eq_nil_of_le (Nat.le_of_not_lt hge)] at h
    cases h
  have hcons := List.drop_eq_getElem_cons hlt
  rw [h] at hcons
  obtain ⟨hc, hs⟩ := List.cons.inj hcons
  obtain ⟨rest, hrest⟩ : cString url <+: url := List.takeWhile_prefix _
  refine ⟨?_, hlt, hs.symm⟩
  conv_lhs => rw [← hrest]
  rw [List.getElem?_append_left hlt, List.getElem?_eq_getElem hlt, hc]

/-- An escape in the string is seen. -/
theorem escapeAt_of_escape {a b : UInt8} (h : (cString url).drop i = 37 :: a :: b :: s) :
    escapeAt url (cString url).length i =
      if isxdigit a && isxdigit b then some (16 * hexValue a + hexValue b) else none := by
  obtain ⟨h0, -, h⟩ := getElem?_of_drop h
  obtain ⟨h1, -, h⟩ := getElem?_of_drop h
  obtain ⟨h2, hlt, -⟩ := getElem?_of_drop h
  rw [escapeAt, if_pos ⟨h0, hlt⟩, h1, h2]

/-- Where none begins, none is seen. -/
theorem escapeAt_of_literal (h : (cString url).drop i = c :: s) (hno : c = 37 → Malformed s) :
    escapeAt url (cString url).length i = none := by
  by_cases hescape : ∃ a b t, c = 37 ∧ s = a :: b :: t
  · obtain ⟨a, b, t, rfl, rfl⟩ := hescape
    exact (escapeAt_of_escape h).trans (if_neg (Bool.not_eq_true _ ▸ hno rfl a b t rfl))
  · obtain ⟨h0, -, hs⟩ := getElem?_of_drop h
    refine if_neg fun ⟨hc, hlt⟩ => hescape ?_
    have hlen := congrArg List.length hs
    rw [List.length_drop] at hlen
    match s, hlen with
    | [], hlen => rw [List.length_nil] at hlen; omega
    | [_], hlen => rw [List.length_singleton] at hlen; omega
    | a :: b :: t, _ => exact ⟨a, b, t, Option.some.inj (h0.symm.trans hc), rfl⟩

/-- The string that is decoded is never longer than the one it is decoded from. -/
theorem decodeLoop_length (other : UInt8 → UInt8) (url : Bytes) :
    (decodeLoop other url).length ≤ url.length := by
  induction url using decode_induction with
  | nil => exact le_refl 0
  | escape a b url h ih =>
    rw [decodeLoop_escape h]
    simp only [List.length_cons]
    omega
  | literal c url h ih =>
    rw [decodeLoop_literal h]
    exact Nat.succ_le_succ ih

/-- One pass of the loop: an escape. -/
theorem urlDecodeFrom_escape (hlt : i < (cString url).length)
    (hat : escapeAt url (cString url).length i = some c) (htodo : todo ≠ []) :
    p.urlDecodeFrom url (cString url).length i done.length (done ++ todo) =
      p.urlDecodeFrom url (cString url).length (i + 3) (done ++ [c]).length
        (done ++ [c] ++ todo.tail) := by
  rw [Program.urlDecodeFrom, if_pos hlt, hat]
  dsimp only
  rw [store_append htodo, Option.bind_eq_bind, Option.bind_some, List.length_append]
  rfl

/-- One pass of the loop: any other character. -/
theorem urlDecodeFrom_literal (h : (cString url).drop i = c :: s)
    (hat : escapeAt url (cString url).length i = none) (htodo : todo ≠ []) :
    p.urlDecodeFrom url (cString url).length i done.length (done ++ todo) =
      p.urlDecodeFrom url (cString url).length (i + 1) (done ++ [p.literal c]).length
        (done ++ [p.literal c] ++ todo.tail) := by
  obtain ⟨hc, hlt, -⟩ := getElem?_of_drop h
  rw [Program.urlDecodeFrom, if_pos hlt, hat]
  dsimp only
  rw [hc, Option.bind_eq_bind, Option.bind_some, store_append htodo, Option.bind_eq_bind,
    Option.bind_some, List.length_append]
  rfl

/-- Where there is room for a string and its terminator, there is room for what follows a byte. -/
theorem room_tail (h : (c :: s).length < todo.length) :
    todo ≠ [] ∧ s.length < todo.tail.length := by
  rw [List.length_cons] at h
  rw [List.length_tail]
  exact ⟨List.ne_nil_of_length_pos (Nat.zero_lt_of_lt h), by omega⟩

/-- **The loop**: with room for the rest of the string and the terminator, it appends what the rest
is decoded to, and leaves what stands behind. -/
theorem urlDecodeFrom_eq (hs : (cString url).drop i = s) (hroom : s.length < todo.length) :
    p.urlDecodeFrom url (cString url).length i done.length (done ++ todo) =
      some (done ++ decodeLoop p.literal s ++
        0 :: todo.drop ((decodeLoop p.literal s).length + 1)) := by
  induction s using decode_induction generalizing i done todo with
  | nil =>
    have hend : ¬ i < (cString url).length := Nat.not_lt.mpr (List.drop_eq_nil_iff.mp hs)
    have htodo : todo ≠ [] := List.ne_nil_of_length_pos hroom
    rw [Program.urlDecodeFrom, if_neg hend, store_append htodo, decodeLoop]
    simp
  | escape a b s h ih =>
    have hat := (escapeAt_of_escape hs).trans (if_pos h)
    have hlt := (getElem?_of_drop hs).2.1
    have hnext : (cString url).drop (i + 3) = s := by
      rw [← List.drop_drop, hs]
      rfl
    obtain ⟨htodo, hroom'⟩ := room_tail hroom
    have hrest : s.length < todo.tail.length :=
      (Nat.lt_add_of_pos_right Nat.zero_lt_two).trans hroom'
    rw [urlDecodeFrom_escape hlt hat htodo, ih hnext hrest, decodeLoop_escape h]
    simp
  | literal c s h ih =>
    have hat := escapeAt_of_literal hs h
    obtain ⟨htodo, hroom'⟩ := room_tail hroom
    rw [urlDecodeFrom_literal hs hat htodo, ih (getElem?_of_drop hs).2.2 hroom',
      decodeLoop_literal h]
    simp

end Loop

/-! ## 2. Encodings -/

/-- The ways to write the hexadecimal digit of a number below 16. -/
def hexDigits (n : Nat) : Bytes :=
  [(ascii "0123456789abcdef").getD n 0, (ascii "0123456789ABCDEF").getD n 0]

/-- `e` is an encoding of `s` for this program: every byte is escaped, or stands for itself if it is
no percent sign. Where the plus sign stands for a space, it does not stand for itself. -/
inductive Program.Encoding (p : Program) : Bytes → Bytes → Prop where
  | nil : p.Encoding [] []
  | literal {c : UInt8} {s e : Bytes} (hpercent : c ≠ 37) (hplus : p = .plain → c ≠ 43)
      (h : p.Encoding s e) : p.Encoding (c :: s) (c :: e)
  | escape {c a b : UInt8} {s e : Bytes} (ha : a ∈ hexDigits (c.toNat / 16))
      (hb : b ∈ hexDigits (c.toNat % 16)) (h : p.Encoding s e) :
      p.Encoding (c :: s) (37 :: a :: b :: e)
  | plus {s e : Bytes} (hplain : p = .plain) (h : p.Encoding s e) : p.Encoding (32 :: s) (43 :: e)

section Encodings

variable {p : Program} {s e x t : Bytes} {a b c : UInt8}

/-- A digit is recognised, in either case. -/
theorem hexDigits_read (n : Fin 16) :
    ∀ a ∈ hexDigits n, isxdigit a = true ∧ hexValue a = UInt8.ofNat n := by
  have hall : ∀ n : Fin 16,
      ((hexDigits n).all fun a => isxdigit a && hexValue a == UInt8.ofNat n) = true := by decide
  intro a ha
  have hdigit := List.all_eq_true.mp (hall n) a ha
  rwa [Bool.and_eq_true, beq_iff_eq] at hdigit

/-- The two digits of a byte. -/
theorem hexDigits_value (ha : a ∈ hexDigits (c.toNat / 16)) (hb : b ∈ hexDigits (c.toNat % 16)) :
    (isxdigit a && isxdigit b) = true ∧ 16 * hexValue a + hexValue b = c := by
  have hhigh : c.toNat / 16 < 16 := by
    have hc := c.toNat_lt
    omega
  obtain ⟨hxa, hva⟩ := hexDigits_read ⟨c.toNat / 16, hhigh⟩ a ha
  obtain ⟨hxb, hvb⟩ := hexDigits_read ⟨c.toNat % 16, Nat.mod_lt _ (by decide)⟩ b hb
  refine ⟨by rw [hxa, hxb, Bool.and_self], ?_⟩
  rw [hva, hvb]
  apply UInt8.toNat_inj.mp
  have hc := c.toNat_lt
  simp only [UInt8.toNat_add, UInt8.toNat_mul, UInt8.toNat_ofNat']
  have hsixteen : (16 : UInt8).toNat = 16 := rfl
  rw [hsixteen]
  omega

/-- **Every encoding is undone.** -/
theorem urlDecode_encoding (h : p.Encoding s e) : p.urlDecode e = s := by
  rw [urlDecode_eq]
  induction h with
  | nil => rfl
  | @literal c s e hpercent hplus h ih =>
    have hc : p.literal c = c := by
      cases p with
      | plain => exact if_neg (hplus rfl)
      | https => rfl
    rw [decodeLoop_cons hpercent, ih, hc]
  | escape ha hb h ih =>
    obtain ⟨hdigits, hvalue⟩ := hexDigits_value ha hb
    rw [decodeLoop, if_pos hdigits, hvalue, ih]
  | plus hplain h ih =>
    subst hplain
    rw [decodeLoop_cons (by decide), ih]
    rfl

/-- No escape goes across a byte that is no digit. -/
theorem urlDecode_append (p : Program) (hc : isxdigit c = false) :
    p.urlDecode (x ++ c :: t) = p.urlDecode x ++ p.urlDecode (c :: t) := by
  simp only [urlDecode_eq]
  induction x using decode_induction with
  | nil => rfl
  | escape a b x h ih =>
    simp only [List.cons_append, decodeLoop_escape h, ih]
  | literal d x h ih =>
    have hlonger : d = 37 → Malformed (x ++ c :: t) := fun hd a b u heq => by
      match x, heq with
      | [], heq =>
        cases heq
        rw [hc, Bool.false_and]
      | [_], heq =>
        cases heq
        rw [hc, Bool.and_false]
      | a' :: b' :: x, heq =>
        cases heq
        exact h hd _ _ _ rfl
    rw [List.cons_append, decodeLoop_literal hlonger, decodeLoop_literal h, ih]
    rfl

/-- Behind a malformed escape everything up to the next percent sign is copied. -/
theorem urlDecode_malformed (p : Program) {w : Bytes} (h : Malformed (w ++ t)) (hw : 37 ∉ w) :
    p.urlDecode (x ++ 37 :: (w ++ t)) =
      p.urlDecode x ++ 37 :: (w.map p.literal ++ p.urlDecode t) := by
  have hpercent : p.literal 37 = 37 := by cases p <;> rfl
  have hrest : ∀ w : Bytes, 37 ∉ w →
      decodeLoop p.literal (w ++ t) = w.map p.literal ++ decodeLoop p.literal t := fun w hw => by
    induction w with
    | nil => rfl
    | cons c w ih =>
      obtain ⟨hc, hw⟩ := List.ne_and_not_mem_of_not_mem_cons hw
      rw [List.cons_append, decodeLoop_cons hc.symm, ih hw]
      rfl
  rw [urlDecode_append p (by decide)]
  simp only [urlDecode_eq]
  rw [decodeLoop_literal fun _ => h, hpercent, hrest w hw]

/-- An encoding is a C string. -/
theorem Program.Encoding.nul_free (h : p.Encoding s e) (hs : (0 : UInt8) ∉ s) :
    (0 : UInt8) ∉ e := by
  induction h with
  | nil => exact hs
  | literal hpercent hplus h ih =>
    obtain ⟨hc, hs⟩ := List.ne_and_not_mem_of_not_mem_cons hs
    exact List.not_mem_cons_of_ne_of_not_mem hc (ih hs)
  | escape ha hb h ih =>
    have hdigits := (hexDigits_value ha hb).1
    rw [Bool.and_eq_true] at hdigits
    exact List.not_mem_cons_of_ne_of_not_mem (by decide) (List.not_mem_cons_of_ne_of_not_mem
      (ne_of_isxdigit hdigits.1) (List.not_mem_cons_of_ne_of_not_mem (ne_of_isxdigit hdigits.2)
        (ih (List.ne_and_not_mem_of_not_mem_cons hs).2)))
  | plus hplain h ih =>
    exact List.not_mem_cons_of_ne_of_not_mem (by decide)
      (ih (List.ne_and_not_mem_of_not_mem_cons hs).2)

end Encodings

/-! ## 3. The law -/

/-- What `urlDecode` of this program does with every string. -/
structure Program.Lossless (p : Program) : Prop where
  /-- Every encoding of a string is decoded to that string. -/
  undoes : ∀ s e behind decoded : Bytes, 0 ∉ s → p.Encoding s e → e.length < decoded.length →
    p.urlDecodeInto (e ++ 0 :: behind) decoded = some (s ++ 0 :: decoded.drop (s.length + 1))
  /-- Every string fits into an array of its own size, and malformed escapes stay as they are. -/
  fits : ∀ url decoded : Bytes, 0 ∈ url → (cString url).length < decoded.length → ∃ out,
    p.urlDecodeInto url decoded = some (out ++ 0 :: decoded.drop (out.length + 1)) ∧
      out.length ≤ (cString url).length ∧
      ∀ x w t, cString url = x ++ 37 :: (w ++ t) → Malformed (w ++ t) → 37 ∉ w →
        out = p.urlDecode x ++ 37 :: (w.map p.literal ++ p.urlDecode t)

theorem urlDecodeInto_eq (p : Program) {url decoded : Bytes}
    (h : (cString url).length < decoded.length) :
    p.urlDecodeInto url decoded = some (p.urlDecode (cString url) ++
      0 :: decoded.drop ((p.urlDecode (cString url)).length + 1)) := by
  rw [urlDecode_eq]
  exact @urlDecodeFrom_eq p url [] decoded (cString url) 0 rfl h

/-- **Decoding**: both versions undo every encoding, and never write more than they were given. -/
theorem urlDecode_lossless (p : Program) : p.Lossless where
  undoes s e behind decoded hs he hroom := by
    have hstring : cString (e ++ 0 :: behind) = e :=
      (cString_append (he.nul_free hs)).trans (List.append_nil e)
    rw [urlDecodeInto_eq p (hstring.symm ▸ hroom), hstring, urlDecode_encoding he]
  fits url decoded _ hroom := by
    refine ⟨p.urlDecode (cString url), urlDecodeInto_eq p hroom, ?_, ?_⟩
    · rw [urlDecode_eq]
      exact decodeLoop_length _ _
    · intro x w t hurl hbad hw
      rw [hurl, urlDecode_malformed p hbad hw]

/-- A plus sign that is escaped, a space that is not, and a letter that need not be. -/
theorem urlDecode_lossless_plus :
    Program.plain.urlDecodeInto (ascii "1%2b1+%3D" ++ 0 :: []) (List.replicate 12 255) =
      some (ascii "1+1 =" ++ 0 :: List.replicate 6 255) := by
  have he : ascii "1%2b1+%3D" = [49, 37, 50, 98, 49, 43, 37, 51, 68] := by decide
  have hs : ascii "1+1 =" = [49, 43, 49, 32, 61] := by decide
  have henc : Program.plain.Encoding (ascii "1+1 =") (ascii "1%2b1+%3D") := by
    rw [hs, he]
    refine .literal (by decide) (fun _ => by decide) (.escape (by decide) (by decide) ?_)
    refine .literal (by decide) (fun _ => by decide) (.plus rfl ?_)
    exact .escape (by decide) (by decide) .nil
  exact (urlDecode_lossless .plain).undoes _ _ [] _ (by decide) henc (by decide)

example : Program.https.urlDecode (ascii "%e4%B8%AD%4%41%") = [228, 184, 173] ++ ascii "%4A%" := by
  decide

end InpLabs.Web
