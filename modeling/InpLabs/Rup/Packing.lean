/-
  File:      InpLabs/Rup/Packing.lean
  Subject:   Seventeen characters in fourteen bytes (lab6/others/Sean: the two loops over `conv` of
             client.cpp and of server.cpp).

  * `pack`, `unpack`: a number in base 96 is written in base 256, and the other way round. The
    highest digit goes first; C's division rounds to zero, also for characters below the blank;
  * `unpack_pack`: printable characters come back, since 96 ^ 17 ≤ 256 ^ 14;
  * `packChunk`, `unpackChunk`: all groups of a packet.
-/
import InpLabs.Lib.Pieces
import InpLabs.Lib.Radix

namespace InpLabs.Rup

open InpLabs.Lib

/-- `MTU` -/
def mtu : Nat := 1500 - 28

/-- `CHUNK_PKT` -/
def chunkPkt : Nat := mtu - 2

/-- `CHUNK_BUF` -/
def chunkBuf : Nat := chunkPkt / 14 * 17

/-! ## 1. One group -/

/-- The loop that reads digits: `conv *= base; conv += …`. -/
def digitsIn (base : Int) (value : UInt8 → Int) (group : Bytes) : Int :=
  group.foldl (fun conv c => conv * base + value c) 0

/-- The loop that writes digits, from the last place of the group to the first:
    `… = conv % base; conv /= base`. -/
def digitsOut (base : Int) (char : Int → UInt8) : Nat → Int → Bytes → Bytes
  | 0, _, out => out
  | n + 1, conv, out =>
    digitsOut base char n (conv.tdiv base) (char (conv.tmod base) :: out)

/-- `(c - 0x20) % 96`, of a `char` -/
def charValue (c : UInt8) : Int := (c.toInt8.toInt - 32).tmod 96

/-- The client's loops. -/
def pack (group : Bytes) : Bytes :=
  digitsOut 256 UInt8.ofInt 14 (digitsIn 96 charValue group) []

/-- The server's loops. -/
def unpack (group : Bytes) : Bytes :=
  digitsOut 96 (fun d => UInt8.ofInt (d + 32)) 17 (digitsIn 256 (fun c => c.toNat) group) []

/-- What `charValue` is made for. -/
def Printable (c : UInt8) : Prop := 32 ≤ c ∧ c < 128

instance (c : UInt8) : Decidable (Printable c) := inferInstanceAs (Decidable (_ ∧ _))

section Group

variable {b k n : Nat} {group : Bytes} {value : UInt8 → Int} {char : Int → UInt8}

theorem digitsOut_length (base : Int) (char : Int → UInt8) (n : Nat) (conv : Int) (out : Bytes) :
    (digitsOut base char n conv out).length = n + out.length := by
  induction n generalizing conv out with
  | zero => exact (Nat.zero_add _).symm
  | succ n ih =>
    rw [digitsOut, ih, List.length_cons]
    omega

theorem pack_length (group : Bytes) : (pack group).length = 14 := digitsOut_length _ _ _ _ _

theorem unpack_length (group : Bytes) : (unpack group).length = 17 := digitsOut_length _ _ _ _ _

/-- What is read is the number with these digits. -/
theorem digitsIn_eq {digit : UInt8 → Nat} (h : ∀ c ∈ group, value c = digit c) :
    digitsIn b value group = Nat.ofDigits b (group.map digit).reverse := by
  have hfold : ∀ (cs : Bytes) (n : Nat), (∀ c ∈ cs, value c = digit c) →
      cs.foldl (fun conv c => conv * (b : Int) + value c) n =
        ((cs.map digit).foldl (fun n d => n * b + d) n : Nat) := by
    intro cs
    induction cs with
    | nil => exact fun n _ => rfl
    | cons c cs ih =>
      intro n hcs
      obtain ⟨hc, hcs⟩ := List.forall_mem_cons.mp hcs
      have hstep : (n : Int) * b + value c = (n * b + digit c : Nat) := by
        rw [hc]
        norm_cast
      rw [List.foldl_cons, hstep, ih _ hcs, List.map_cons, List.foldl_cons]
  unfold digitsIn
  rw [← foldl_horner]
  exact hfold group 0 h

/-- What is written are the lowest digits of the number. -/
theorem digitsOut_eq (b n k : Nat) (char : Int → UInt8) (out : Bytes) :
    digitsOut b char k n out = ((radix b k n).map fun d : Nat => char d).reverse ++ out := by
  induction k generalizing n out with
  | zero => rfl
  | succ k ih =>
    have hmod : (n : Int).tmod b = (n % b : Nat) := rfl
    have hdiv : (n : Int).tdiv b = (n / b : Nat) := rfl
    rw [digitsOut, hmod, hdiv, ih, radix, List.map_cons, List.reverse_cons, List.append_assoc]
    rfl

/-- The value of a printable character is a digit, and the character comes back from it. -/
theorem charValue_eq {c : UInt8} (hc : Printable c) :
    charValue c = (c.toNat - 32 : Nat) ∧ c.toNat - 32 < 96 ∧
      UInt8.ofInt ((c.toNat - 32 : Nat) + 32 : Int) = c := by
  have hall : ∀ n : Fin 256, Printable (UInt8.ofNat n) →
      charValue (UInt8.ofNat n) = ((UInt8.ofNat n).toNat - 32 : Nat) ∧
        (UInt8.ofNat n).toNat - 32 < 96 ∧
        UInt8.ofInt (((UInt8.ofNat n).toNat - 32 : Nat) + 32 : Int) = UInt8.ofNat n := by
    decide +kernel
  have hback : UInt8.ofNat c.toNat = c := UInt8.ofNat_toNat
  have hc' := hall ⟨c.toNat, c.toNat_lt⟩
  rw [hback] at hc'
  exact hc' hc

/-- A byte is its own digit. -/
theorem ofInt_digit {d : Nat} (h : d < 256) : (UInt8.ofInt d).toNat = d := by
  have hall : ∀ n : Fin 256, (UInt8.ofInt (n.val : Int)).toNat = n := by decide +kernel
  exact hall ⟨d, h⟩

/-- **Printable characters come back.** -/
theorem unpack_pack (hlen : group.length = 17) (h : ∀ c ∈ group, Printable c) :
    unpack (pack group) = group := by
  have hin : digitsIn 96 charValue group =
      (Nat.ofDigits 96 (group.map fun c => c.toNat - 32).reverse : Nat) :=
    digitsIn_eq fun c hc => (charValue_eq (h c hc)).1
  have hdigits : ∀ d ∈ (group.map fun c => c.toNat - 32).reverse, d < 96 := by
    intro d hd
    obtain ⟨c, hc, rfl⟩ := List.mem_map.mp (List.mem_reverse.mp hd)
    exact (charValue_eq (h c hc)).2.1
  have hlength : (group.map fun c => c.toNat - 32).reverse.length = 17 := by simpa using hlen
  generalize hds : (group.map fun c => c.toNat - 32).reverse = ds at hin hdigits hlength
  -- 96 ^ 17 ≤ 256 ^ 14: the number fits
  have hfits : Nat.ofDigits 96 ds < 256 ^ 14 := by
    have hlt := Nat.ofDigits_lt_base_pow_length (by decide : 1 < 96) hdigits
    rw [hlength] at hlt
    exact hlt.trans_le (by decide)
  have hmiddle : pack group =
      ((radix 256 14 (Nat.ofDigits 96 ds)).map fun d : Nat => UInt8.ofInt d).reverse := by
    unfold pack
    rw [hin]
    exact (digitsOut_eq 256 _ 14 _ []).trans (List.append_nil _)
  have hback : digitsIn 256 (fun c => c.toNat) (pack group) = (Nat.ofDigits 96 ds : Nat) := by
    have hvalues : ((pack group).map UInt8.toNat).reverse = radix 256 14 (Nat.ofDigits 96 ds) := by
      rw [hmiddle, List.map_reverse, List.reverse_reverse, List.map_map]
      refine (List.map_congr_left fun d hd => ?_).trans (List.map_id _)
      exact ofInt_digit (lt_of_mem_radix (by decide) hd)
    have hread : digitsIn 256 (fun c => c.toNat) (pack group) =
        (Nat.ofDigits 256 ((pack group).map UInt8.toNat).reverse : Nat) :=
      digitsIn_eq fun _ _ => rfl
    rw [hread, hvalues, ofDigits_radix_of_lt hfits]
  have hradix : radix 96 17 (Nat.ofDigits 96 ds) = ds := hlength ▸ radix_ofDigits hdigits
  have hout : unpack (pack group) = (ds.map fun d : Nat => UInt8.ofInt (d + 32)).reverse := by
    unfold unpack
    rw [hback]
    refine (digitsOut_eq 96 _ 17 _ []).trans ?_
    rw [hradix, List.append_nil]
  rw [hout, ← hds, List.map_reverse, List.reverse_reverse, List.map_map]
  refine (List.map_congr_left fun c hc => ?_).trans (List.map_id _)
  exact (charValue_eq (h c hc)).2.2

end Group

/-! ## 2. The groups of a packet -/

/-- The groups of `buf_file` that go into a packet. -/
def packChunk (chars : Bytes) : Bytes :=
  (List.range (chunkPkt / 14)).flatMap fun j => pack (piece 17 chars j)

/-- What the server writes for a packet. -/
def unpackChunk (content : Bytes) : Bytes :=
  (List.range (chunkPkt / 14)).flatMap fun j => unpack (piece 14 content j)

section Chunk

variable {chars : Bytes} {j p : Nat}

theorem unpackChunk_length (content : Bytes) : (unpackChunk content).length = chunkBuf := by
  rw [unpackChunk, length_blocks fun _ => unpack_length _, List.length_range]
  rfl

/-- A group of a packet, after both. -/
theorem piece_unpackChunk (hj : j < chunkPkt / 14) :
    piece 17 (unpackChunk (packChunk chars)) j = unpack (pack (piece 17 chars j)) := by
  have hget : (List.range (chunkPkt / 14))[j]? = some j := List.getElem?_range hj
  unfold unpackChunk
  rw [piece_blocks (fun _ => unpack_length _) hget]
  unfold packChunk
  rw [piece_blocks (fun _ => pack_length _) hget]

/-- **A character comes back** if it stands in a group of printable ones. -/
theorem unpackChunk_packChunk (hlen : chars.length = chunkBuf) (hp : p < chunkBuf)
    (h : ∀ c ∈ piece 17 chars (p / 17), Printable c) :
    (unpackChunk (packChunk chars))[p]? = chars[p]? := by
  have hj : p / 17 < chunkPkt / 14 := Nat.div_lt_of_lt_mul (by rw [Nat.mul_comm]; exact hp)
  have hgroup : (piece 17 chars (p / 17)).length = 17 := by
    have hsize : chunkBuf = 105 * 17 := rfl
    have hsize' : chunkPkt / 14 = 105 := rfl
    rw [piece, List.length_take, List.length_drop, hlen]
    omega
  rw [← piece_getElem? (by decide : 0 < 17) _ p, piece_unpackChunk hj, unpack_pack hgroup h,
    piece_getElem? (by decide)]

end Chunk

end InpLabs.Rup
