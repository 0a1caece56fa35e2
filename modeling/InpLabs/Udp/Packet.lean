/-
  File:      InpLabs/Udp/Packet.lean
  Subject:   The datagrams of the file transfer (lab6: header.hpp), their checksum and their bytes.

  * `Packet`, `Ack`: the two structures, with arrays of their fixed size;
  * `calculateCRC`, `calculatedChecksum`: the checksum in its two pieces, over the fields before
    `checksum` and over the data. The field `length` stands between the two and is in neither;
  * `bytes`: the datagram, each 16-bit field with its low byte first, as on the machines the lab
    runs on; `bytes_injective`: it determines the packet;
  * `flip`, `bytes_flip`: one bit of the datagram flipped, field by field and on the bytes;
  * `flip_checksum_iff`: the checksum still fits exactly when the bit is one of `length`.
-/
import InpLabs.Lib.Crc

namespace InpLabs.Udp

open InpLabs.Lib

abbrev Byte := BitVec 8

abbrev Word := BitVec 16

/-- `PACKET_SIZE`. -/
def packetSize : Nat := 1200

/-- `MAX_PACKETS`. -/
def maxPackets : Nat := 48

/-- The number of files; `CLI_INIT_SEND` is the same number. -/
def numFiles : Nat := 1000

/-- `INITIAL_WIN_SIZE`. -/
def initialWinSize : Nat := 1000

/-- `NO_ACK`. -/
def noAck : Word := 65535

/-- `FINISH`. -/
def finish : Word := 30000

@[ext] structure Packet where
  fileNumber : Word
  packetNumber : Word
  totalPackets : Word
  checksum : Word
  length : Word
  data : List Byte
  size : data.length = packetSize
  deriving DecidableEq

structure Ack where
  fileNumber : Word
  storedPacket : List Bool
  size : storedPacket.length = maxPackets
  deriving DecidableEq

/-! ## 1. The checksum -/

/-- `calculateCRC`: the generator is 0xA001, low power first. -/
def calculateCRC (data : List Byte) (initialCrc : Word) : Word := Crc.crc 0xA001 data initialCrc

/-- A 16-bit field in memory. -/
def le (v : Word) : List Byte := [v.setWidth 8, (v >>> 8).setWidth 8]

/-- The fields before `checksum`. -/
def Packet.header (p : Packet) : List Byte :=
  le p.fileNumber ++ le p.packetNumber ++ le p.totalPackets

/-- What client and server compute from a packet, in two calls of `calculateCRC`. -/
def Packet.calculatedChecksum (p : Packet) : Word :=
  calculateCRC p.data (calculateCRC p.header 0xFFFF)

/-- The packet in memory. -/
def Packet.bytes (p : Packet) : List Byte := p.header ++ le p.checksum ++ le p.length ++ p.data

theorem le_injective : Function.Injective le := by
  intro v v' h
  have h0 : v.setWidth 8 = v'.setWidth 8 := (List.cons.inj h).1
  have h1 : (v >>> 8).setWidth 8 = (v' >>> 8).setWidth 8 :=
    (List.cons.inj (List.cons.inj h).2).1
  refine BitVec.eq_of_getLsbD_eq fun i hi => ?_
  by_cases hlow : i < 8
  · have hbit := congrArg (fun b => b.getLsbD i) h0
    simpa [hlow] using hbit
  · have hbit := congrArg (fun b => b.getLsbD (i - 8)) h1
    have hsub : 8 + (i - 8) = i := by omega
    have hlt : i - 8 < 8 := by omega
    simpa [hsub, hlt] using hbit

theorem le_length (v : Word) : (le v).length = 2 := rfl

/-- **The bytes determine the packet.** -/
theorem bytes_injective : Function.Injective Packet.bytes := by
  intro p q h
  unfold Packet.bytes Packet.header at h
  simp only [List.append_assoc] at h
  obtain ⟨h1, h⟩ := List.append_inj h rfl
  obtain ⟨h2, h⟩ := List.append_inj h rfl
  obtain ⟨h3, h⟩ := List.append_inj h rfl
  obtain ⟨h4, h⟩ := List.append_inj h rfl
  obtain ⟨h5, h6⟩ := List.append_inj h rfl
  exact Packet.ext (le_injective h1) (le_injective h2) (le_injective h3) (le_injective h4)
    (le_injective h5) h6

/-! ## 2. A flipped bit -/

def flipBit {w : Nat} (v : BitVec w) (k : Nat) : BitVec w := v ^^^ BitVec.twoPow w k

/-- Bit `k` of a string of bytes flipped. -/
def flipBytes (bs : List Byte) (k : Nat) : List Byte := bs.modify (k / 8) (flipBit · (k % 8))

@[simp] theorem flipBytes_length (bs : List Byte) (k : Nat) :
    (flipBytes bs k).length = bs.length := List.length_modify ..

/-- Bit `k` of the datagram flipped. -/
def Packet.flip (p : Packet) (k : Nat) : Packet :=
  if k < 16 then { p with fileNumber := flipBit p.fileNumber k }
  else if k < 32 then { p with packetNumber := flipBit p.packetNumber (k - 16) }
  else if k < 48 then { p with totalPackets := flipBit p.totalPackets (k - 32) }
  else if k < 64 then { p with checksum := flipBit p.checksum (k - 48) }
  else if k < 80 then { p with length := flipBit p.length (k - 64) }
  else { p with data := flipBytes p.data (k - 80), size := by rw [flipBytes_length, p.size] }

theorem flipBit_ne {w : Nat} (v : BitVec w) {k : Nat} (h : k < w) : flipBit v k ≠ v := by
  intro he
  have hbit := congrArg (fun b => b.getLsbD k) he
  simp [flipBit, h] at hbit

theorem modify_append {α : Type*} (f : α → α) (bs cs : List α) (i : Nat) :
    (bs ++ cs).modify i f =
      if i < bs.length then bs.modify i f ++ cs else bs ++ cs.modify (i - bs.length) f := by
  induction bs generalizing i with
  | nil => rfl
  | cons b bs ih =>
    cases i with
    | zero => rfl
    | succ i =>
      simp only [List.cons_append, List.modify_succ_cons, ih, List.length_cons,
        Nat.add_lt_add_iff_right, Nat.add_sub_add_right]
      split <;> rfl

theorem flipBytes_append (bs cs : List Byte) (k : Nat) :
    flipBytes (bs ++ cs) k =
      if k < 8 * bs.length then flipBytes bs k ++ cs
      else bs ++ flipBytes cs (k - 8 * bs.length) := by
  have hlt : k / 8 < bs.length ↔ k < 8 * bs.length := by omega
  have hdiv : k / 8 - bs.length = (k - 8 * bs.length) / 8 := by omega
  unfold flipBytes
  rw [modify_append]
  simp only [hlt]
  by_cases h : k < 8 * bs.length
  · rw [if_pos h, if_pos h]
  · have hmod : k % 8 = (k - 8 * bs.length) % 8 := by omega
    rw [if_neg h, if_neg h, hdiv, ← hmod]

/-- A bit of a field is a bit of its low byte or of its high byte. -/
theorem le_flipBit (v : Word) {k : Nat} (h : k < 16) : le (flipBit v k) = flipBytes (le v) k := by
  have hlow : ∀ k < 16, (BitVec.twoPow 16 k).setWidth 8 =
      if k < 8 then BitVec.twoPow 8 k else 0#8 := by decide
  have hhigh : ∀ k < 16, (BitVec.twoPow 16 k >>> 8).setWidth 8 =
      if k < 8 then 0#8 else BitVec.twoPow 8 (k - 8) := by decide
  unfold flipBytes le flipBit
  rw [BitVec.setWidth_xor, BitVec.ushiftRight_xor_distrib, BitVec.setWidth_xor, hlow k h, hhigh k h]
  by_cases hk : k < 8
  · have h0 : k / 8 = 0 := by omega
    have h1 : k % 8 = k := by omega
    rw [if_pos hk, if_pos hk, h0, h1, List.modify_zero_cons, BitVec.xor_zero]
  · have h0 : k / 8 = 1 := by omega
    have h1 : k % 8 = k - 8 := by omega
    rw [if_neg hk, if_neg hk, h0, h1, List.modify_succ_cons, List.modify_zero_cons,
      BitVec.xor_zero]

/-- **The flipped packet has the flipped bytes.** -/
theorem bytes_flip (p : Packet) (k : Nat) : (p.flip k).bytes = flipBytes p.bytes k := by
  unfold Packet.bytes Packet.header
  simp only [List.append_assoc, flipBytes_append, le_length, Nat.sub_sub, Nat.reduceMul,
    Nat.reduceAdd]
  unfold Packet.flip
  by_cases h1 : k < 16
  · simp [le_flipBit _ h1, h1]
  by_cases h2 : k < 32
  · have h : k - 16 < 16 := by omega
    simp [le_flipBit _ h, h1, h2, h]
  by_cases h3 : k < 48
  · have h : k - 32 < 16 := by omega
    have h' : ¬ k - 16 < 16 := by omega
    simp [le_flipBit _ h, h1, h2, h3, h, h']
  by_cases h4 : k < 64
  · have h : k - 48 < 16 := by omega
    have h' : ¬ k - 16 < 16 ∧ ¬ k - 32 < 16 := by omega
    simp [le_flipBit _ h, h1, h2, h3, h4, h, h']
  by_cases h5 : k < 80
  · have h : k - 64 < 16 := by omega
    have h' : ¬ k - 16 < 16 ∧ ¬ k - 32 < 16 ∧ ¬ k - 48 < 16 := by omega
    simp [le_flipBit _ h, h1, h2, h3, h4, h5, h, h']
  · have h' : ¬ k - 16 < 16 ∧ ¬ k - 32 < 16 ∧ ¬ k - 48 < 16 ∧ ¬ k - 64 < 16 := by omega
    simp [h1, h2, h3, h4, h5, h']

/-! ## 3. What the checksum detects -/

/-- The bits of a datagram. -/
def datagramBits : Nat := 8 * (10 + packetSize)

/-- The bits of the field `length`. -/
def LengthBit (k : Nat) : Prop := 64 ≤ k ∧ k < 80

theorem generator_top : (0xA001 : Word).getLsbD (16 - 1) = true := by decide

theorem calculateCRC_flip (bs : List Byte) (init : Word) {k : Nat} (h : k < 8 * bs.length) :
    calculateCRC (flipBytes bs k) init ≠ calculateCRC bs init := by
  have hi : k / 8 < bs.length := by omega
  have hbit : flipBit bs[k / 8] (k % 8) ≠ bs[k / 8] := flipBit_ne _ (Nat.mod_lt k (by omega))
  have hsplit : bs = bs.take (k / 8) ++ bs[k / 8] :: bs.drop (k / 8 + 1) := by
    rw [← List.drop_eq_getElem_cons hi, List.take_append_drop]
  have hne := Crc.crc_ne generator_top (by omega) (bs.take (k / 8)) (bs.drop (k / 8 + 1)) hbit init
  rw [← hsplit] at hne
  unfold flipBytes
  rw [List.modify_eq_take_cons_drop hi]
  exact hne

/-- The fields of a packet with a flipped bit, as the checksum sees them. -/
theorem header_flip (p : Packet) (k : Nat) :
    (p.flip k).header = if k < 48 then flipBytes p.header k else p.header := by
  unfold Packet.header
  simp only [List.append_assoc, flipBytes_append, le_length, Nat.sub_sub, Nat.reduceMul,
    Nat.reduceAdd]
  unfold Packet.flip
  by_cases h1 : k < 16
  · have h : k < 48 := by omega
    simp [le_flipBit _ h1, h1, h]
  by_cases h2 : k < 32
  · have h : k - 16 < 16 := by omega
    have h' : k < 48 := by omega
    simp [le_flipBit _ h, h1, h2, h, h']
  by_cases h3 : k < 48
  · have h : k - 32 < 16 := by omega
    have h' : ¬ k - 16 < 16 := by omega
    simp [le_flipBit _ h, h1, h2, h3, h']
  · rw [if_neg h1, if_neg h2, if_neg h3, if_neg h3]
    split
    · rfl
    · split <;> rfl

theorem flip_of_lengthBit (p : Packet) {k : Nat} (h : LengthBit k) :
    p.flip k = { p with length := flipBit p.length (k - 64) } := by
  obtain ⟨hle, hlt⟩ := h
  unfold Packet.flip
  rw [if_neg (by omega), if_neg (by omega), if_neg (by omega), if_neg (by omega), if_pos hlt]

theorem flip_checksum (p : Packet) (k : Nat) : (p.flip k).checksum =
    if 48 ≤ k ∧ k < 64 then flipBit p.checksum (k - 48) else p.checksum := by
  unfold Packet.flip
  by_cases h3 : k < 48
  · have hcheck : ¬ (48 ≤ k ∧ k < 64) := by omega
    rw [if_neg hcheck]
    repeat' split
    all_goals rfl
  have h1 : ¬ k < 16 := by omega
  have h2 : ¬ k < 32 := by omega
  rw [if_neg h1, if_neg h2, if_neg h3]
  by_cases h4 : k < 64
  · rw [if_pos h4, if_pos ⟨by omega, h4⟩]
  · have hcheck : ¬ (48 ≤ k ∧ k < 64) := by omega
    rw [if_neg h4, if_neg hcheck]
    split <;> rfl

theorem flip_data (p : Packet) (k : Nat) :
    (p.flip k).data = if k < 80 then p.data else flipBytes p.data (k - 80) := by
  unfold Packet.flip
  by_cases h : k < 80
  · rw [if_pos h]
    repeat' split
    all_goals rfl
  · have h' : ¬ k < 16 ∧ ¬ k < 32 ∧ ¬ k < 48 ∧ ¬ k < 64 := by omega
    rw [if_neg h'.1, if_neg h'.2.1, if_neg h'.2.2.1, if_neg h'.2.2.2, if_neg h, if_neg h]

/-- **A flipped bit is detected unless it is one of `length`.** -/
theorem flip_checksum_iff {p : Packet} (hp : p.checksum = p.calculatedChecksum) {k : Nat}
    (hk : k < datagramBits) :
    (p.flip k).checksum = (p.flip k).calculatedChecksum ↔ LengthBit k := by
  have hsize := p.size
  unfold datagramBits at hk
  unfold Packet.calculatedChecksum
  rw [flip_checksum, header_flip, flip_data]
  by_cases h1 : k < 48
  · -- the register differs before the data, and so it does behind them
    have hheader : k < 8 * p.header.length := h1
    have hne := calculateCRC_flip p.header 0xFFFF hheader
    have hcheck : ¬ (48 ≤ k ∧ k < 64) := by omega
    have h80 : k < 80 := by omega
    rw [if_neg hcheck, if_pos h1, if_pos h80, hp]
    exact iff_of_false (fun h => hne (Crc.crc_injective generator_top p.data h).symm)
      fun h => absurd h.1 (by omega)
  by_cases h2 : k < 64
  · have hne := flipBit_ne p.checksum (show k - 48 < 16 by omega)
    have h80 : k < 80 := by omega
    rw [if_pos ⟨by omega, h2⟩, if_neg h1, if_pos h80]
    exact iff_of_false (fun h => hne (h.trans hp.symm)) fun h => absurd h.1 (by omega)
  have hcheck : ¬ (48 ≤ k ∧ k < 64) := by omega
  rw [if_neg hcheck, if_neg h1]
  by_cases h3 : k < 80
  · rw [if_pos h3]
    exact iff_of_true hp ⟨by omega, h3⟩
  · have hdata : k - 80 < 8 * p.data.length := by omega
    have hne := calculateCRC_flip p.data (calculateCRC p.header 0xFFFF) hdata
    rw [if_neg h3, hp]
    exact iff_of_false (fun h => hne h.symm) fun h => h3 h.2

end InpLabs.Udp
