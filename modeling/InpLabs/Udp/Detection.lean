/-
  File:      InpLabs/Udp/Detection.lean
  Subject:   **Which errors the checksum detects** (lab6: header.hpp, `calculateCRC`).

  * the generator 0xA001 has its highest bit set and an odd number of ones, which is all that bursts
    and odd numbers of errors ask for;
  * `crc_detection`: every odd number of flipped bits, in the data or in the checksum itself, every
    burst of up to 16 bits, and what the two calls of client and server come to.
-/
import InpLabs.Lib.CrcBits
import InpLabs.Udp.Packet

namespace InpLabs.Udp

open InpLabs.Lib

/-- The number of bits in which two strings differ. -/
def differing (x y : List Byte) : Nat := Crc.distance (Crc.bits x) (Crc.bits y)

/-- The lowest power of the generator. -/
theorem generator_high : (0xA001 : Word).getLsbD (16 - 1) = true := by decide

/-- The generator has three ones besides its highest power. -/
theorem generator_weight : Crc.weight (0xA001 : Word) = 1 := by decide

/-- A field in memory holds its bits in their order. -/
theorem bits_le (v : Word) : Crc.bits (le v) = Crc.toBits v := by
  have hrange : List.range 16 = List.range 8 ++ (List.range 8).map (8 + ·) := by decide
  have hbytes : Crc.bits (le v) =
      Crc.toBits (v.setWidth 8) ++ Crc.toBits ((v >>> 8).setWidth 8) := by
    simp [Crc.bits, le]
  have hword : Crc.toBits v = (List.range 8).map v.getLsbD ++
      (List.range 8).map fun i => v.getLsbD (8 + i) := by
    rw [Crc.toBits, hrange, List.map_append, List.map_map]
    rfl
  rw [hbytes, hword]
  congr 1
  · refine List.map_congr_left fun i hi => ?_
    simp [List.mem_range.mp hi]
  · refine List.map_congr_left fun i hi => ?_
    simp [List.mem_range.mp hi]

/-- The two calls for the header and the data are one for both. -/
theorem calculateCRC_append (a b : List Byte) (init : Word) :
    calculateCRC b (calculateCRC a init) = calculateCRC (a ++ b) init := by
  unfold calculateCRC Crc.crc
  rw [List.foldl_append]

/-- What client and server compute is the check of the covered fields. -/
theorem calculatedChecksum_eq (p : Packet) :
    p.calculatedChecksum = calculateCRC (p.header ++ p.data) 0xFFFF :=
  calculateCRC_append p.header p.data 0xFFFF

/-- **The checksum detects** every odd number of differing bits, every burst of up to 16 bits, and
    every odd number of differing bits in the string and the checksum field together; and it may be
    computed in pieces. -/
theorem crc_detection (init : Word) :
    (∀ x y : List Byte, x.length = y.length → Odd (differing x y) →
      calculateCRC x init ≠ calculateCRC y init) ∧
    (∀ x y : List Byte, x.length = y.length → x ≠ y → ∀ k,
      (∀ i, (Crc.bits x)[i]? ≠ (Crc.bits y)[i]? → k ≤ i ∧ i < k + 16) →
      calculateCRC x init ≠ calculateCRC y init) ∧
    (∀ (x y : List Byte) (c d : Word), x.length = y.length →
      Odd (differing (x ++ le c) (y ++ le d)) → c = calculateCRC x init →
      d ≠ calculateCRC y init) ∧
    ∀ a b : List Byte, calculateCRC b (calculateCRC a init) = calculateCRC (a ++ b) init := by
  refine ⟨fun x y hlen hodd => Crc.crc_ne_of_odd (by decide) generator_weight hlen hodd init,
    fun x y hlen hne k hburst => Crc.crc_burst generator_high (by decide) hlen hne hburst init, ?_,
    fun a b => calculateCRC_append a b init⟩
  rintro x y c d hlen hodd rfl
  rw [differing, Crc.bits_append, Crc.bits_append, bits_le, bits_le] at hodd
  exact Crc.crc_ne_of_odd_field (by decide) generator_weight hlen hodd

/-- Three flipped bits, one of them in the checksum. -/
theorem crc_detection_threeBits : (0x40BE : Word) ≠ calculateCRC [0x03] 0xFFFF := by
  have hcrc : (0x40BF : Word) = calculateCRC [0x00] 0xFFFF := by decide
  exact (crc_detection 0xFFFF).2.2.1 [0x00] [0x03] 0x40BF 0x40BE rfl (by decide) hcrc

end InpLabs.Udp
