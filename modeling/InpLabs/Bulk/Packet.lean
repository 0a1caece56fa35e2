/-
  File:      InpLabs/Bulk/Packet.lean
  Subject:   The datagrams of the two transfers that send all files at once (lab6/others: Star and
             KJL, header.hpp).

  * `Packet`, `Response`: an `hdr_t` of the client and of the server, who looks at its data as at a
    bitset;
  * `setBit`: one bit of it.
-/
import InpLabs.Lib.Pieces
import InpLabs.Lib.Radix

namespace InpLabs.Bulk

open InpLabs.Lib

/-- `DATA_SIZE` -/
def dataSize : Nat := 1200 - 28 - 4

/-- The largest `uint32_t`. -/
def uintMax : Nat := 4294967295

/-- `std::bitset<DATA_SIZE * 8>` -/
abbrev Bits := BitVec (dataSize * 8)

/-- `hdr_t`, as the client sends it. -/
structure Packet where
  dataSeq : BitVec 32
  data : Bytes
  size : data.length = dataSize
  deriving DecidableEq

/-- `hdr_t`, as the server sends it. -/
structure Response where
  dataSeq : BitVec 32
  bits : Bits
  deriving DecidableEq

def setBit (bits : Bits) (k : Nat) : Bits := bits ||| BitVec.twoPow _ k

theorem getLsbD_setBit {bits : Bits} {k : Nat} (hk : k < dataSize * 8) (j : Nat) :
    (setBit bits k).getLsbD j = (bits.getLsbD j || decide (k = j)) := by
  rw [setBit, BitVec.getLsbD_or, BitVec.getLsbD_twoPow, decide_eq_true hk, Bool.true_and]

/-- A key that fits in 32 bits. -/
theorem seq_toNat {k : Nat} (h : k < dataSize * 8) : (BitVec.ofNat 32 k).toNat = k := by
  have hsize : dataSize * 8 = 9344 := rfl
  rw [BitVec.toNat_ofNat]
  exact Nat.mod_eq_of_lt (by omega)

end InpLabs.Bulk
