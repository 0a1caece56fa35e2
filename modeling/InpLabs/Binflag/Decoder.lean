/-
  File:      InpLabs/Binflag/Decoder.lean
  Subject:   The decoder for challenge files (lab2.c, `main`).

  * `Memory`, `loadU16`, `loadU32`: the fields of the packed structures, as a little-endian machine
    loads them; `convertIndianU16`, `convertIndianU32`;
  * `Access`, `use`: an index into `dict`, a payload or the offsets of the flag, with how much is
    allocated there and how much of it was read from the file;
  * `readBlock`, `readFlag`, `decode`: the body of the loop over the blocks, what comes after it,
    and the whole. What was printed is the result; it is undefined once an access is not inside its
    allocation.
-/
import InpLabs.Lib.Cxx
import InpLabs.Lib.Traced
import Mathlib.Logic.Function.Basic

namespace InpLabs.Binflag

open InpLabs.Lib

/-! ## 1. Memory -/

/-- The bytes of a structure or an array. -/
abbrev Memory := Nat → UInt8

/-- `read(fp, ..)` to position `pos`, of the bytes `data` that the file still has. -/
def Memory.fill (m : Memory) (pos : Nat) (data : Bytes) : Memory :=
  fun k => if pos ≤ k then data.getD (k - pos) (m k) else m k

def loadU16 (m : Memory) (k : Nat) : UInt16 := (m k).toUInt16 ||| ((m (k + 1)).toUInt16 <<< 8)

def loadU32 (m : Memory) (k : Nat) : UInt32 :=
  (m k).toUInt32 ||| ((m (k + 1)).toUInt32 <<< 8) ||| ((m (k + 2)).toUInt32 <<< 16) |||
    ((m (k + 3)).toUInt32 <<< 24)

def convertIndianU16 (num : UInt16) : UInt16 :=
  ((num &&& 0x00ff) <<< 8) ||| ((num &&& 0xff00) >>> 8)

def convertIndianU32 (num : UInt32) : UInt32 :=
  ((num &&& 0x000000ff) <<< 24) ||| ((num &&& 0x0000ff00) <<< 8) |||
    ((num &&& 0x00ff0000) >>> 8) ||| ((num &&& 0xff000000) >>> 24)

/-- What the structures hold before they are read: on the stack, and in each `malloc`. -/
structure Junk where
  hdr : Memory
  block : Nat → Memory
  flag : Memory

/-! ## 2. Accesses -/

inductive Region where
  | dict
  | payload
  | flagOffset
  deriving DecidableEq

/-- An index that is used, the size of the array, and how much of it was written. -/
structure Access where
  region : Region
  index : Nat
  allocated : Nat
  filled : Nat
  deriving DecidableEq

def Access.Safe (a : Access) : Prop := a.index < a.allocated ∧ a.index < a.filled

instance (a : Access) : Decidable a.Safe := inferInstanceAs (Decidable (_ ∧ _))

abbrev Run (α : Type) := Traced Access α

/-- `v` is what an access reads or leaves behind. -/
def use {α : Type} (region : Region) (index allocated filled : Nat) (v : α) : Run α :=
  Traced.touch ⟨region, index, allocated, filled⟩ (index < allocated) v

/-! ## 3. The blocks -/

/-- `for (int j = 0; j < length; j += 2)`: the round for `j = 2 * i`. -/
def xorRound (payload : Memory) (length filled i : Nat) (xoredVal : UInt16) : Run UInt16 := do
  let hi ← use .payload (2 * i) length filled (payload (2 * i))
  let lo ← use .payload (2 * i + 1) length filled (payload (2 * i + 1))
  pure (xoredVal ^^^ ((hi.toUInt16 <<< 8) + lo.toUInt16))

/-- `memcpy(dict + offset, payload, length)`, its byte `k`. -/
def copyRound (payload : Memory) (datasize offset length filled k : Nat) (dict : Memory) :
    Run Memory := do
  let b ← use .payload k length filled (payload k)
  use .dict (offset + k) datasize datasize (Function.update dict (offset + k) b)

/-- What is done with a payload: its checksum, and the copy. -/
def applyPayload (payload : Memory) (datasize offset : Nat) (cksum : UInt16) (length filled : Nat)
    (dict : Memory) : Run Memory := do
  let xoredVal ← Traced.forLoop (xorRound payload length filled) ((length + 1) / 2) 0 0
  if xoredVal = cksum then
    Traced.forLoop (copyRound payload datasize offset length filled) length 0 dict
  else pure dict

/-- The body of the loop over the blocks; `file` is what has not been read yet. -/
def readBlock (junk : Memory) (datasize : Nat) (s : Bytes × Memory) : Run (Bytes × Memory) := do
  let (file, dict) := s
  let entries := junk.fill 0 (file.take 8)
  let file := file.drop 8
  let length := (convertIndianU16 (loadU16 entries 6)).toNat
  let offset := (convertIndianU32 (loadU32 entries 0)).toNat
  let cksum := convertIndianU16 (loadU16 entries 4)
  let data := file.take length
  let entries := entries.fill 8 data
  let payload : Memory := fun k => entries (8 + k)
  let dict ← applyPayload payload datasize offset cksum length data.length dict
  pure (file.drop length, dict)

/-! ## 4. The flag -/

/-- `printf("%04x", ans)`. -/
def printf04x (ans : UInt16) : Bytes :=
  [ans >>> 12, ans >>> 8, ans >>> 4, ans].map fun d =>
    let d := (d &&& 15).toUInt8
    if d < 10 then 48 + d else 87 + d

/-- The loop that converts the offsets. -/
def convertRound (length filled i : Nat) (offset : Nat → UInt32) : Run (Nat → UInt32) :=
  use .flagOffset i length filled (Function.update offset i (convertIndianU32 (offset i)))

/-- The loop that prints. -/
def printRound (dict : Memory) (datasize : Nat) (offset : Nat → UInt32) (length filled i : Nat)
    (out : Bytes) : Run Bytes := do
  let o ← use .flagOffset i length filled (offset i)
  let hi ← use .dict o.toNat datasize datasize (dict o.toNat)
  let o ← use .flagOffset i length filled (offset i)
  let lo ← use .dict (o + 1).toNat datasize datasize (dict (o + 1).toNat)
  pure (out ++ printf04x ((hi.toUInt16 <<< 8) + lo.toUInt16))

def readFlag (junk : Memory) (datasize : Nat) (s : Bytes × Memory) : Run Bytes := do
  let (file, dict) := s
  let flag := junk.fill 0 (file.take 2)
  let file := file.drop 2
  let length := (convertIndianU16 (loadU16 flag 0)).toNat
  let data := file.take (length * 4)
  -- the offsets are set to 0 before they are read
  let array : Memory := Memory.fill (fun _ => 0) 0 data
  let filled := data.length / 4
  let offset : Nat → UInt32 := fun i => loadU32 array (4 * i)
  let offset ← Traced.forLoop (convertRound length filled) length 0 offset
  Traced.forLoop (printRound dict datasize offset length filled) length 0 []

/-- `main`, for a file with the bytes `file`. -/
def decode (junk : Junk) (file : Bytes) : Run Bytes := do
  let hdr := junk.hdr.fill 0 (file.take 16)
  let file := file.drop 16
  let nBlocks := (convertIndianU16 (loadU16 hdr 12)).toNat
  let datasize := (convertIndianU32 (loadU32 hdr 8)).toNat
  let s ← Traced.forLoop (fun i => readBlock (junk.block i) datasize) nBlocks 0 (file, fun _ => 0)
  readFlag junk.flag datasize s

end InpLabs.Binflag
