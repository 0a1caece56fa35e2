/-
  File:      InpLabs/Binflag/Format.lean
  Subject:   The challenge file (lab2, README), and the flag hidden in it.

  * `be16`, `be32`: the integers of the file, big-endian;
  * `Block`, `Challenge`, `encode`: what a file holds and how it is laid out;
  * `dictionary`, `flagHex`: the dictionary that the good blocks make, and the digits of the flag.
-/
import InpLabs.Lib.Cxx
import Mathlib.Algebra.Group.Nat.Defs

namespace InpLabs.Binflag

open InpLabs.Lib

/-! ## 1. Integers -/

/-- The two-byte unit of these bytes. -/
def unit (hi lo : UInt8) : UInt16 := (hi.toUInt16 <<< 8) + lo.toUInt16

/-- The four-byte integer of these bytes. -/
def word (a b c d : UInt8) : UInt32 :=
  (a.toUInt32 <<< 24) ||| (b.toUInt32 <<< 16) ||| (c.toUInt32 <<< 8) ||| d.toUInt32

def be16 (v : UInt16) : Bytes := [(v >>> 8).toUInt8, v.toUInt8]

def be32 (v : UInt32) : Bytes :=
  [(v >>> 24).toUInt8, (v >>> 16).toUInt8, (v >>> 8).toUInt8, v.toUInt8]

/-! ## 2. The layout -/

/-- A data block; its length is written in two bytes. -/
structure Block where
  offset : UInt32
  cksum : UInt16
  payload : Bytes
  length_lt : payload.length < 2 ^ 16

def blockHeader (offset : UInt32) (cksum length : UInt16) : Bytes :=
  be32 offset ++ be16 cksum ++ be16 length

def Block.encode (b : Block) : Bytes :=
  blockHeader b.offset b.cksum (UInt16.ofNat b.payload.length) ++ b.payload

/-- A challenge file. -/
structure Challenge where
  magic : Bytes
  datasize : UInt32
  zeros : UInt16
  blocks : List Block
  flags : List UInt32
  magic_length : magic.length = 8
  blocks_lt : blocks.length < 2 ^ 16
  flags_lt : flags.length < 2 ^ 16

def encodeFlags (flags : List UInt32) : Bytes :=
  be16 (UInt16.ofNat flags.length) ++ flags.flatMap be32

def Challenge.header (c : Challenge) : Bytes :=
  c.magic ++ be32 c.datasize ++ be16 (UInt16.ofNat c.blocks.length) ++ be16 c.zeros

def Challenge.encode (c : Challenge) : Bytes :=
  c.header ++ c.blocks.flatMap Block.encode ++ encodeFlags c.flags

/-! ## 3. The flag -/

/-- The two-byte units of a payload. -/
def units : Bytes → List UInt16
  | hi :: lo :: bs => unit hi lo :: units bs
  | _ => []

def cksumOf (payload : Bytes) : UInt16 := (units payload).foldl (· ^^^ ·) 0

/-- A block with the right checksum. -/
def Block.Good (b : Block) : Prop := cksumOf b.payload = b.cksum

instance (b : Block) : Decidable b.Good := inferInstanceAs (Decidable (_ = _))

/-- `bs` are written at `o`. -/
def write (d : Bytes) (o : Nat) (bs : Bytes) : Bytes := d.take o ++ bs ++ d.drop (o + bs.length)

def Block.apply (d : Bytes) (b : Block) : Bytes :=
  if b.Good then write d b.offset.toNat b.payload else d

/-- The dictionary file: zeros, with the payloads of the good blocks. -/
def Challenge.dictionary (c : Challenge) : Bytes :=
  c.blocks.foldl Block.apply (List.replicate c.datasize.toNat 0)

/-- A lower-case hexadecimal digit. -/
def hexDigit (d : UInt8) : UInt8 := if d < 10 then 48 + d else 87 + d

def hexByte (b : UInt8) : Bytes := [hexDigit (b / 16), hexDigit (b % 16)]

/-- The two flag characters at an offset. -/
def flagAt (d : Bytes) (o : UInt32) : Bytes :=
  hexByte (d.getD o.toNat 0) ++ hexByte (d.getD (o.toNat + 1) 0)

def Challenge.flagHex (c : Challenge) : Bytes := c.flags.flatMap (flagAt c.dictionary)

end InpLabs.Binflag
