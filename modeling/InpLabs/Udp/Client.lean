/-
  File:      InpLabs/Udp/Client.lean
  Subject:   The sending side of the file transfer (lab6: client.cpp).

  * `sendFile`: one packet for each chunk of a file whose bit in the ack is not set. The packet is
    one variable that every round fills: behind a short chunk its array keeps what was there
    before, at first whatever the stack held. The checksum covers it all the same;
  * `initNext`, `onAck`: the loops of `init_send` and of `main`;
  * `Genuine`: what holds of every packet the client sends (`mem_sendFile`).
-/
import InpLabs.Udp.Packet

namespace InpLabs.Udp

open InpLabs.Lib

/-- The contents of the 1000 files. -/
abbrev Files := Fin numFiles → List Byte

/-- The array of a packet. -/
abbrev Buffer := { l : List Byte // l.length = packetSize }

theorem zeros_length : (List.replicate packetSize (0 : Byte)).length = packetSize :=
  List.length_replicate

def Buffer.zeros : Buffer := ⟨List.replicate packetSize 0, zeros_length⟩

/-- The first file. -/
def file0 : Fin numFiles := ⟨0, by decide⟩

/-! ## 1. Sending a file -/

/-- `(file_size / PACKET_SIZE) + 1`, as it is stored in 16 bits. -/
def totalPackets (content : List Byte) : Word := BitVec.ofNat 16 (content.length / packetSize + 1)

/-- What `fread` reads after `fseek(file, i * PACKET_SIZE)`. -/
def chunk (content : List Byte) (i : Nat) : List Byte :=
  (content.drop (i * packetSize)).take packetSize

theorem chunk_length_le (content : List Byte) (i : Nat) : (chunk content i).length ≤ packetSize :=
  List.length_take_le _ _

/-- The array after `fread` has put the bytes at its front. -/
def Buffer.fread (buffer : Buffer) (read : List Byte) (h : read.length ≤ packetSize) : Buffer :=
  ⟨read ++ buffer.1.drop read.length, by
    have hb := buffer.2
    rw [List.length_append, List.length_drop]
    omega⟩

/-- Packet `i` of a file, with its checksum. -/
def mkPacket (fileNumber : Word) (content : List Byte) (i : Nat) (buffer : Buffer) : Packet :=
  let packet : Packet :=
    { fileNumber := fileNumber
      packetNumber := BitVec.ofNat 16 i
      totalPackets := totalPackets content
      checksum := 0
      length := BitVec.ofNat 16 (chunk content i).length
      data := buffer.1
      size := buffer.2 }
  { packet with checksum := packet.calculatedChecksum }

/-- The loop of `send_file` over the packet numbers that are left. -/
def sendLoop (fileNumber : Word) (content : List Byte) (stored : Nat → Bool) :
    List Nat → Buffer → List Packet
  | [], _ => []
  | i :: rest, buffer =>
    if stored i then sendLoop fileNumber content stored rest buffer
    else
      let buffer := buffer.fread (chunk content i) (chunk_length_le content i)
      mkPacket fileNumber content i buffer :: sendLoop fileNumber content stored rest buffer

/-- `send_file`: `stored` is what the subscripts of `ack_packet.stored_packet` read. -/
def sendFile (fileNumber : Word) (content : List Byte) (stored : Nat → Bool) (buffer : Buffer) :
    List Packet :=
  sendLoop fileNumber content stored (List.range (totalPackets content).toNat) buffer

/-- `ack_packet.stored_packet[i]`; behind the array it reads the stack. -/
def Ack.bit (a : Ack) (stack : Nat → Bool) (i : Nat) : Bool := a.storedPacket.getD i (stack i)

/-! ## 2. The client -/

/-- Where the client stands: in `init_send` before file `next`, at `getAck`, or ended. -/
inductive ClientPc where
  | initSend (next : Fin numFiles)
  | waiting
  | finished
  | failed
  deriving DecidableEq

/-- After a file of `init_send`. -/
def initNext (i : Fin numFiles) : ClientPc :=
  if h : i.1 + 1 < numFiles then .initSend ⟨i.1 + 1, h⟩ else .waiting

/-- `fopen("/files/%06d")`. -/
def openFile (files : Files) (fileNumber : Word) : Option (List Byte) :=
  if h : fileNumber.toNat < numFiles then some (files ⟨fileNumber.toNat, h⟩) else none

/-- The body of the loop in `main`, for an ack that has arrived. -/
def onAck (files : Files) (a : Ack) (stack : Nat → Bool) (buffer : Buffer) :
    ClientPc × List Packet :=
  if a.fileNumber = noAck then (.waiting, [])
  else if a.fileNumber = finish then (.finished, [])
  else match openFile files a.fileNumber with
    | some content => (.waiting, sendFile a.fileNumber content (a.bit stack) buffer)
    | none => (.failed, [])

/-! ## 3. What the client sends -/

/-- A number that fits in 16 bits. -/
theorem word_toNat {k : Nat} (h : k < 65536) : (BitVec.ofNat 16 k).toNat = k := by
  rw [BitVec.toNat_ofNat]
  exact Nat.mod_eq_of_lt h

/-- The number of packets of a file. -/
def numPackets (files : Files) (f : Fin numFiles) : Nat := (totalPackets (files f)).toNat

theorem numPackets_eq {files : Files} {f : Fin numFiles}
    (h : (files f).length / packetSize + 1 < 65536) :
    numPackets files f = (files f).length / packetSize + 1 := by
  unfold numPackets totalPackets
  exact word_toNat h

/-- The packets of files that are all alike. -/
theorem numPackets_replicate (n : Nat) (b : Byte) (f : Fin numFiles) :
    numPackets (fun _ => List.replicate n b) f = (n / packetSize + 1) % 65536 := by
  unfold numPackets totalPackets
  rw [List.length_replicate, BitVec.toNat_ofNat]

/-- The fields of a packet that say what it is a packet of, where file `f` has `n f` packets. -/
structure Header (n : Fin numFiles → Nat) (f : Fin numFiles) (p : Packet) : Prop where
  file : p.fileNumber.toNat = f
  total : p.totalPackets.toNat = n f
  number : p.packetNumber.toNat < n f

/-- A packet of file `f` as the client sends it. -/
structure Genuine (files : Files) (f : Fin numFiles) (p : Packet) : Prop
    extends Header (numPackets files) f p where
  checksum : p.checksum = p.calculatedChecksum
  length_le : p.length.toNat ≤ packetSize
  payload : p.data.take p.length.toNat = chunk (files f) p.packetNumber.toNat

section Genuine

variable {files : Files} {f : Fin numFiles} {content : List Byte} {fileNumber : Word}
  {stored : Nat → Bool} {is : List Nat} {buffer : Buffer} {p : Packet}

theorem mem_sendLoop (h : p ∈ sendLoop fileNumber content stored is buffer) :
    ∃ i ∈ is, stored i = false ∧ ∃ b : Buffer, p = mkPacket fileNumber content i
      (b.fread (chunk content i) (chunk_length_le content i)) := by
  induction is generalizing buffer with
  | nil => cases h
  | cons i is ih =>
    unfold sendLoop at h
    split at h
    · obtain ⟨j, hj, hs, hb⟩ := ih h
      exact ⟨j, List.mem_cons_of_mem i hj, hs, hb⟩
    · rename_i hstored
      rcases List.mem_cons.mp h with rfl | h
      · exact ⟨i, List.mem_cons_self, by simpa using hstored, buffer, rfl⟩
      · obtain ⟨j, hj, hs, hb⟩ := ih h
        exact ⟨j, List.mem_cons_of_mem i hj, hs, hb⟩

theorem sendLoop_complete (fileNumber : Word) (content : List Byte) {i : Nat} (hi : i ∈ is)
    (hs : stored i = false) (buffer : Buffer) :
    ∃ b, mkPacket fileNumber content i b ∈ sendLoop fileNumber content stored is buffer := by
  induction is generalizing buffer with
  | nil => cases hi
  | cons j is ih =>
    unfold sendLoop
    rcases List.mem_cons.mp hi with rfl | hi
    · rw [if_neg (by simp [hs])]
      exact ⟨_, List.mem_cons_self⟩
    · split
      · exact ih hi buffer
      · obtain ⟨b, hb⟩ := ih hi (buffer.fread (chunk content j) (chunk_length_le content j))
        exact ⟨b, List.mem_cons_of_mem _ hb⟩

theorem numPackets_lt (files : Files) (f : Fin numFiles) : numPackets files f < 65536 :=
  (totalPackets (files f)).isLt

theorem chunk_toNat (content : List Byte) (i : Nat) :
    (BitVec.ofNat 16 (chunk content i).length).toNat = (chunk content i).length := by
  have hle := chunk_length_le content i
  unfold packetSize at hle
  exact word_toNat (by omega)

/-- The bytes a packet carries are those of its chunk. -/
theorem mkPacket_take (fileNumber : Word) (content : List Byte) (i : Nat) (buffer : Buffer) :
    let p := mkPacket fileNumber content i
      (buffer.fread (chunk content i) (chunk_length_le content i))
    p.data.take p.length.toNat = chunk content i := by
  show List.take (BitVec.ofNat 16 (chunk content i).length).toNat (_ ++ _) = chunk content i
  rw [chunk_toNat, List.take_left']
  rfl

theorem mkPacket_genuine (hf : fileNumber.toNat = f) {i : Nat} (hi : i < numPackets files f)
    (buffer : Buffer) : Genuine files f (mkPacket fileNumber (files f) i
      (buffer.fread (chunk (files f) i) (chunk_length_le (files f) i))) := by
  have hnum : (BitVec.ofNat 16 i).toNat = i := word_toNat (Nat.lt_trans hi (numPackets_lt files f))
  refine ⟨⟨hf, rfl, ?_⟩, rfl, ?_, ?_⟩
  · show (BitVec.ofNat 16 i).toNat < _
    rw [hnum]
    exact hi
  · show (BitVec.ofNat 16 (chunk (files f) i).length).toNat ≤ _
    rw [chunk_toNat]
    exact chunk_length_le (files f) i
  · refine (mkPacket_take fileNumber (files f) i buffer).trans ?_
    show chunk (files f) i = chunk (files f) (BitVec.ofNat 16 i).toNat
    rw [hnum]

/-- **Every packet of `send_file` is genuine**, and its bit was not set. -/
theorem mem_sendFile (hf : fileNumber.toNat = f)
    (h : p ∈ sendFile fileNumber (files f) stored buffer) :
    Genuine files f p ∧ stored p.packetNumber.toNat = false := by
  obtain ⟨i, hi, hs, b, rfl⟩ := mem_sendLoop h
  have hi : i < numPackets files f := List.mem_range.mp hi
  have hnum : (BitVec.ofNat 16 i).toNat = i := word_toNat (Nat.lt_trans hi (numPackets_lt files f))
  refine ⟨mkPacket_genuine hf hi b, ?_⟩
  show stored (BitVec.ofNat 16 i).toNat = false
  rw [hnum]
  exact hs

/-- **Every packet whose bit is not set is sent.** -/
theorem sendFile_complete (fileNumber : Word) (buffer : Buffer) {i : Nat}
    (hi : i < numPackets files f) (hs : stored i = false) :
    ∃ p ∈ sendFile fileNumber (files f) stored buffer, p.packetNumber.toNat = i := by
  obtain ⟨b, hb⟩ :=
    sendLoop_complete fileNumber (files f) (List.mem_range.mpr hi) hs buffer
  refine ⟨_, hb, ?_⟩
  show (BitVec.ofNat 16 i).toNat = i
  exact word_toNat (Nat.lt_trans hi (numPackets_lt files f))

end Genuine

end InpLabs.Udp
