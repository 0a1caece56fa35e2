/-
  File:      InpLabs/Udp/Server.lean
  Subject:   The receiving side of the file transfer (lab6: server.cpp).

  * `Server`: the four arrays, the window, and the call at which the process waits;
  * `receive`: the body of the inner loop for one packet. An index outside its array, and a string
    longer than the packet's data, are faults;
  * `leave`: the window update behind the inner loop, `requests`: the acks that follow it;
  * `onPacket`, `onTimeout`: what happens when `recvfrom` returns.
-/
import InpLabs.Udp.Packet
import Mathlib.Logic.Function.Basic
import Mathlib.Data.List.FinRange

namespace InpLabs.Udp

open InpLabs.Lib

/-! ## 1. The state -/

/-- Where the server waits: at the first `recvfrom`, at the second, or in the loop that sends
    `FINISH` for ever. -/
inductive ServerPc where
  | outer
  | inner
  | finishing
  deriving DecidableEq

structure Server where
  storedPacket : Fin numFiles → List Bool
  datas : Fin numFiles → List (List Byte)
  expanded : Fin numFiles → Bool
  fileSaved : Fin (numFiles + 1) → Bool
  startFile : Nat
  endFile : Nat
  pc : ServerPc

/-- The process at its first `recvfrom`. -/
def Server.new : Server where
  storedPacket _ := []
  datas _ := []
  expanded _ := false
  fileSaved _ := false
  startFile := 0
  endFile := 0 + initialWinSize
  pc := .outer

/-- The array that was read past its end. -/
inductive Fault where
  | fileNumber
  | packetNumber
  | length
  deriving DecidableEq

/-- A call of `store_file`: the number of the file and the bytes written. -/
abbrev StoreFile := Fin numFiles × List Byte

/-- How the body of the inner loop ends: with `break`, or at the second `recvfrom`. -/
inductive Next where
  | leave
  | again
  deriving DecidableEq

/-! ## 2. A packet -/

/-- `std::vector::resize`. -/
def resize {α : Type*} (l : List α) (n : Nat) (value : α) : List α :=
  l.take n ++ List.replicate (n - l.length) value

/-- The arrays of the file get their size from the first packet. -/
def Server.expand (s : Server) (f : Fin numFiles) (totalPackets : Word) : Server :=
  if s.expanded f then s
  else
    { s with
      storedPacket :=
        Function.update s.storedPacket f (resize (s.storedPacket f) totalPackets.toNat false)
      datas := Function.update s.datas f (resize (s.datas f) totalPackets.toNat [])
      expanded := Function.update s.expanded f true }

/-- The data of packet `i` of a file. -/
def Server.put (s : Server) (f : Fin numFiles) (i : Nat) (data : List Byte) : Server :=
  { s with
    datas := Function.update s.datas f ((s.datas f).set i data)
    storedPacket := Function.update s.storedPacket f ((s.storedPacket f).set i true) }

/-- The packet is stored if its slot is empty. -/
def Server.store (s : Server) (f : Fin numFiles) (p : Packet) : Except Fault Server :=
  match (s.storedPacket f)[p.packetNumber.toNat]? with
  | none => .error .packetNumber
  | some true => .ok s
  | some false =>
    if (s.datas f).length ≤ p.packetNumber.toNat then .error .packetNumber
    else if packetSize < p.length.toNat then .error .length
    else .ok (s.put f p.packetNumber.toNat (p.data.take p.length.toNat))

/-- The vectors of a file that has been written are cleared. -/
def Server.save (s : Server) (f : Fin numFiles) : Server :=
  { s with
    storedPacket := Function.update s.storedPacket f []
    datas := Function.update s.datas f []
    fileSaved := Function.update s.fileSaved f.castSucc true }

/-- The file is written if all its packets are there. -/
def Server.saveIfComplete (s : Server) (f : Fin numFiles) : Server × Next × List StoreFile :=
  if (s.storedPacket f).all id then (s.save f, .leave, [(f, (s.datas f).flatten)])
  else (s, .again, [])

/-- The body of the inner loop. -/
def Server.receive (s : Server) (p : Packet) :
    Except Fault (Server × Next × List StoreFile) :=
  if p.checksum ≠ p.calculatedChecksum then .ok (s, .leave, [])
  else if h : p.fileNumber.toNat < numFiles then
    let f : Fin numFiles := ⟨p.fileNumber.toNat, h⟩
    let s := s.expand f p.totalPackets
    if (s.storedPacket f).isEmpty then .ok (s, .leave, [])
    else (s.store f p).map (Server.saveIfComplete · f)
  else .error .fileNumber

/-! ## 3. The acks -/

/-- The first file from `startFile` on that is not saved; the array has one entry more than there
    are files. -/
def Server.firstUnsaved (s : Server) : Option (Fin (numFiles + 1)) :=
  (List.finRange (numFiles + 1)).find? fun i => s.startFile ≤ i && !s.fileSaved i

def Server.updateWindow (s : Server) : Server :=
  match s.firstUnsaved with
  | some i =>
    { s with
      startFile := i
      endFile := if numFiles ≤ i + initialWinSize then numFiles else i + initialWinSize }
  | none => s

/-- Behind the inner loop. -/
def Server.leave (s : Server) : Server :=
  let s := s.updateWindow
  { s with pc := if s.startFile = s.endFile then .finishing else .outer }

/-- The ack for a file. Behind the end of a vector that is not empty it reads whatever is there. -/
def Server.ack (s : Server) (junk : Fin numFiles → Nat → Bool) (f : Fin numFiles) : Ack where
  fileNumber := BitVec.ofNat 16 f
  storedPacket := (List.range maxPackets).map fun j =>
    if (s.storedPacket f).isEmpty then false else (s.storedPacket f).getD j (junk f j)
  size := by rw [List.length_map, List.length_range]

/-- The files of the window that are not saved. -/
def Server.unsaved (s : Server) : List (Fin numFiles) :=
  (List.finRange numFiles).filter fun f =>
    s.startFile ≤ f && f < s.endFile && !s.fileSaved f.castSucc

/-- The acks sent on the way to the first `recvfrom`. -/
def Server.requests (s : Server) (junk : Fin numFiles → Nat → Bool) : List Ack :=
  match s.pc with
  | .outer => s.unsaved.map (s.ack junk)
  | _ => []

/-- The ack that ends the transfer. -/
def finishAck : Ack where
  fileNumber := finish
  storedPacket := List.replicate maxPackets false
  size := List.length_replicate

/-! ## 4. The two loops -/

/-- Where the server waits after the body of the inner loop. -/
def Server.proceed : Server × Next × List StoreFile → Server × List StoreFile
  | (s, .leave, saved) => (s.leave, saved)
  | (s, .again, saved) => ({ s with pc := .inner }, saved)

/-- A packet has arrived. -/
def Server.onPacket (s : Server) (p : Packet) : Except Fault (Server × List StoreFile) :=
  (s.receive p).map Server.proceed

/-- No packet has arrived in time, and the acks that are sent. At the first `recvfrom` the loop
    starts again; only the second one ends the inner loop. -/
def Server.onTimeout (s : Server) (junk : Fin numFiles → Nat → Bool) : Server × List Ack :=
  match s.pc with
  | .inner => (s.leave, s.leave.requests junk)
  | _ => (s, [])

end InpLabs.Udp
