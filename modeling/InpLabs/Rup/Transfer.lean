/-
  File:      InpLabs/Rup/Transfer.lean
  Subject:   Client and server of the transfer of packed chunks (lab6/others/Sean: client.cpp and
             server.cpp), and the network between them.

  * `Files.rup`: the client's array of packets, with zeros where it has put nothing;
  * `Client`: it announces the metadata, sends every chunk once, and then goes round, over those
    that are not acknowledged. The loop that skips the others is not bounded by `chunks`;
  * `Server`: chunks are unpacked as they come, files are saved when all their chunks are there,
    as far as `idx2file` knows, and the rest at the end. `rum->chunks` is not initialised;
  * `transfer`: the datagrams in flight are lost, duplicated and reordered.
-/
import InpLabs.Rup.Layout
import InpLabs.Lib.Channel
import InpLabs.Lib.Lts
import Mathlib

namespace InpLabs.Rup

open InpLabs.Lib

/-- `RUP`, as the client sends it. -/
structure Packet where
  index : Nat
  content : Bytes
  deriving DecidableEq

/-- `RUP`, as the server sends it: the content is a set of bits, one for each packet. -/
structure Status where
  index : Int
  bits : Finset Nat
  deriving DecidableEq

/-! ## 1. The client -/

/-- `rup`, with all that is ever put into it. -/
def Files.rup (files : Files) (k : Nat) : Packet :=
  if k < files.chunks then ⟨k, packChunk (files.chunk k)⟩
  else if k = 10001 ∨ k = 10002 then ⟨k, piece chunkPkt files.rumBytes (k - 10001)⟩
  else ⟨0, List.replicate chunkPkt 0⟩

/-- Where the client is: at one of the twenty packets of the metadata, in the first round, or in the
    main loop. -/
inductive ClientPc where
  | announce (n : Nat)
  | first (k : Nat)
  | round (k : Nat)
  | ended
  deriving DecidableEq

structure Client where
  pc : ClientPc
  completed : Finset Nat

def Client.start : Client := ⟨.announce 0, ∅⟩

theorem exists_missing (completed : Finset Nat) (k : Nat) : ∃ j, k ≤ j ∧ j ∉ completed := by
  obtain ⟨j, hj⟩ := Infinite.exists_notMem_finset (completed ∪ Finset.range k)
  rw [Finset.mem_union, not_or, Finset.mem_range, Nat.not_lt] at hj
  exact ⟨j, hj.2, hj.1⟩

/-- `while (completed[k]) k++;` -/
def skip (completed : Finset Nat) (k : Nat) : Nat := Nat.find (exists_missing completed k)

/-- The two loops, at the next `k`. -/
def roundAt (chunks k : Nat) : ClientPc := .round (if k < chunks then k else 0)

/-- A pass of the main loop, after the sending: `late` says that it was time to send, without which
    `k` is set back. A status that has come is read; its index is 0, or says that all is done. -/
def Client.pass (c : Client) (chunks k : Nat) (late : Bool) (status : Option Status) : Client :=
  let k := skip c.completed k
  let pc := roundAt chunks (if late then k + 1 else k)
  match status with
  | none => { c with pc := pc }
  | some r =>
    if r.index = -42 then { c with pc := .ended }
    else { pc := pc, completed := c.completed ∪ r.bits }

/-! ## 2. The server -/

structure Server where
  running : Bool
  completed : Finset Nat
  rum : Bytes
  bufFile : Nat → UInt8
  idx2file : Nat → Nat × Nat
  file2rem : Nat → Int
  file2pos : Nat → Nat
  index : Int
  saved : Nat → Option Bytes

/-- Before the loop; `chunks` is what `new` finds in memory. -/
def Server.new (chunks : Nat) : Server where
  running := true
  completed := ∅
  rum := le 2 chunks ++ List.replicate (2 * chunkPkt - 2) 0
  bufFile _ := 0
  idx2file _ := (0, 0)
  file2rem _ := 0
  file2pos _ := 0
  index := 0
  saved _ := none

/-- `rus` -/
def Server.status (s : Server) : Status := ⟨s.index, s.completed⟩

/-- A file is written. -/
def Server.save (s : Server) (f : Nat) : Server :=
  let bytes := (List.range (rumSize s.rum f)).map fun i => s.bufFile (s.file2pos f + i)
  { s with saved := Function.update s.saved f (some bytes) }

/-- A packet of the metadata; when both are there, the files get their places. -/
def Server.onMetadata (s : Server) (p : Packet) : Server :=
  let s := { s with rum := overwrite s.rum ((p.index - 10001) * chunkPkt) p.content }
  if 10001 ∈ s.completed ∧ 10002 ∈ s.completed then
    let l := layout (rumSize s.rum)
    { s with idx2file := l.idx2file, file2rem := l.file2rem, file2pos := l.file2pos }
  else s

/-- The loop that unpacks. -/
def Server.decompress (s : Server) (p : Packet) : Server :=
  let start := p.index * chunkBuf
  { s with
    bufFile := fun i =>
      if start ≤ i ∧ i < start + chunkBuf then (unpackChunk p.content).getD (i - start) 0
      else s.bufFile i }

/-- One pass of the loop over `idx2file[index]`; `f` is the number of the file, and one more. -/
def Server.countDown (s : Server) (f : Nat) : Server :=
  if f = 0 then s
  else
    let s := { s with file2rem := Function.update s.file2rem (f - 1) (s.file2rem (f - 1) - 1) }
    if s.file2rem (f - 1) = 0 then s.save (f - 1) else s

/-- Behind the loop: what has not been counted down is saved. -/
def Server.finish (s : Server) : Server :=
  (List.range 1001).foldl (fun s i => if s.file2rem i ≠ 0 then s.save i else s)
    { s with running := false }

/-- A packet with its chunk, where it was not there yet. -/
def Server.onChunk (s : Server) (p : Packet) : Server :=
  let s := s.decompress p
  let s := s.countDown (s.idx2file p.index).1
  s.countDown (s.idx2file p.index).2

/-- A datagram, and what is sent for it. -/
def Server.onPacket (s : Server) (p : Packet) : Server × Multiset Status :=
  if p.index ∈ s.completed then (s, 0)
  else
    let s := { s with completed := insert p.index s.completed }
    let rem : Int := rumChunks s.rum + 2 - s.completed.card
    if 10000 < p.index then (s.onMetadata p, 0)
    else
      let s := s.onChunk p
      if rem = 6 then
        let s := { s with index := -42 }
        (s, Multiset.replicate 10 s.status)
      else if rem = 0 then (s.finish, 0)
      else (s, 0)

/-! ## 3. The system -/

structure Sys where
  client : Client
  server : Server
  toServer : Multiset Packet
  toClient : Multiset Status

inductive Label where
  | announce
  | first
  | round (late : Bool) (status : Option Status)
  | status
  | packet (p : Packet)
  | network (e : Channel.Event)

/-- One step. When the client sends and the server reports depends on the time, which the step
    chooses. The server knows no client before the first packet. -/
inductive Step (files : Files) : Sys → Label → Sys → Prop where
  | announce {s : Sys} {n : Nat} (h : s.client.pc = .announce n) :
      Step files s .announce { s with
        client := { s.client with pc := if n + 1 = 20 then .first 0 else .announce (n + 1) }
        toServer := files.rup (10001 + n / 10) ::ₘ s.toServer }
  | first {s : Sys} {k : Nat} (h : s.client.pc = .first k) :
      Step files s .first { s with
        client := { s.client with
          pc := if k + 1 < files.chunks then .first (k + 1) else .round 0 }
        toServer := files.rup k ::ₘ s.toServer }
  | quiet {s : Sys} {k : Nat} {late : Bool} (h : s.client.pc = .round k) :
      Step files s (.round late none) { s with
        client := s.client.pass files.chunks k late none
        toServer := (if late then {files.rup (skip s.client.completed k)} else 0) + s.toServer }
  | heard {s : Sys} {k : Nat} {late : Bool} {r : Status} (h : s.client.pc = .round k)
      (hr : r ∈ s.toClient) :
      Step files s (.round late (some r)) { s with
        client := s.client.pass files.chunks k late (some r)
        toServer := (if late then {files.rup (skip s.client.completed k)} else 0) + s.toServer
        toClient := s.toClient.erase r }
  | status {s : Sys} (h : s.server.running = true) (hc : s.server.completed ≠ ∅) :
      Step files s .status { s with toClient := s.server.status ::ₘ s.toClient }
  | packet {s : Sys} {p : Packet} (h : s.server.running = true) (hp : p ∈ s.toServer) :
      Step files s (.packet p) { s with
        server := (s.server.onPacket p).1
        toServer := s.toServer.erase p
        toClient := (s.server.onPacket p).2 + s.toClient }
  | toServer {s : Sys} {e : Channel.Event} {c : Multiset Packet}
      (h : Channel.Step s.toServer e c) : Step files s (.network e) { s with toServer := c }
  | toClient {s : Sys} {e : Channel.Event} {c : Multiset Status}
      (h : Channel.Step s.toClient e c) : Step files s (.network e) { s with toClient := c }

/-- The transfer of some files. -/
def transfer (files : Files) (garbage : Nat) : Lts Sys Label where
  init s := s = ⟨.start, .new garbage, 0, 0⟩
  step := Step files

end InpLabs.Rup
