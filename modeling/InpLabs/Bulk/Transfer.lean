/-
  File:      InpLabs/Bulk/Transfer.lean
  Subject:   Client and server of the two transfers (lab6/others: client.cpp and server.cpp of Star
             and KJL), and the network between them.

  * `Client`: rounds that send every piece that is not acknowledged, and then read what the server
    says until the socket times out; the last response counts, and it may be an old one;
  * `Server`: pieces are collected until there are enough bytes; what is asked for behind the
    bitset is undefined;
  * `transfer`: the datagrams in flight are lost, duplicated and reordered, and `timed` says that
    the client's socket has a time-out. The two programs send the same way, up to `FIN`, which
    KJL's server does not send;
  * `saveStar`, `saveKjl`: what becomes of the pieces.
-/
import InpLabs.Bulk.Archive
import InpLabs.Lib.Channel
import InpLabs.Lib.Lts
import InpLabs.Lib.Map

namespace InpLabs.Bulk

open InpLabs.Lib

/-! ## 1. The client -/

/-- `data_t` of packet 0: the size, and a pointer that is null. -/
def zeroBytes (size : Nat) : Bytes := le 8 size ++ le 8 0

/-- `data_map` before the first round: the size, and the pieces from 1 on. -/
def startMap (payload : Bytes) : List (Nat × Bytes) :=
  (0, zeroBytes payload.length) ::
    (List.range (pieceCount dataSize payload)).map fun i => (i + 1, piece dataSize payload i)

/-- `wrap_send`: the data is put into a packet of zeros. -/
def wrapSend (dataSeq : Nat) (buf : Bytes) : Packet where
  dataSeq := BitVec.ofNat 32 dataSeq
  data := (buf ++ List.replicate dataSize 0).take dataSize
  size := by
    rw [List.length_take, List.length_append, List.length_replicate]
    omega

/-- Where the client is: before a round, in `read_resps`, or ended. -/
inductive ClientPc where
  | sending
  | reading
  | ended
  deriving DecidableEq

structure Client where
  pc : ClientPc
  dataMap : List (Nat × Bytes)
  sRes : Response

def Client.start (payload : Bytes) : Client := ⟨.sending, startMap payload, ⟨0, 0⟩⟩

/-- What a round sends. -/
def Client.round (c : Client) : List Packet :=
  (c.dataMap.filter fun e => !c.sRes.bits.getLsbD e.1).map fun e => wrapSend e.1 e.2

/-- A response is read. -/
def Client.onResponse (c : Client) (r : Response) : Client :=
  { c with
    sRes := r
    pc := if r.dataSeq.toNat = uintMax then .ended else .reading }

/-- The socket times out: what is acknowledged is erased. -/
def Client.onTimeout (c : Client) : Client :=
  let dataMap := c.dataMap.filter fun e => !c.sRes.bits.getLsbD e.1
  { c with
    dataMap := dataMap
    pc := if dataMap = [] then .ended else .sending }

/-! ## 2. The server -/

/-- Where the server is: in its loop, or behind it. -/
inductive ServerPc where
  | receiving
  | finishing
  deriving DecidableEq

structure Server where
  pc : ServerPc
  compSize : Nat
  recvSize : Nat
  dataMap : Map.TreeMap Nat Bytes
  recvbit : Bits

def Server.new : Server := ⟨.receiving, uintMax, 0, ∅, 0⟩

/-- The condition of the loop. -/
def Server.wants (s : Server) : Bool := s.compSize = uintMax || s.recvSize < s.compSize

/-- A packet is put away. -/
def Server.store (s : Server) (p : Packet) : Server :=
  let dataSeq := p.dataSeq.toNat
  let s := { s with recvbit := setBit s.recvbit dataSeq }
  if dataSeq = 0 then { s with compSize := ofLe (p.data.take 8) % 2 ^ 32 }
  else if dataSeq ∈ s.dataMap then s
  else
    { s with
      dataMap := s.dataMap.insert dataSeq p.data
      recvSize := (s.recvSize + dataSize) % 2 ^ 32 }

/-- One round of the loop; none where the bitset is written behind its end. -/
def Server.onPacket (s : Server) (p : Packet) : Option Server :=
  if p.dataSeq.toNat < dataSize * 8 then
    let s := s.store p
    some { s with pc := if s.wants then .receiving else .finishing }
  else none

/-- A response is sent three times. -/
def thrice (r : Response) : Multiset Response := Multiset.replicate 3 r

/-- The response that tells the client what has arrived. -/
def Server.ack (s : Server) : Response := ⟨0, s.recvbit⟩

def Server.fin (s : Server) : Response := ⟨BitVec.ofNat 32 uintMax, s.recvbit⟩

/-! ## 3. What becomes of the pieces -/

/-- The size of `comp_data`; the subtraction is one of `uint32_t`. -/
def compCapacity (compSize : Nat) : Nat :=
  (1 + (compSize + (2 ^ 32 - 1)) % 2 ^ 32 / dataSize) * dataSize

/-- The copies into `comp_data`. -/
def Server.pieces (s : Server) : List (Nat × Bytes) :=
  (s.dataMap.toList.filter fun e => e.1 ≠ 0).map fun e => ((e.1 - 1) * dataSize, e.2)

/-- A compression with its inverse. -/
structure Codec where
  compress : Bytes → Bytes
  decompress : Bytes → Bytes
  decompress_compress : ∀ data, decompress (compress data) = data

/-- `save_to_file` of Star, where `compData` is what `new` returns. -/
def Server.saveStar (s : Server) (codec : Codec) (compData : Bytes) : Option (List File) :=
  let origData := codec.decompress ((copyAll s.pieces compData).take s.compSize)
  records origData.length origData

/-- `save_to_file` of KJL: no compression, the array holds zeros, and the loop goes to its end. -/
def Server.saveKjl (s : Server) : Option (List File) :=
  let compData := copyAll s.pieces (List.replicate (compCapacity s.compSize) 0)
  records compData.length compData

/-! ## 4. The system -/

structure Sys where
  client : Client
  server : Server
  toServer : Multiset Packet
  toClient : Multiset Response

def Sys.start (payload : Bytes) : Sys := ⟨.start payload, .new, 0, 0⟩

inductive Label where
  | round
  | response (r : Response)
  | timeout
  | packet (p : Packet) (ack : Bool)
  | fin (p : Packet)
  | network (e : Channel.Event)

/-- One step. When the server sends an ack depends on the time, which the step chooses. `timed` says
that `set_sockopt` has given the client's socket a time-out; Star has no code for it. -/
inductive Step (timed : Prop) : Sys → Label → Sys → Prop where
  | round {s : Sys} (h : s.client.pc = .sending) :
      Step timed s .round { s with
        client := { s.client with pc := .reading }
        toServer := (s.client.round : Multiset Packet) + s.toServer }
  | response {s : Sys} {r : Response} (h : s.client.pc = .reading) (hr : r ∈ s.toClient) :
      Step timed s (.response r) { s with
        client := s.client.onResponse r
        toClient := s.toClient.erase r }
  | timeout {s : Sys} (htimed : timed) (h : s.client.pc = .reading) :
      Step timed s .timeout { s with client := s.client.onTimeout }
  | packet {s : Sys} {p : Packet} {ack : Bool} {t : Server} (h : s.server.pc = .receiving)
      (hp : p ∈ s.toServer) (ht : s.server.onPacket p = some t) :
      Step timed s (.packet p ack) { s with
        server := t
        toServer := s.toServer.erase p
        toClient := (if ack then thrice t.ack else 0) + s.toClient }
  | fin {s : Sys} {p : Packet} (h : s.server.pc = .finishing) (hp : p ∈ s.toServer) :
      Step timed s (.fin p) { s with
        toServer := s.toServer.erase p
        toClient := thrice s.server.fin + s.toClient }
  | toServer {s : Sys} {e : Channel.Event} {c : Multiset Packet}
      (h : Channel.Step s.toServer e c) : Step timed s (.network e) { s with toServer := c }
  | toClient {s : Sys} {e : Channel.Event} {c : Multiset Response}
      (h : Channel.Step s.toClient e c) : Step timed s (.network e) { s with toClient := c }

/-- The transfer of a string. -/
def transfer (timed : Prop) (payload : Bytes) : Lts Sys Label where
  init s := s = .start payload
  step := Step timed

end InpLabs.Bulk
