/-
  File:      InpLabs/Vpn/System.lean
  Subject:   The VPN clients (lab8: tunvpn.pub.cpp), the server and the network between them.

  * `ClientPc`, `Tunnel`: where a client is; once it is configured, its device `tun0`;
  * `World`, `Step`, `vpn`: one server, a client for every `ι`, and the datagrams in flight. The
    network loses, duplicates and reorders them; anybody may send anything to the server;
  * `Accepted`: the steps after which no process has ended because its device refused a packet.
-/
import InpLabs.Lib.Channel
import InpLabs.Vpn.Routing
import Mathlib.Logic.Embedding.Basic

namespace InpLabs.Vpn

open InpLabs.Lib

/-! ## 1. The client -/

/-- `tun0` of a client in its loop: its address, the buffer, and what was written to the device, the
    last packet first. -/
structure Tunnel where
  virtualIp : Ip
  buffer : Buffer
  written : List Bytes

inductive ClientPc where
  /-- Before the request is sent. -/
  | start
  /-- In the `recvfrom` for the configuration. -/
  | waiting
  | up (tun : Tunnel)

/-- `recvfrom(sock, &config, sizeof(config), ..)` into the `config` that was sent. -/
def recvConfig (data : Bytes) : Ip :=
  Ip.ofBytes (data.take packetSize ++ request.drop (data.take packetSize).length)

/-- The device is set up; the length of what was received is not looked at. -/
def Tunnel.setUp (data : Bytes) : Tunnel := ⟨recvConfig data, .zeros, []⟩

/-- The branch for the socket. -/
def Tunnel.onDatagram (t : Tunnel) (data : Bytes) : Tunnel :=
  let n := (data.take bufSize).length
  let t := { t with buffer := t.buffer.fill data }
  if t.buffer.daddr ≠ t.virtualIp then t
  else { t with written := t.buffer.1.take n :: t.written }

/-- The branch for the device, with the datagram that is sent to the server. -/
def Tunnel.onTun (t : Tunnel) (data : Bytes) : Tunnel × Bytes :=
  let n := (data.take bufSize).length
  let t := { t with buffer := t.buffer.fill data }
  (t, t.buffer.1.take n)

/-! ## 2. The system -/

section System

variable {ι E : Type*} [DecidableEq ι] [DecidableEq E]

/-- The processes, and the datagrams in flight with the endpoint they come from or go to. -/
structure World (ι E : Type*) where
  server : Server E
  client : ι → ClientPc
  toServer : Multiset (E × Bytes)
  toClient : Multiset (E × Bytes)

def World.start : World ι E := ⟨.new, fun _ => .start, 0, 0⟩

/-- What a step does. -/
inductive Label (ι E : Type*) where
  | request (c : ι)
  | configure (c : ι) (data : Bytes)
  | clientDatagram (c : ι) (data : Bytes)
  | clientPacket (c : ι) (data : Bytes)
  | other (udpAddr : E) (data : Bytes)
  | serve (event : Event E)
  | network (e : Channel.Event)

/-- The datagrams among what the server writes. -/
def sent (outputs : List (Output E)) : List (E × Bytes) :=
  outputs.filterMap fun
    | .sendto endpoint data => some (endpoint, data)
    | .tunWrite _ => none

/-- Client `c` goes on to `pc`. -/
def World.clientMoves (w : World ι E) (c : ι) (pc : ClientPc) : World ι E :=
  { w with client := Function.update w.client c pc }

/-- The server serves an event and sends. -/
def World.serverMoves (w : World ι E) (event : Event E) : World ι E :=
  { w with
    server := (w.server.serve event).1
    toClient := (sent (w.server.serve event).2 : Multiset (E × Bytes)) + w.toClient }

/-- One step; `ep` are the endpoints of the clients. A client's socket is connected, so all it
    receives is from the server. -/
inductive Step (ep : ι ↪ E) : World ι E → Label ι E → World ι E → Prop where
  | request {w : World ι E} {c : ι} (h : w.client c = .start) :
      Step ep w (.request c)
        { w.clientMoves c .waiting with toServer := (ep c, request) ::ₘ w.toServer }
  | configure {w : World ι E} {c : ι} {data : Bytes} (h : w.client c = .waiting)
      (hd : (ep c, data) ∈ w.toClient) :
      Step ep w (.configure c data)
        { w.clientMoves c (.up (.setUp data)) with toClient := w.toClient.erase (ep c, data) }
  | clientDatagram {w : World ι E} {c : ι} {t : Tunnel} {data : Bytes} (h : w.client c = .up t)
      (hd : (ep c, data) ∈ w.toClient) :
      Step ep w (.clientDatagram c data)
        { w.clientMoves c (.up (t.onDatagram data)) with
          toClient := w.toClient.erase (ep c, data) }
  | clientPacket {w : World ι E} {c : ι} {t : Tunnel} {data : Bytes} (h : w.client c = .up t)
      (hd : IpPacket data) :
      Step ep w (.clientPacket c data)
        { w.clientMoves c (.up (t.onTun data).1) with
          toServer := (ep c, (t.onTun data).2) ::ₘ w.toServer }
  | other {w : World ι E} {udpAddr : E} {data : Bytes} :
      Step ep w (.other udpAddr data) { w with toServer := (udpAddr, data) ::ₘ w.toServer }
  | datagram {w : World ι E} {udpAddr : E} {data : Bytes} (hd : (udpAddr, data) ∈ w.toServer) :
      Step ep w (.serve (.datagram udpAddr data))
        ({ w with toServer := w.toServer.erase (udpAddr, data) }.serverMoves
          (.datagram udpAddr data))
  | packet {w : World ι E} {data : Bytes} (hd : IpPacket data) :
      Step ep w (.serve (.packet data)) (w.serverMoves (.packet data))
  | toServer {w : World ι E} {e : Channel.Event} {c : Multiset (E × Bytes)}
      (h : Channel.Step w.toServer e c) : Step ep w (.network e) { w with toServer := c }
  | toClient {w : World ι E} {e : Channel.Event} {c : Multiset (E × Bytes)}
      (h : Channel.Step w.toClient e c) : Step ep w (.network e) { w with toClient := c }

def vpn (ep : ι ↪ E) : Lts (World ι E) (Label ι E) where
  init w := w = .start
  step := Step ep

/-- The devices accept what a step writes to them. `Step` goes on in any case; a process ends with
    `errquit` where a device does not. -/
def Accepted (accepts : Bytes → Prop) (w : World ι E) : Label ι E → Prop
  | .clientDatagram c data => ∀ t d, w.client c = .up t →
      (t.onDatagram data).written = d :: t.written → accepts d
  | .serve event => ∀ d, .tunWrite d ∈ (w.server.serve event).2 → accepts d
  | _ => True

end System

end InpLabs.Vpn
