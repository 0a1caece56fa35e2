/-
  File:      InpLabs/Vpn/Server.lean
  Subject:   The VPN server (lab8: header.hpp, tunvpn.pub.cpp).

  * `Ip`: an address in network byte order, by its four bytes in memory; `htonl`;
  * `Server`: the address table, the counter and the buffer that both branches of the loop share;
  * `onDatagram`, `onTun`: the two branches; `serve`: one round of the loop, for what has arrived;
  * `serverRuns`: the runs of the server, with the datagrams and packets it writes.
-/
import InpLabs.Lib.Cxx
import InpLabs.Lib.Lts
import Mathlib.Logic.Function.Basic

namespace InpLabs.Vpn

open InpLabs.Lib

/-! ## 1. Addresses -/

/-- A `uint32_t` that holds an address in network byte order: its bytes in memory. -/
structure Ip where
  a : UInt8
  b : UInt8
  c : UInt8
  d : UInt8
  deriving DecidableEq

def Ip.bytes (x : Ip) : Bytes := [x.a, x.b, x.c, x.d]

/-- The address at the front of a piece of memory. -/
def Ip.ofBytes (bs : Bytes) : Ip := ⟨bs.getD 0 0, bs.getD 1 0, bs.getD 2 0, bs.getD 3 0⟩

def htonl (v : UInt32) : Ip :=
  ⟨(v >>> 24).toUInt8, (v >>> 16).toUInt8, (v >>> 8).toUInt8, v.toUInt8⟩

/-- `MYADDR`. -/
def myAddr : UInt32 := 0x0a0000fe

/-- `ADDRBASE`. -/
def addrBase : UInt32 := 0x0a00000a

/-- `BUF_SIZE`. -/
def bufSize : Nat := 1500

/-- `sizeof(struct Packet)`. -/
def packetSize : Nat := 4

/-! ## 2. The buffer -/

abbrev Buffer := { bs : Bytes // bs.length = bufSize }

def Buffer.zeros : Buffer := ⟨List.replicate bufSize 0, List.length_replicate⟩

/-- What arrives is put at the front, as far as there is room; the rest keeps what it held. -/
def Buffer.fill (buffer : Buffer) (data : Bytes) : Buffer :=
  ⟨data.take bufSize ++ buffer.1.drop (data.take bufSize).length, by
    have hle := List.length_take_le bufSize data
    have hb := buffer.2
    rw [List.length_append, List.length_drop]
    omega⟩

/-- `((struct iphdr *)buffer)->daddr`. -/
def Buffer.daddr (buffer : Buffer) : Ip := Ip.ofBytes (buffer.1.drop 16)

/-! ## 3. The server -/

section Server

variable {E : Type*}

/-- The server's variables; `E` are the endpoints of UDP, `struct sockaddr_in`. -/
structure Server (E : Type*) where
  clientAddr : Ip → Option E
  clientNum : UInt32
  buffer : Buffer

/-- The process before its loop. -/
def Server.new : Server E := ⟨fun _ => none, 0, .zeros⟩

/-- What arrives: a datagram at the socket, or a packet at the tun device. -/
inductive Event (E : Type*) where
  | datagram (udpAddr : E) (data : Bytes)
  | packet (data : Bytes)

def Event.data : Event E → Bytes
  | .datagram _ data => data
  | .packet data => data

/-- What the server writes. -/
inductive Output (E : Type*) where
  | sendto (endpoint : E) (data : Bytes)
  | tunWrite (data : Bytes)

/-- The address the next request is answered with. -/
def Server.virtualIp (s : Server E) : Ip := htonl (addrBase + s.clientNum)

/-- The answer to a configuration request. -/
def Server.configure (s : Server E) (udpAddr : E) : Server E × List (Output E) :=
  ({ s with
      clientAddr := Function.update s.clientAddr s.virtualIp (some udpAddr)
      clientNum := s.clientNum + 1 },
    [.sendto udpAddr s.virtualIp.bytes])

/-- The first `n` bytes of the buffer are sent to whom the table says. -/
def Server.forward (s : Server E) (n : Nat) : Server E × List (Output E) :=
  match s.clientAddr s.buffer.daddr with
  | some client => (s, [.sendto client (s.buffer.1.take n)])
  | none => (s, [])

/-- `recvfrom` or `read` has put what arrived into the buffer. -/
def Server.recv (s : Server E) (data : Bytes) : Server E := { s with buffer := s.buffer.fill data }

/-- The branch for the socket. -/
def Server.onDatagram (s : Server E) (udpAddr : E) (data : Bytes) : Server E × List (Output E) :=
  let n := (data.take bufSize).length
  let s := s.recv data
  if n = packetSize then
    if Ip.ofBytes s.buffer.1 = ⟨0, 0, 0, 0⟩ then s.configure udpAddr
    else (s, [])
  else if s.buffer.daddr = htonl myAddr then (s, [.tunWrite (s.buffer.1.take n)])
  else s.forward n

/-- The branch for the tun device. -/
def Server.onTun (s : Server E) (data : Bytes) : Server E × List (Output E) :=
  let n := (data.take bufSize).length
  let s := s.recv data
  s.forward n

def Server.serve (s : Server E) : Event E → Server E × List (Output E)
  | .datagram udpAddr data => s.onDatagram udpAddr data
  | .packet data => s.onTun data

/-- A round of the loop: what arrived and what was written. -/
structure Round (E : Type*) where
  event : Event E
  outputs : List (Output E)

/-- The runs of the server. -/
def serverRuns (E : Type*) : Lts (Server E) (Round E) where
  init s := s = .new
  step s l t := s.serve l.event = (t, l.outputs)

end Server

end InpLabs.Vpn
