/-
  File:      InpLabs/Udp/Chunking.lean
  Subject:   **Which files the packets of `send_file` cover** (lab6: client.cpp).

  * `sendFileT`: `send_file` once more, with its subscripts of `ack_packet.stored_packet`. An index
    outside the bitmap makes what follows undefined;
  * `Covers`: the packets are enough for the file, they make it up, and each of them can be asked
    for;
  * `covers_iff`: so it is exactly for the files of fewer than 48 times 1200 bytes.
-/
import InpLabs.Lib.Traced
import InpLabs.Udp.System

namespace InpLabs.Udp

open InpLabs.Lib Traced

/-! ## 1. Sending with subscripts -/

/-- The loop of `send_file` over the packet numbers that are left. -/
def sendLoopT (fileNumber : Word) (content : List Byte) (a : Ack) :
    List Nat → Buffer → Traced Nat (List Packet)
  | [], _ => pure []
  | i :: rest, buffer => do
    let stored ← touch i (i < maxPackets) (a.storedPacket.getD i false)
    if stored then sendLoopT fileNumber content a rest buffer
    else
      let buffer := buffer.fread (chunk content i) (chunk_length_le content i)
      let packets ← sendLoopT fileNumber content a rest buffer
      pure (mkPacket fileNumber content i buffer :: packets)

def sendFileT (fileNumber : Word) (content : List Byte) (a : Ack) (buffer : Buffer) :
    Traced Nat (List Packet) :=
  sendLoopT fileNumber content a (List.range (totalPackets content).toNat) buffer

section Subscripts

variable {fileNumber : Word} {content : List Byte} {a : Ack} {is : List Nat} {buffer : Buffer}

/-- The loop reads one bit for every packet number. -/
theorem sendLoopT_all : (sendLoopT fileNumber content a is buffer).All (· < maxPackets) ↔
    ∀ i ∈ is, i < maxPackets := by
  induction is generalizing buffer with
  | nil =>
    refine iff_of_true all_pure fun i hi => ?_
    cases hi
  | cons i is ih =>
    unfold sendLoopT
    rw [all_touch_bind (fun h => decide_eq_true h), List.forall_mem_cons]
    refine and_congr_right fun _ => ?_
    split
    · exact ih
    · rw [all_bind, and_iff_left fun _ _ => all_pure]
      exact ih

/-- With all indices inside, it sends what `sendLoop` sends. -/
theorem sendLoopT_eq (stack : Nat → Bool) (h : ∀ i ∈ is, i < maxPackets) :
    (sendLoopT fileNumber content a is buffer).Yields (· < maxPackets)
      (· = sendLoop fileNumber content (a.bit stack) is buffer) := by
  induction is generalizing buffer with
  | nil => exact yields_pure rfl
  | cons i is ih =>
    obtain ⟨hi, his⟩ := List.forall_mem_cons.mp h
    have hbit : a.bit stack i = a.storedPacket.getD i false := by
      have hlen : i < a.storedPacket.length := a.size.symm ▸ hi
      simp [Ack.bit, hlen]
    unfold sendLoopT sendLoop
    rw [hbit]
    have hread : (touch i (decide (i < maxPackets)) (a.storedPacket.getD i false)).Yields
        (· < maxPackets) (· = a.storedPacket.getD i false) :=
      yields_touch hi (decide_eq_true hi) rfl
    refine hread.bind ?_
    rintro _ rfl
    split
    · exact ih his
    · refine (ih his).bind ?_
      rintro _ rfl
      exact yields_pure rfl

/-! ## 2. What is sent -/

/-- The numbers of the packets that are sent, in order: those whose bit is not set. -/
theorem sendLoop_numbers {stored : Nat → Bool} (h : ∀ i ∈ is, i < 65536) :
    (sendLoop fileNumber content stored is buffer).map (·.packetNumber.toNat) =
      is.filter fun i => !stored i := by
  induction is generalizing buffer with
  | nil => rfl
  | cons i is ih =>
    obtain ⟨hi, his⟩ := List.forall_mem_cons.mp h
    unfold sendLoop
    cases hs : stored i with
    | true => simpa [hs] using ih his
    | false =>
      have hnum : (BitVec.ofNat 16 i).toNat = i := word_toNat hi
      simpa [hs, mkPacket, hnum] using ih his

/-- The bytes a packet carries. -/
def Packet.payload (p : Packet) : List Byte := p.data.take p.length.toNat

theorem mkPacket_payload (fileNumber : Word) (content : List Byte) (i : Nat) (buffer : Buffer) :
    (mkPacket fileNumber content i
      (buffer.fread (chunk content i) (chunk_length_le content i))).payload = chunk content i :=
  mkPacket_take fileNumber content i buffer

/-- Their payloads are the chunks of the file. -/
theorem sendLoop_payloads {stored : Nat → Bool} :
    (sendLoop fileNumber content stored is buffer).flatMap (·.payload) =
      ((is.filter fun i => !stored i).map (chunk content)).flatten := by
  induction is generalizing buffer with
  | nil => rfl
  | cons i is ih =>
    unfold sendLoop
    cases hs : stored i with
    | true => simpa [hs] using ih
    | false => simpa [hs, mkPacket_payload] using ih

end Subscripts

/-! ## 3. Covering a file -/

/-- An ack without a bit set. -/
def Ack.clear (fileNumber : Word) : Ack :=
  ⟨fileNumber, List.replicate maxPackets false, List.length_replicate⟩

/-- An ack that asks for packet `i` alone. -/
def Ack.ask (fileNumber : Word) (i : Nat) : Ack :=
  ⟨fileNumber, (List.replicate maxPackets true).set i false, by simp⟩

/-- The packets of a file are enough for it; no subscript is outside the bitmap; on an ack without
    a bit set they make the file up, in the order of their numbers; and an ack may ask for each of
    them alone. -/
structure Covers (content : List Byte) : Prop where
  capacity : content.length < (totalPackets content).toNat * packetSize
  indices : ∀ fileNumber a buffer,
    (sendFileT fileNumber content a buffer).All (· < maxPackets)
  whole : ∀ fileNumber buffer, ∃ ps,
    (sendFileT fileNumber content (.clear fileNumber) buffer).result = some ps ∧
      ps.map (·.packetNumber.toNat) = List.range (totalPackets content).toNat ∧
      ps.flatMap (·.payload) = content
  requests : ∀ fileNumber buffer, ∀ i < (totalPackets content).toNat, ∃ p,
    (sendFileT fileNumber content (.ask fileNumber i) buffer).result = some [p] ∧
      p.packetNumber.toNat = i

section Covers

variable {content : List Byte} {fileNumber : Word} {a : Ack} {buffer : Buffer}

theorem length_lt_total (h : content.length < maxPackets * packetSize) :
    (totalPackets content).toNat ≤ maxPackets ∧
      content.length < (totalPackets content).toNat * packetSize := by
  have hdiv : content.length / packetSize < maxPackets := Nat.div_lt_of_lt_mul (by
    rw [Nat.mul_comm]
    exact h)
  have htotal : (totalPackets content).toNat = content.length / packetSize + 1 := by
    unfold totalPackets
    rw [BitVec.toNat_ofNat, Nat.mod_eq_of_lt (Nat.lt_of_le_of_lt hdiv (by decide))]
  rw [htotal, Nat.succ_mul]
  exact ⟨hdiv, Nat.lt_div_mul_add (by decide)⟩

theorem Covers.length_lt (h : Covers content) : content.length < maxPackets * packetSize := by
  have hall := sendLoopT_all.mp
    (h.indices 0 (.clear 0) ⟨List.replicate packetSize 0, List.length_replicate⟩)
  have hle : (totalPackets content).toNat ≤ maxPackets := by
    by_contra hlt
    exact Nat.lt_irrefl _ (hall maxPackets (List.mem_range.mpr (not_le.mp hlt)))
  exact Nat.lt_of_lt_of_le h.capacity (Nat.mul_le_mul_right _ hle)

/-- Where the file has at most 48 packets, the subscripts change nothing. -/
theorem sendFileT_result (h : (totalPackets content).toNat ≤ maxPackets) :
    (sendFileT fileNumber content a buffer).result =
      some (sendFile fileNumber content (a.bit fun _ => false) buffer) :=
  (sendLoopT_eq _ fun _ hi => Nat.lt_of_lt_of_le (List.mem_range.mp hi) h).result_eq

theorem ask_filter {i n : Nat} (hi : i < n) (hn : n ≤ maxPackets) :
    ((List.range n).filter fun j => !(Ack.ask fileNumber i).bit (fun _ => false) j) = [i] := by
  have hbit : ∀ j ∈ List.range n,
      (!(Ack.ask fileNumber i).bit (fun _ => false) j) = decide (j = i) := by
    intro j hj
    have hj' : j < maxPackets := Nat.lt_of_lt_of_le (List.mem_range.mp hj) hn
    by_cases h : i = j
    · subst h
      simp [Ack.bit, Ack.ask, List.getD_eq_getElem?_getD, hj']
    · simp [Ack.bit, Ack.ask, List.getD_eq_getElem?_getD, hj', h, Ne.symm h]
  rw [List.filter_congr hbit, List.filter_eq,
    List.count_eq_one_of_mem List.nodup_range (List.mem_range.mpr hi), List.replicate_one]

end Covers

/-- **The packets cover a file** exactly when it has fewer than 48 times 1200 bytes. -/
theorem covers_iff (content : List Byte) :
    Covers content ↔ content.length < maxPackets * packetSize := by
  refine ⟨Covers.length_lt, fun h => ?_⟩
  obtain ⟨hle, hcap⟩ := length_lt_total h
  have hinside : ∀ i ∈ List.range (totalPackets content).toNat, i < maxPackets := fun _ hi =>
    Nat.lt_of_lt_of_le (List.mem_range.mp hi) hle
  have hword : ∀ i ∈ List.range (totalPackets content).toNat, i < 65536 := fun i hi =>
    Nat.lt_trans (hinside i hi) (by decide)
  refine ⟨hcap, fun _ _ _ => sendLoopT_all.mpr hinside, fun fileNumber buffer => ?_,
    fun fileNumber buffer i hi => ?_⟩
  · have hclear : ∀ i ∈ List.range (totalPackets content).toNat,
        (!(Ack.clear fileNumber).bit (fun _ => false) i) = true := by
      intro i hi
      simp [Ack.bit, Ack.clear, List.getD_eq_getElem?_getD, hinside i hi]
    refine ⟨_, sendFileT_result hle, ?_, ?_⟩
    · rw [sendFile, sendLoop_numbers hword, List.filter_eq_self.mpr hclear]
    · rw [sendFile, sendLoop_payloads, List.filter_eq_self.mpr hclear, chunks_flatten,
        List.take_of_length_le hcap.le]
  · have hnumbers : (sendFile fileNumber content ((Ack.ask fileNumber i).bit fun _ => false)
        buffer).map (·.packetNumber.toNat) = _ := sendLoop_numbers hword
    rw [ask_filter hi hle] at hnumbers
    obtain ⟨p, hp, hnum⟩ := List.map_eq_singleton_iff.mp hnumbers
    exact ⟨p, (sendFileT_result hle).trans (congrArg some hp), hnum⟩

/-- A file of 48 full packets has an empty 49th, whose bit no ack has. -/
theorem covers_fails_full : ¬ Covers (List.replicate (48 * 1200) 0) := by
  intro h
  have hlt := h.length_lt
  rw [List.length_replicate] at hlt
  exact absurd hlt (by decide)

end InpLabs.Udp
