/-
  File:      InpLabs/Udp/Retransmit.lean
  Subject:   An ack, old or new, makes the client send all that the server still needs.

  * `deliver`: the server takes packets in; `deliver_collects`: it collects their numbers, in the
    sense of `Channel`, so neither order nor repetition matters;
  * `retransmission_complete`: what `send_file` sends for an ack covers the missing packets, and
    once all of it has been delivered the file is written with its contents.
-/
import InpLabs.Udp.System

namespace InpLabs.Udp

open InpLabs.Lib

/-! ## 1. Delivering packets -/

/-- A packet is delivered to a server that has made some calls of `store_file`. One that sends
    `FINISH` does not receive any more. -/
def deliver (x : Server × List StoreFile) (p : Packet) : Server × List StoreFile :=
  if x.1.pc = .finishing then x
  else match x.1.onPacket p with
    | .ok (t, saved) => (t, saved ++ x.2)
    | .error _ => x

/-- What a packet is a packet of. -/
def Packet.key (p : Packet) : Fin numFiles × Nat :=
  (⟨p.fileNumber.toNat % numFiles, Nat.mod_lt _ (by decide)⟩, p.packetNumber.toNat)

/-- The data is right, and file `f` is written if it is saved. -/
structure Delivered (files : Files) (f : Fin numFiles) (x : Server × List StoreFile) : Prop where
  ok : x.1.Ok (numPackets files)
  slots : x.1.Exact fun f i => chunk (files f) i
  content : ∀ c ∈ x.2, c.2 = sentContent files c.1
  listed : x.1.fileSaved f.castSucc = true → ∃ content, (f, content) ∈ x.2

section Deliver

variable {files : Files} {f g : Fin numFiles} {p : Packet} {x : Server × List StoreFile}

/-- A file of which the server knows every packet is written, with its contents. -/
theorem Delivered.written (hx : Delivered files f x)
    (hsmall : (files f).length / packetSize + 1 < 65536)
    (hall : ∀ i < numPackets files f, (f, i) ∈ x.1.know (numPackets files)) :
    x.1.fileSaved f.castSucc = true ∧ (f, files f) ∈ x.2 := by
  have hpos : 0 < numPackets files f := numPackets_eq hsmall ▸ Nat.succ_pos _
  have hsaved := hx.ok.saved_of_has hpos fun i hi => (hall i hi).2
  obtain ⟨content, hmem⟩ := hx.listed hsaved
  have hcontent := hx.content _ hmem
  rw [sentContent_eq hsmall] at hcontent
  exact ⟨hsaved, hcontent ▸ hmem⟩

theorem Genuine.key_eq (hp : Genuine files g p) : p.key = (g, p.packetNumber.toNat) := by
  have hlt : p.fileNumber.toNat < numFiles := hp.file ▸ g.isLt
  have hmod : p.fileNumber.toNat % numFiles = g := by
    rw [Nat.mod_eq_of_lt hlt, hp.file]
  exact Prod.ext (Fin.ext hmod) rfl

/-- **The server collects the packets**, whatever it has got and written before. -/
theorem deliver_collects (files : Files) (f : Fin numFiles) :
    Collects deliver (fun x => x.1.know (numPackets files)) Packet.key (Delivered files f)
      fun p => ∃ g, Genuine files g p := by
  intro x p hx hp
  obtain ⟨g, hgen⟩ := hp
  rw [hgen.key_eq]
  unfold deliver
  by_cases hpc : x.1.pc = .finishing
  · rw [if_pos hpc]
    have hdone := done_of_finishing hx.ok hpc
    have hmem : (g, p.packetNumber.toNat) ∈ x.1.know (numPackets files) :=
      ⟨hgen.number, .inl (hdone g)⟩
    exact ⟨hx, (Set.insert_eq_of_mem hmem).symm⟩
  obtain ⟨t, saved, hr, hout⟩ := onPacket_genuine hx.ok hgen
  obtain ⟨hslots, hcontent⟩ := hout.exact hx.ok hx.slots hgen.toHeader hgen.payload
  rw [if_neg hpc, hr]
  refine ⟨⟨hout.ok hx.ok hgen.toHeader, hslots, fun c hc => ?_, fun hv => ?_⟩,
    hout.know hx.ok hgen.toHeader⟩
  · rcases List.mem_append.mp hc with hc | hc
    · exact hcontent c hc
    · exact hx.content c hc
  · rcases hout.storeFile with ⟨rfl, heq⟩ | ⟨c, rfl, -, heq⟩
    · rw [heq] at hv
      exact hx.listed hv
    · by_cases hfg : f = g
      · exact ⟨c, by simp [hfg]⟩
      · have hne : f.castSucc ≠ g.castSucc := (Fin.castSucc_injective _).ne hfg
        rw [heq, Function.update_of_ne hne] at hv
        obtain ⟨c', hc'⟩ := hx.listed hv
        exact ⟨c', List.mem_append_right _ hc'⟩

end Deliver

/-! ## 2. What an ack asks for -/

section Retransmit

variable {files : Files} {s : Sys} {f : Fin numFiles} {a : Ack} {stack : Nat → Bool}
  {buffer : Buffer}

/-- The bit of a packet that is missing is clear, in every ack for the file. -/
theorem bit_of_missing {srv : Server} {n : Fin numFiles → Nat} (ha : AckOk n srv a)
    (hf : a.fileNumber.toNat = f) (hn : n f ≤ maxPackets) {i : Nat} (hi : i < n f)
    (hmiss : ¬ srv.Has f i) : a.bit stack i = false := by
  rcases ha with ⟨hfin, -⟩ | ⟨g, hg, hbits⟩
  · exact absurd hfin (ne_of_file (by decide) hf)
  · obtain rfl : g = f := Fin.ext (hg.symm.trans hf)
    have hlt : i < a.storedPacket.length := by
      rw [a.size]
      omega
    unfold Ack.bit
    rw [List.getD_eq_getElem?_getD, List.getElem?_eq_getElem hlt, Option.getD_some]
    cases hb : a.storedPacket[i] with
    | false => rfl
    | true => exact absurd (hbits i hi (by rw [List.getElem?_eq_getElem hlt, hb])) hmiss

/-- **Retransmission is complete**, for an ack of the current state or of an earlier one. -/
theorem retransmission_complete (h : ((transfer files).restrict Intact).Reachable s)
    (hfit : (files f).length / packetSize + 1 ≤ maxPackets)
    (hv : s.server.fileSaved f.castSucc = false)
    (ha : a ∈ s.built ∨ ∃ junk, a = s.server.ack junk f) (hf : a.fileNumber.toNat = f) :
    let sent := sendFile a.fileNumber (files f) (a.bit stack) buffer
    (∀ i < (files f).length / packetSize + 1, (s.server.storedPacket f)[i]? ≠ some true →
      ∃ p ∈ sent, p.packetNumber.toNat = i) ∧
    (∀ p ∈ sent, p.packetNumber.toNat < p.totalPackets.toNat) ∧
    ∀ ds : List Packet, (∀ p ∈ sent, p ∈ ds) →
      (∀ p ∈ ds, p ∈ sent ∨ ∃ g ≠ f, Genuine files g p) →
      (ds.foldl deliver (s.server, [])).1.fileSaved f.castSucc = true ∧
        (f, files f) ∈ (ds.foldl deliver (s.server, [])).2 := by
  intro sent
  have hs := transfer_inv h.of_restrict
  have hex := transfer_exact (h.restrict_mono fun _ _ => Intact.harmless)
  have hsmall : (files f).length / packetSize + 1 < 65536 := Nat.lt_of_le_of_lt hfit (by decide)
  have hn := numPackets_eq hsmall
  have hack : AckOk (numPackets files) s.server a := by
    rcases ha with ha | ⟨junk, rfl⟩
    · exact hs.built a ha
    · exact ack_ok hs.server hv
  have hgen : ∀ p ∈ sent, Genuine files f p := fun p hp => (mem_sendFile hf hp).1
  have hcover : ∀ i < numPackets files f, ¬ s.server.Has f i →
      ∃ p ∈ sent, p.packetNumber.toNat = i := fun i hi hmiss =>
    sendFile_complete _ _ hi (bit_of_missing hack hf (hn ▸ hfit) hi hmiss)
  refine ⟨fun i hi hslot => hcover i (hn ▸ hi) (not_or.mpr ⟨by simp [hv], hslot⟩), fun p hp => ?_,
    fun ds hall hds => ?_⟩
  · rw [(hgen p hp).total]
    exact (hgen p hp).number
  have hadmit : ∀ p ∈ ds, ∃ g, Genuine files g p := by
    intro p hp
    rcases hds p hp with hp | ⟨g, -, hg⟩
    · exact ⟨f, hgen p hp⟩
    · exact ⟨g, hg⟩
  have hstart : Delivered files f (s.server, []) :=
    ⟨hs.server, hex.slots, by simp, fun hv' => by simp [hv] at hv'⟩
  obtain ⟨hend, hknow⟩ := foldl_collects (deliver_collects files f) hadmit hstart
  refine hend.written hsmall fun i hi => ?_
  -- the server has got packet `i`, or it is one of those sent
  rw [hknow]
  by_cases hhas : s.server.Has f i
  · exact .inl ⟨hi, hhas⟩
  · obtain ⟨p, hp, hnum⟩ := hcover i hi hhas
    exact .inr ⟨p, hall p hp, by rw [(hgen p hp).key_eq, hnum]⟩

end Retransmit

/-- The server may wait in vain at its second `recvfrom`. -/
theorem intact_leave {files : Files} {s : Sys} (h : ((transfer files).restrict Intact).Reachable s)
    (hpc : s.server.pc = .inner) (junk : Fin numFiles → Nat → Bool) :
    ((transfer files).restrict Intact).Reachable
      (s.serverMoves s.server.leave [] (s.server.leave.requests junk)) :=
  h.step ⟨fun _ _ _ h => (by cases h), Step.leave files hpc junk⟩

/-- Files of three packets: the first packet of a file arrives, the server asks for the others, and
the last one arrives. The ack, which is out of date now, brings the one in between. -/
theorem retransmission_complete_stale : let files : Files := fun _ => List.replicate 2500 7
    ∃ s a, ((transfer files).restrict Intact).Reachable s ∧ a ∈ s.built ∧
      s.server.Has file0 0 ∧ s.server.Has file0 2 ∧ s.server.fileSaved file0.castSucc = false ∧
      let sent := sendFile a.fileNumber (files file0) (a.bit fun _ => false) .zeros
      (∃ p ∈ sent, p.packetNumber.toNat = 2) ∧
        ((sent.reverse ++ sent).foldl deliver (s.server, [])).1.fileSaved file0.castSucc = true ∧
        (file0, files file0) ∈ ((sent.reverse ++ sent).foldl deliver (s.server, [])).2 := by
  intro files
  have hthree : numPackets files file0 = 3 := numPackets_replicate 2500 7 file0
  have hstart : ((transfer files).restrict Intact).Reachable .start := ⟨[], .start rfl⟩
  have hsent := hstart.step ⟨fun _ _ _ => Label.noConfusion, sentFirst_step files⟩
  obtain ⟨p, hp, hgen, hnum⟩ := exists_sentFirst files (i := 0) (by omega)
  obtain ⟨q, hq, hgen', hnum'⟩ := exists_sentFirst files (i := 2) (by omega)
  obtain ⟨t, saved, hout, harrive⟩ := (transfer_inv hsent.of_restrict).arrive (by decide) hp hgen
    fun _ _ => false
  have hone := hsent.step ⟨fun _ _ _ h => (by cases h), harrive⟩
  have hok : t.Ok (numPackets files) := hout.ok (Server.new_ok _) hgen.toHeader
  -- what the server has got by then
  have hnew : ∀ i, ¬ Server.new.Has file0 i := fun i hhas => by rcases hhas with h | h <;> cases h
  have hhas : ∀ i < 3, t.Has file0 i ↔ i = 0 := fun i hi => by
    rw [hout.has (Server.new_ok _) hgen.toHeader (hthree.symm ▸ hi), or_iff_right (hnew i), hnum]
    exact and_iff_right rfl
  have hunsaved : t.fileSaved file0.castSucc = false :=
    Bool.eq_false_of_not_eq_true fun h => absurd ((hhas 1 (by decide)).mp (.inl h)) (by decide)
  have hinner : t.pc = .inner := hout.inner (Server.new_ok _) hgen.toHeader (i := 1) (by omega)
    (by omega) (hnew 1)
  -- the server asks for the other two
  have htimed := intact_leave hone hinner fun _ _ => false
  have hleave : t.leave.fileSaved file0.castSucc = false := by
    rw [(leave_frame t).2.2.2]
    exact hunsaved
  have houter : t.leave.pc = .outer := (leave_pc t).resolve_right fun hpc => by
    rw [done_of_finishing hok.leave hpc file0] at hleave
    cases hleave
  have hack := ack_mem_requests hok.leave houter hleave fun _ _ => false
  have hbit : (t.leave.ack (fun _ _ => false) file0).bit (fun _ => false) 2 = false := by
    refine bit_of_missing (ack_ok hok.leave hleave) (toNat_ofFile file0) ?_ (i := 2) (by omega) ?_
    · rw [hthree]
      decide
    · rw [leave_has, hhas 2 (by decide)]
      decide
  -- the last packet arrives
  have hleft : q ∈ (Sys.sentFirst files).toServer.erase p :=
    (Multiset.mem_erase_of_ne fun heq => by rw [heq] at hnum'; omega).mpr hq
  have hinv := transfer_inv htimed.of_restrict
  obtain ⟨u, saved', hout', harrive'⟩ := hinv.arrive
    (show t.leave.pc ≠ .finishing by rw [houter]; decide) hleft hgen' fun _ _ => false
  have hlast := htimed.step ⟨fun _ _ _ h => (by cases h), harrive'⟩
  have hhas' : ∀ i < 3, u.Has file0 i ↔ i = 0 ∨ i = 2 := fun i hi => by
    rw [hout'.has hinv.server hgen'.toHeader (hthree.symm ▸ hi)]
    exact or_congr ((leave_has t).trans (hhas i hi)) (by rw [hnum']; exact and_iff_right rfl)
  have hunsaved' : u.fileSaved file0.castSucc = false :=
    Bool.eq_false_of_not_eq_true fun h => absurd ((hhas' 1 (by decide)).mp (.inl h)) (by decide)
  have hfit : (files file0).length / packetSize + 1 ≤ maxPackets := by
    show (List.replicate 2500 (7 : Byte)).length / packetSize + 1 ≤ maxPackets
    rw [List.length_replicate]
    decide
  refine ⟨_, t.leave.ack (fun _ _ => false) file0, hlast, ?_, (hhas' 0 (by decide)).mpr (.inl rfl),
    (hhas' 2 (by decide)).mpr (.inr rfl), hunsaved', ?_⟩
  · exact List.mem_append_right _ (List.mem_append_left _ hack)
  · exact ⟨sendFile_complete _ _ (by omega) hbit, (retransmission_complete hlast hfit hunsaved'
      (.inl (List.mem_append_right _ (List.mem_append_left _ hack))) (toNat_ofFile file0)).2.2 _
      (fun p hp => List.mem_append_right _ hp) fun p hp => .inl (by simpa using hp)⟩

end InpLabs.Udp
