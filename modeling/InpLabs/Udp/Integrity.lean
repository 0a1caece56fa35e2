/-
  File:      InpLabs/Udp/Integrity.lean
  Subject:   Which flipped bits do harm: those of the field `length`, which no checksum covers.

  * `transfer_integrity`: a packet with a flipped bit is rejected or treated as if it were intact
    exactly when the bit is none of `length`, or the server has got the packet already; and in
    every run in which nothing else is flipped all data stored and written is right;
  * `corrupted_file`: a flipped bit that gets into a file.
-/
import InpLabs.Udp.System

namespace InpLabs.Udp

open InpLabs.Lib

/-- The packet does not pass the checksum test. -/
def Packet.Rejected (p : Packet) : Prop := p.checksum ≠ p.calculatedChecksum

section Flip

variable {files : Files} {n : Fin numFiles → Nat} {s t t' : Server} {f : Fin numFiles}
  {p q : Packet} {k : Nat} {saved saved' : List StoreFile}

theorem set_flatten_inj {α : Type*} {l : List (List α)} {i : Nat} (hi : i < l.length)
    {d e : List α} (h : (l.set i d).flatten = (l.set i e).flatten) : d = e := by
  rw [List.set_eq_take_append_cons_drop, List.set_eq_take_append_cons_drop, if_pos hi, if_pos hi,
    List.flatten_append, List.flatten_append, List.flatten_cons, List.flatten_cons] at h
  exact List.append_cancel_right (List.append_cancel_left h)

theorem Outcome.length_le (hnew : ¬ s.Has f p.packetNumber.toNat) (h : Outcome s f p t saved) :
    p.length.toNat ≤ packetSize := by
  cases h with
  | known hv => exact absurd (.inl hv) hnew
  | again hv hslot => exact absurd (.inr hslot) hnew
  | kept _ hl hm => exact hl
  | complete _ hl hall => exact hl

/-- A new packet of another `length` leaves another server or another file. -/
theorem Outcome.data_eq (hs : s.FileOk (n f) f) (hp : Header n f p) {length : Word}
    (hnew : ¬ s.Has f p.packetNumber.toNat) (h : Outcome s f p t saved)
    (h' : Outcome s f { p with length := length } t' saved') (ht : t = t')
    (hsaved : saved = saved') : p.data.take p.length.toNat = p.data.take length.toNat := by
  obtain ⟨-, hexp⟩ := expanded_of_new hs hp hnew
  have hslots : (s.fill f { p with length := length }).storedPacket = (s.fill f p).storedPacket :=
    rfl
  cases h with
  | known hv => exact absurd (.inl hv) hnew
  | again hv hslot => exact absurd (.inr hslot) hnew
  | kept _ hl hm =>
    cases h' with
    | known hv => exact absurd (.inl hv) hnew
    | again hv hslot => exact absurd (.inr hslot) hnew
    | kept _ hl' hm' =>
      have hget := congrArg (fun t : Server => (t.datas f)[p.packetNumber.toNat]?) ht
      change ((s.fill f p).datas f)[p.packetNumber.toNat]? =
        ((s.fill f { p with length := length }).datas f)[p.packetNumber.toNat]? at hget
      rw [fill_data hexp hp.number] at hget
      exact Option.some.inj (hget.trans (fill_data hexp hp.number))
    | complete _ hl' hall =>
      rw [hslots] at hall
      cases hall _ hm
  | complete _ hl hall =>
    cases h' with
    | known hv => exact absurd (.inl hv) hnew
    | again hv hslot => exact absurd (.inr hslot) hnew
    | kept _ hl' hm =>
      rw [hslots] at hm
      cases hall _ hm
    | complete _ hl' hall' =>
      have hflat := congrArg Prod.snd (List.cons.inj hsaved).1
      dsimp only at hflat
      rw [fill_datas, fill_datas] at hflat
      exact set_flatten_inj (hexp.datas_length ▸ hp.number) hflat

/-- A flip in the `length` of a new packet passes the checksum and changes what the server does. -/
theorem onPacket_flip_ne (hs : s.Ok (numPackets files)) (hp : Genuine files f p) (hk : LengthBit k)
    (hnew : ¬ s.Got p) : s.onPacket (p.flip k) ≠ s.onPacket p := by
  have hnew : ¬ s.Has f p.packetNumber.toNat := fun hhas => hnew ⟨f, hp.file, hhas⟩
  have hk' : k < datagramBits := Nat.lt_of_lt_of_le hk.2 (by decide)
  have hcheck := (flip_checksum_iff hp.checksum hk').mpr hk
  obtain ⟨t, saved, hr, hout⟩ := onPacket_genuine hs hp
  rw [flip_of_lengthBit p hk] at hcheck ⊢
  have hhead : Header (numPackets files) f { p with length := flipBit p.length (k - 64) } :=
    ⟨hp.file, hp.total, hp.number⟩
  rw [hr]
  intro heq
  rcases onPacket_outcome (hs.file f) hhead hcheck with ⟨t', saved', hr', hout'⟩ | ⟨hr', -⟩
  · rw [hr'] at heq
    obtain ⟨ht, hsaved⟩ := Prod.mk.inj (Except.ok.inj heq)
    have hdata := hout.data_eq (hs.file f) hp.toHeader hnew hout' ht.symm hsaved.symm
    have hle := hp.length_le
    have hle' : (flipBit p.length (k - 64)).toNat ≤ packetSize := hout'.length_le (by exact hnew)
    have hlen := congrArg List.length hdata
    rw [List.length_take, List.length_take, p.size, Nat.min_eq_left hle,
      Nat.min_eq_left hle'] at hlen
    have hbit : k - 64 < 16 := Nat.sub_lt_left_of_lt_add hk.1 hk.2
    exact flipBit_ne p.length hbit (BitVec.eq_of_toNat_eq hlen).symm
  · rw [hr'] at heq
    cases heq

/-- A packet that the server has got sends it to one of its two calls of `recvfrom`. -/
theorem onPacket_of_has (hs : s.Ok n) (hp : Header n f p) (hc : p.checksum = p.calculatedChecksum)
    (hhas : s.Has f p.packetNumber.toNat) : s.onPacket p =
      .ok (if s.fileSaved f.castSucc then s.leave else { s with pc := .inner }, []) := by
  rcases onPacket_outcome (hs.file f) hp hc with ⟨t, saved, hr, hout⟩ | ⟨-, hnew, -⟩
  · rw [hr]
    cases hout with
    | known hv => rw [if_pos hv]
    | again hv hslot => rw [hv, if_neg Bool.false_ne_true]
    | kept hnew hl hm => exact absurd hhas hnew
    | complete hnew hl hall => exact absurd hhas hnew
  · exact absurd hhas hnew

/-- So it is handled alike whatever its `length`. -/
theorem onPacket_flip_of_got (hs : s.Ok (numPackets files)) (hp : Genuine files f p)
    (hk : LengthBit k) (hgot : s.Got p) : s.onPacket (p.flip k) = s.onPacket p := by
  obtain ⟨g, hg, hhas⟩ := hgot
  obtain rfl : g = f := Fin.ext (hg.symm.trans hp.file)
  have hk' : k < datagramBits := Nat.lt_of_lt_of_le hk.2 (by decide)
  have hcheck := (flip_checksum_iff hp.checksum hk').mpr hk
  rw [flip_of_lengthBit p hk] at hcheck ⊢
  rw [onPacket_of_has hs hp.toHeader hp.checksum hhas]
  exact onPacket_of_has hs ⟨hp.file, hp.total, hp.number⟩ hcheck hhas

/-- **Integrity**: a flipped bit is noticed, or makes no difference, exactly when it is none of
    `length` or the packet is not new; and where all flips are of this kind, the data stored and
    written is that of the client's files. -/
theorem transfer_integrity (files : Files) :
    (∀ s, (transfer files).Reachable s → ∀ (f : Fin numFiles) stored buffer,
      ∀ p ∈ sendFile (BitVec.ofNat 16 f) (files f) stored buffer, ∀ k < datagramBits,
        (p.flip k).Rejected ∨ s.server.onPacket (p.flip k) = s.server.onPacket p ↔
          ¬ LengthBit k ∨ s.server.Got p) ∧
    ∀ s, ((transfer files).restrict Harmless).Reachable s →
      (∀ f i, (s.server.storedPacket f)[i]? = some true →
        (s.server.datas f)[i]? = some (chunk (files f) i)) ∧
      ∀ c ∈ s.saved, c.2 = sentContent files c.1 := by
  refine ⟨fun s h f stored buffer p hp k hk => ?_, fun s h => ?_⟩
  · have hs := (transfer_inv h).server
    have hgen := (mem_sendFile (toNat_ofFile f) hp).1
    have hiff := flip_checksum_iff hgen.checksum hk
    by_cases hbit : LengthBit k
    · have haccept : ¬ (p.flip k).Rejected := not_not.mpr (hiff.mpr hbit)
      rw [or_iff_right haccept, or_iff_right (not_not.mpr hbit)]
      constructor
      · intro heq
        by_contra hnew
        exact onPacket_flip_ne hs hgen hbit hnew heq
      · exact onPacket_flip_of_got hs hgen hbit
    · exact iff_of_true (.inl (mt hiff.mp hbit)) (.inl hbit)
  · have hex := transfer_exact h
    exact ⟨hex.slots, hex.saved⟩

end Flip

/-- The first packet of a file of one byte, with a flipped bit of its file number. -/
theorem transfer_integrity_first : ∃ p ∈ sendFile (BitVec.ofNat 16 0) [7] (fun _ => false)
    ⟨List.replicate packetSize 0, List.length_replicate⟩,
    (p.flip 0).Rejected ∨ Server.new.onPacket (p.flip 0) = Server.new.onPacket p := by
  have hpos : 0 < numPackets (fun _ => [7]) ⟨0, Nat.succ_pos _⟩ :=
    show 0 < (BitVec.ofNat 16 (1 / packetSize + 1)).toNat by decide
  obtain ⟨p, hp, -⟩ : ∃ p ∈ sendFile (BitVec.ofNat 16 0) [7] (fun _ => false)
      ⟨List.replicate packetSize 0, List.length_replicate⟩, p.packetNumber.toNat = 0 :=
    sendFile_complete _ _ hpos rfl
  have hbit : ¬ LengthBit 0 := fun h => absurd h.1 (by decide)
  exact ⟨p, hp, ((transfer_integrity fun _ => [7]).1 .start ⟨[], .start rfl⟩ ⟨0, Nat.succ_pos _⟩ _ _
    p hp 0 (by decide)).mpr (.inl hbit)⟩

/-- **A flipped bit gets into a file**: the files hold one byte, the lowest bit of `length` is
    flipped in the packet of the first one, and the server writes an empty file. -/
theorem corrupted_file : ∃ s p s', (transfer fun _ => [7]).Reachable s ∧
    p ∈ sendFile (BitVec.ofNat 16 0) [7] (fun _ => false)
      ⟨List.replicate packetSize 0, List.length_replicate⟩ ∧
    ¬ (p.flip 64).Rejected ∧ s.server.onPacket (p.flip 64) ≠ s.server.onPacket p ∧
    Step (fun _ => [7]) s (.packet p (some 64) fun _ _ => false) s' ∧
    (⟨0, Nat.succ_pos _⟩, []) ∈ s'.saved := by
  let files : Files := fun _ => [7]
  let f : Fin numFiles := ⟨0, Nat.succ_pos _⟩
  let buffer : Buffer := ⟨List.replicate packetSize 0, List.length_replicate⟩
  have hone : numPackets files f = 1 :=
    show (BitVec.ofNat 16 (1 / packetSize + 1)).toNat = 1 by decide
  have hinit : Step files .start (.initSend (fun _ => false) buffer) (Sys.start.clientMoves
      (initNext f) (sendFile (BitVec.ofNat 16 f) (files f) (fun _ => false) buffer)) :=
    .initSend rfl
  have hstart : (transfer files).Reachable .start := ⟨[], .start rfl⟩
  have hs := hstart.step hinit
  obtain ⟨p, hp, hnum⟩ : ∃ p ∈ sendFile (BitVec.ofNat 16 f) (files f) (fun _ => false) buffer,
      p.packetNumber.toNat = 0 := sendFile_complete _ buffer (hone.symm ▸ Nat.one_pos) rfl
  have hgen := (mem_sendFile (toNat_ofFile f) hp).1
  have hbit : LengthBit 64 := ⟨le_refl _, by decide⟩
  have hcheck := (flip_checksum_iff hgen.checksum (show 64 < datagramBits by decide)).mpr hbit
  have hnew : ¬ Server.new.Got p := by
    rintro ⟨g, -, hv | hslot⟩
    · cases hv
    · cases hslot
  -- the packet holds one byte, and none once the bit is flipped
  have hlength : flipBit p.length 0 = 0 := by
    have hpayload := congrArg List.length hgen.payload
    rw [hnum, List.length_take, p.size, Nat.min_eq_left hgen.length_le] at hpayload
    have hlen : p.length = 1 := BitVec.eq_of_toNat_eq hpayload
    rw [hlen]
    decide
  have hflip : p.flip 64 = { p with length := 0 } := by rw [flip_of_lengthBit p hbit, hlength]
  have hhead : Header (numPackets files) f (p.flip 64) := by
    rw [hflip]
    exact ⟨hgen.file, hgen.total, hgen.number⟩
  have hempty : (p.flip 64).data.take (p.flip 64).length.toNat = [] := by
    rw [hflip]
    rfl
  have hok := Server.new_ok (numPackets files)
  rcases onPacket_outcome (hok.file f) hhead hcheck with ⟨t, saved, hr, hout⟩ | ⟨-, -, hl⟩
  · obtain ⟨-, hcontent⟩ := hout.exact hok (Server.new_exact fun _ _ => []) hhead hempty
    have hhas : ∀ i < numPackets files f, t.Has f i := by
      intro i hi
      have hi0 : i = (p.flip 64).packetNumber.toNat := by
        rw [hflip, hnum]
        omega
      exact (hout.has hok hhead hi).mpr (.inr ⟨rfl, hi0⟩)
    have hwritten := (hout.ok hok hhead).saved_of_has (hone.symm ▸ Nat.one_pos) hhas
    refine ⟨_, p, _, hs, hp, not_not.mpr hcheck,
      onPacket_flip_ne hok hgen hbit hnew,
      .packet (by decide) (Multiset.mem_add.mpr (.inl hp)) ?_ hr, ?_⟩
    · intro k hk
      obtain rfl := Option.mem_some.mp hk
      decide
    · rcases hout.storeFile with ⟨-, heq⟩ | ⟨c, rfl, -, -⟩
      · rw [heq] at hwritten
        cases hwritten
      · have hc : c = [] := (hcontent (f, c) (List.mem_singleton_self _)).trans (by simp)
        subst hc
        exact List.mem_append_left _ (List.mem_singleton_self _)
  · rw [hflip] at hl
    exact absurd (show packetSize < 0 from hl) (Nat.not_lt_zero _)

end InpLabs.Udp
