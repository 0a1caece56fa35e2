/-
  File:      InpLabs/Udp/Termination.lean
  Subject:   When the client ends too early: its acks carry no checksum.

  * `Ack.flip`: an ack with one of its bits flipped; `noisy`: the transfer over a network that may
    do that to any ack;
  * `CarefulAck`, `client_termination`: in a run in which every flipped ack still names a file, or
    comes when all files are saved, the client ends only with all files saved, and the first other
    ack ends it;
  * `client_gives_up`: an ack for file 1 with bit 15 flipped.
-/
import InpLabs.Udp.Deadlock
import InpLabs.Udp.Safety

namespace InpLabs.Udp

open InpLabs.Lib

/-! ## 1. Flipped acks -/

/-- The bits of an ack: those of the file number, and eight for each `bool`. -/
def ackBits : Nat := 8 * (2 + maxPackets)

/-- Bit `k` of an ack flipped. The lowest bit of a `bool` negates it; with another one it has a
    value that means nothing, and is read as `b`. -/
def Ack.flip (a : Ack) (k : Nat) (b : Bool) : Ack :=
  if k < 16 then { a with fileNumber := flipBit a.fileNumber k }
  else
    { a with
      storedPacket :=
        a.storedPacket.modify ((k - 16) / 8) fun v => if (k - 16) % 8 = 0 then !v else b
      size := by rw [List.length_modify, a.size] }

inductive NoisyLabel where
  | intact (l : Label)
  | flippedAck (a : Ack) (k : Nat) (b : Bool) (stack : Nat → Bool) (buffer : Buffer)

/-- A step of the transfer, or an ack that arrives with a flipped bit. -/
inductive NoisyStep (files : Files) : Sys → NoisyLabel → Sys → Prop where
  | intact {s s' : Sys} {l : Label} (h : Step files s l s') : NoisyStep files s (.intact l) s'
  | flippedAck {s : Sys} {a : Ack} {k : Nat} {b : Bool} {stack : Nat → Bool} {buffer : Buffer}
      (h : s.client = .waiting) (ha : a ∈ s.toClient) (hk : k < ackBits) :
      NoisyStep files s (.flippedAck a k b stack buffer)
        ({ s with toClient := s.toClient.erase a }.clientMoves
          (onAck files (a.flip k b) stack buffer).1 (onAck files (a.flip k b) stack buffer).2)

def noisy (files : Files) : Lts Sys NoisyLabel where
  init s := s = .start
  step := NoisyStep files

/-! ## 2. The statement -/

/-- The client process has ended, with `FINISH` or with an error. -/
def Sys.Ended (s : Sys) : Prop := s.client = .finished ∨ s.client = .failed

/-- The client has not ended before all files were saved. -/
def EndsLast (s : Sys) : Prop := s.Ended → ∀ f, s.Saved f

/-- A flipped ack names a file, or all files are saved already. -/
def CarefulAck (s : Sys) (l : NoisyLabel) : Prop :=
  ∀ a k b stack buffer, l = .flippedAck a k b stack buffer →
    (a.flip k b).fileNumber.toNat < numFiles ∨ ∀ f, s.Saved f

/-! ## 3. The proof -/

section Termination

variable {files : Files} {s s' : Sys} {l : Label} {a : Ack} {k : Nat} {b : Bool}
  {stack : Nat → Bool} {buffer : Buffer}

/-- The high bits of a file number are clear, so one that is set was flipped. -/
theorem flipBit_high {v : Word} (hv : v.toNat < numFiles) (k : Nat) {i : Nat} (hi : 10 ≤ i)
    (hlt : i < 16) : (flipBit v k).getLsbD i = decide (k = i) := by
  have hten : v.toNat < 2 ^ 10 := by
    unfold numFiles at hv
    omega
  have hlow : v.getLsbD i = false :=
    Nat.testBit_lt_two_pow (Nat.lt_of_lt_of_le hten (Nat.pow_le_pow_right (by decide) hi))
  rw [flipBit, BitVec.getLsbD_xor, hlow, Bool.false_xor, BitVec.getLsbD_twoPow]
  by_cases hk : k = i
  · simp [hk, hlt]
  · simp [hk]

/-- A single bit makes no mark of the number of a file: both marks have two high bits. -/
theorem flipBit_ne_mark {v mark : Word} (hv : v.toNat < numFiles)
    (h13 : mark.getLsbD 13 = true) (h14 : mark.getLsbD 14 = true) (k : Nat) :
    flipBit v k ≠ mark := by
  intro he
  have hk13 := flipBit_high hv k (i := 13) (by decide) (by decide)
  have hk14 := flipBit_high hv k (i := 14) (by decide) (by decide)
  rw [he, h13] at hk13
  rw [he, h14] at hk14
  have h13' := of_decide_eq_true hk13.symm
  have h14' := of_decide_eq_true hk14.symm
  omega

/-- A flipped ack for a file whose number is that of no file any more ends the client. -/
theorem flip_failed {f : Fin numFiles} (hf : a.fileNumber.toNat = f)
    (hnum : ¬ (a.flip k b).fileNumber.toNat < numFiles) :
    (onAck files (a.flip k b) stack buffer).1 = .failed := by
  have hlt : a.fileNumber.toNat < numFiles := hf ▸ f.isLt
  have hflip : (a.flip k b).fileNumber = flipBit a.fileNumber k := by
    unfold Ack.flip at hnum ⊢
    by_cases hk : k < 16
    · rw [if_pos hk]
    · rw [if_neg hk] at hnum
      exact absurd hlt hnum
  have hno : (a.flip k b).fileNumber ≠ noAck :=
    hflip ▸ flipBit_ne_mark hlt (by decide) (by decide) k
  have hfin : (a.flip k b).fileNumber ≠ finish :=
    hflip ▸ flipBit_ne_mark hlt (by decide) (by decide) k
  have hopen : openFile files (a.flip k b).fileNumber = none := dif_neg hnum
  unfold onAck
  rw [if_neg hno, if_neg hfin, hopen]

/-- The invariant; a client that has failed counts as one that has finished. -/
def Sys.Tamed (files : Files) (s : Sys) : Prop :=
  s.Inv files ∨ s.client = .failed ∧ Sys.Inv files { s with client := .finished }

theorem Sys.Tamed.endsLast (hs : s.Tamed files) : EndsLast s := by
  rintro (hpc | hpc) f
  · rcases hs with hs | ⟨hfail, -⟩
    · exact (hs.saved f).mpr (hs.finished hpc f)
    · rw [hpc] at hfail
      cases hfail
  · rcases hs with hs | ⟨-, hs⟩
    · exact absurd hpc hs.not_failed
    · exact (hs.saved f).mpr (hs.finished rfl f)

theorem Sys.Tamed.of_waiting (hs : s.Tamed files) (hc : s.client = .waiting) : s.Inv files := by
  rcases hs with hs | ⟨hfail, -⟩
  · exact hs
  · rw [hc] at hfail
    cases hfail

/-- Once the client has failed, only the server and the network go on. -/
theorem Step.of_failed (h : Step files s l s') (hc : s.client = .failed) :
    s'.client = .failed ∧
      Step files { s with client := .finished } l { s' with client := .finished } := by
  cases h with
  | initSend h => rw [hc] at h; cases h
  | ack h => rw [hc] at h; cases h
  | clientTimeout h => rw [hc] at h; cases h
  | packet hpc hp hflip hr => exact ⟨hc, .packet hpc hp hflip hr⟩
  | serverTimeout hpc => exact ⟨hc, .serverTimeout hpc⟩
  | finish hpc => exact ⟨hc, .finish hpc⟩
  | toServer h => exact ⟨hc, .toServer h⟩
  | toClient h => exact ⟨hc, .toClient h⟩

theorem Step.tamed (hs : s.Tamed files) (h : Step files s l s') : s'.Tamed files := by
  rcases hs with hs | ⟨hc, hs⟩
  · exact .inl (h.inv hs)
  · obtain ⟨hc', h'⟩ := h.of_failed hc
    exact .inr ⟨hc', h'.inv hs⟩

/-- What is sent for an ack is genuine, and nothing is sent by a client that ends. -/
theorem onAck_sent {p : Packet} (hp : p ∈ (onAck files a stack buffer).2) :
    ∃ f, Genuine files f p := by
  by_cases hlt : a.fileNumber.toNat < numFiles
  · have hf : a.fileNumber.toNat = (⟨_, hlt⟩ : Fin numFiles) := rfl
    rw [onAck_file hf] at hp
    exact ⟨_, (mem_sendFile hf hp).1⟩
  · have hopen : openFile files a.fileNumber = none := dif_neg hlt
    unfold onAck at hp
    rw [hopen] at hp
    split at hp
    · cases hp
    · split at hp <;> cases hp

theorem NoisyStep.tamed {l : NoisyLabel} (hs : s.Tamed files) (hcare : CarefulAck s l)
    (h : NoisyStep files s l s') : s'.Tamed files := by
  cases h with
  | intact h => exact h.tamed hs
  | @flippedAck a k b stack buffer hc ha hk =>
    have hs := hs.of_waiting hc
    have hs' : Sys.Inv files { s with toClient := s.toClient.erase a } :=
      { hs with toClient := fun b hb => hs.toClient b (Multiset.mem_of_mem_erase hb) }
    have hsent := fun p (hp : p ∈ (onAck files (a.flip k b) stack buffer).2) => onAck_sent hp
    by_cases hdone : s.server.Done
    · by_cases hfail : (onAck files (a.flip k b) stack buffer).1 = .failed
      · refine .inr ⟨hfail, ?_⟩
        exact hs'.clientMoves ClientPc.noConfusion (fun _ => hdone) hsent
      · exact .inl (hs'.clientMoves hfail (fun _ => hdone) hsent)
    · -- not all files are saved, so the number is that of a file
      have hmissing : ¬ ∀ f, s.Saved f := fun h => hdone fun f => (hs.saved f).mp (h f)
      have hlt := (hcare a k b stack buffer rfl).resolve_right hmissing
      have hf : (a.flip k b).fileNumber.toNat = (⟨_, hlt⟩ : Fin numFiles) := rfl
      rw [onAck_file hf] at hsent ⊢
      exact .inl (hs'.clientMoves ClientPc.noConfusion ClientPc.noConfusion hsent)

/-- **The client ends last** in a run of careful steps, and the next step keeps it so exactly when
    it is careful. -/
theorem client_termination (files : Files) :
    ∀ s, ((noisy files).restrict CarefulAck).Reachable s → EndsLast s ∧
      ∀ l s', NoisyStep files s l s' → (EndsLast s' ↔ CarefulAck s l) := by
  intro s h
  have hs : s.Tamed files := by
    refine h.invariant (fun s hs => ?_)
      fun s l s' hs (hstep : CarefulAck s l ∧ NoisyStep files s l s') => hstep.2.tamed hs hstep.1
    obtain rfl : s = .start := hs
    exact .inl (start_inv files)
  refine ⟨hs.endsLast, fun l s' hstep => ⟨fun hlast => ?_, fun hcare =>
    (hstep.tamed hs hcare).endsLast⟩⟩
  rintro a k b stack buffer rfl
  cases hstep with
  | flippedAck hc ha hk =>
    have hinv := hs.of_waiting hc
    rcases hinv.built a (hinv.toClient a ha) with ⟨-, hdone⟩ | ⟨f, hf, -⟩
    · exact .inr fun f => (hinv.saved f).mpr (hdone f)
    · by_cases hnum : (a.flip k b).fileNumber.toNat < numFiles
      · exact .inl hnum
      · exact .inr (hlast (.inr (flip_failed hf hnum)))

/-- The steps of the transfer are careful. -/
theorem noisy_reachable (h : (transfer files).Reachable s) :
    ((noisy files).restrict CarefulAck).Reachable s := by
  obtain ⟨ls, hr⟩ := h
  induction hr with
  | start h => exact ⟨[], .start h⟩
  | step _ hs ih => exact ih.step ⟨fun _ _ _ _ _ h => NoisyLabel.noConfusion h, .intact hs⟩

end Termination

/-- With files missing, the server sends acks at its next time-out, if it has not sent them when it
    came to its first `recvfrom`. -/
theorem ack_sent {files : Files} {s : Sys} (h : (transfer files).Reachable s)
    (hmissing : ¬ s.server.Done) (hsent : s.server.pc = .outer → s.toClient ≠ 0) :
    ∃ s', (transfer files).Reachable s' ∧ s'.client = s.client ∧ ¬ s'.server.Done ∧
      s'.toClient ≠ 0 := by
  have hs := transfer_inv h
  cases hpc : s.server.pc with
  | outer => exact ⟨s, h, rfl, hmissing, hsent hpc⟩
  | inner =>
    have hstep := Step.leave files hpc fun _ _ => false
    have hacks : s.server.leave.requests (fun _ _ => false) ≠ [] :=
      leave_requests hs.server hmissing
    have hsaved := (leave_frame s.server).2.2.2
    generalize s.server.leave = t at hstep hacks hsaved
    refine ⟨_, h.step hstep, rfl, fun hdone => hmissing fun f => ?_, fun hzero => ?_⟩
    · have hf : t.fileSaved f.castSucc = true := hdone f
      rwa [hsaved] at hf
    · exact hacks (coe_add_eq_zero.mp hzero).1
  | finishing => exact absurd (done_of_finishing hs.server hpc) hmissing

/-- The files are empty. The packet of the first one arrives, the server asks for the others, the
    rest of `init_send` is lost, and the client waits. -/
theorem waiting_with_ack : ∃ s a, (transfer fun _ => []).Reachable s ∧ s.client = .waiting ∧
    a ∈ s.toClient ∧ ¬ s.server.Done := by
  let files : Files := fun _ => []
  have hpos : 0 < numPackets files file0 :=
    show 0 < (BitVec.ofNat 16 (0 / packetSize + 1)).toNat by decide
  have hstart : (transfer files).Reachable .start := ⟨[], .start rfl⟩
  have hsent := hstart.step (sentFirst_step files)
  obtain ⟨p, hp, hgen, -⟩ := exists_sentFirst files hpos
  obtain ⟨t, saved, hout, harrive⟩ := (transfer_inv hsent).arrive (by decide) hp hgen
    fun _ _ => false
  have hmissing : ¬ t.Done := by
    intro hdone
    have hone := hdone ⟨1, by decide⟩
    rcases hout.storeFile with ⟨-, heq⟩ | ⟨c, -, -, heq⟩
    · rw [heq] at hone
      cases hone
    · rw [heq] at hone
      cases hone
  obtain ⟨s, hreach, hclient, hmissing', hack⟩ := ack_sent (hsent.step harrive) hmissing
    fun hpc hzero =>
      requests_ne_nil (hout.ok (Server.new_ok _) hgen.toHeader) hpc (coe_add_eq_zero.mp hzero).1
  obtain ⟨a, ha⟩ := Multiset.exists_mem_of_ne_zero hack
  have hnext : s.client = .initSend ⟨1, by decide⟩ := hclient
  have hlost := lost_init (R := (transfer fun _ => []).Reachable)
    (fun _ _ _ _ h hstep => h.step hstep) hreach hnext
  exact ⟨_, a, hlost, rfl, ha, hmissing'⟩

/-- An ack with a flipped bit in its bitmap is answered. -/
theorem client_termination_bitmap : ∃ s a s', CarefulAck s
      (.flippedAck a 16 false (fun _ => false)
        ⟨List.replicate packetSize 0, List.length_replicate⟩) ∧
    NoisyStep (fun _ => []) s (.flippedAck a 16 false (fun _ => false)
      ⟨List.replicate packetSize 0, List.length_replicate⟩) s' ∧ EndsLast s' := by
  obtain ⟨s, a, hreach, hclient, ha, hmissing⟩ := waiting_with_ack
  have hs := transfer_inv hreach
  have hstep : NoisyStep (fun _ => []) s (.flippedAck a 16 false (fun _ => false)
      ⟨List.replicate packetSize 0, List.length_replicate⟩) _ :=
    .flippedAck hclient ha (by decide)
  have hcare : CarefulAck s (.flippedAck a 16 false (fun _ => false)
      ⟨List.replicate packetSize 0, List.length_replicate⟩) := by
    intro a' k b stack buffer h
    cases h
    rcases hs.built a (hs.toClient a ha) with ⟨-, hdone⟩ | ⟨f, hf, -⟩
    · exact absurd hdone hmissing
    · have hnum : a.fileNumber.toNat < numFiles := hf ▸ f.isLt
      exact .inl hnum
  have hlast := (client_termination (fun _ => []) s (noisy_reachable hreach)).2 _ _ hstep
  exact ⟨s, a, _, hcare, hstep, hlast.mpr hcare⟩

/-- **The client gives up**: one bit of the number in an ack makes it end with an error while files
    are missing. -/
theorem client_gives_up : ∃ s a s', (noisy fun _ => []).Reachable s ∧
    NoisyStep (fun _ => []) s
      (.flippedAck a 15 false (fun _ => false) ⟨List.replicate packetSize 0, List.length_replicate⟩)
      s' ∧ s'.client = .failed ∧ ¬ ∀ f, s'.Saved f := by
  obtain ⟨s, a, hreach, hclient, ha, hmissing⟩ := waiting_with_ack
  have hs := transfer_inv hreach
  have hfile : ∃ f : Fin numFiles, a.fileNumber.toNat = f := by
    rcases hs.built a (hs.toClient a ha) with ⟨-, hdone⟩ | ⟨f, hf, -⟩
    · exact absurd hdone hmissing
    · exact ⟨f, hf⟩
  obtain ⟨f, hf⟩ := hfile
  have hbit : (a.flip 15 false).fileNumber.getLsbD 15 = true :=
    flipBit_high (hf ▸ f.isLt) 15 (by decide) (by decide)
  have hge : 2 ^ 15 ≤ (a.flip 15 false).fileNumber.toNat := Nat.ge_two_pow_of_testBit hbit
  have hnum : ¬ (a.flip 15 false).fileNumber.toNat < numFiles := by
    unfold numFiles
    omega
  refine ⟨s, a, _, (noisy_reachable hreach).of_restrict, .flippedAck hclient ha (by decide),
    flip_failed hf hnum, fun h => hmissing fun g => (hs.saved g).mp (h g)⟩

end InpLabs.Udp
