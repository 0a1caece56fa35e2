/-
  File:      InpLabs/Bulk/Completion.lean
  Subject:   **The transfer of all files can always be completed**, and what is saved then
             (lab6/others: Star and KJL).

  * `leads_closer`, `leads_saved`: as long as something is missing, a round brings a piece of it;
  * `leads_ended`: the server then answers every packet with `FIN`;
  * `star_saves`, `star_completes`: Star saves the files that were sent;
  * `kjl_saves_iff`: the last piece of KJL is padded, and its loop takes the zeros for file 0.
-/
import InpLabs.Bulk.Safety

namespace InpLabs.Bulk

open InpLabs.Lib

/-! ## 1. Steps that lead on -/

section Completion

variable {timed : Prop} {payload : Bytes} {s : Sys} {k : Nat}

/-- The time-out ends what the client reads. -/
theorem leads_sending (htimed : timed) (payload : Bytes) (s : Sys) :
    ∃ t, (transfer timed payload).Leads s t ∧ t.server = s.server ∧ t.client.pc ≠ .reading := by
  cases hpc : s.client.pc with
  | sending => exact ⟨s, .refl, rfl, by rw [hpc]; exact ClientPc.noConfusion⟩
  | ended => exact ⟨s, .refl, rfl, by rw [hpc]; exact ClientPc.noConfusion⟩
  | reading =>
    refine ⟨_, .of_step (Step.timeout htimed hpc), rfl, ?_⟩
    show (if _ then ClientPc.ended else ClientPc.sending) ≠ .reading
    split <;> exact ClientPc.noConfusion

/-- A piece that is missing is sent in the next round. -/
theorem mem_round (hs : s.Inv payload) (hk : k ≤ last payload) (hmiss : ¬ s.server.Has k) :
    wrapSend k (buf payload k) ∈ s.client.round := by
  have hmem := (hs.dataMap (k, buf payload k) (mem_startMap.mpr ⟨hk, rfl⟩)).resolve_right hmiss
  have hbit : s.client.sRes.bits.getLsbD k = false := by
    rw [← Bool.not_eq_true]
    exact mt (hs.sRes k) hmiss
  exact List.mem_map.mpr ⟨_, List.mem_filter.mpr ⟨hmem, by rw [hbit]; rfl⟩, rfl⟩

/-- What is missing. -/
noncomputable def missing (payload : Bytes) (srv : Server) : Finset Nat :=
  open Classical in (Finset.range (last payload + 1)).filter fun k => ¬ srv.Has k

theorem mem_missing {srv : Server} : k ∈ missing payload srv ↔ k ≤ last payload ∧ ¬ srv.Has k := by
  simp [missing]

/-- **As long as something is missing**, one more piece of it can arrive. -/
theorem leads_closer (htimed : timed) (hn : Numbered payload)
    (h : (transfer timed payload).Reachable s) (hpc : s.server.pc ≠ .finishing) :
    ∃ t, (transfer timed payload).Leads s t ∧
      (missing payload t.server).card < (missing payload s.server).card := by
  obtain ⟨u, hsu, hserver, hreading⟩ := leads_sending htimed payload s
  have hu := transfer_inv hn (hsu.reachable h)
  have hsending : u.client.pc = .sending := by
    cases hupc : u.client.pc with
    | sending => rfl
    | reading => exact absurd hupc hreading
    | ended => exact absurd (hserver ▸ hu.ended hupc) hpc
  obtain ⟨k, hk, hmiss⟩ : ∃ k ≤ last payload, ¬ u.server.Has k := by
    by_contra hall
    simp only [not_exists, not_and, not_not] at hall
    exact hpc (hserver ▸ hu.server.pc.mpr hall)
  have hreceiving : u.server.pc = .receiving := by
    cases hupc : u.server.pc with
    | receiving => rfl
    | finishing => exact absurd (hu.server.pc.mp hupc k hk) hmiss
  -- the round, and then the piece arrives
  have hround : (transfer timed payload).step u .round _ := Step.round hsending
  obtain ⟨t, ht, -, hhas⟩ := onPacket_genuine hn hu.server.toStored hk
  have hpacket : (transfer timed payload).step _ (.packet (wrapSend k (buf payload k)) false) _ :=
    Step.packet (s := { u with
      client := { u.client with pc := .reading }
      toServer := (u.client.round : Multiset Packet) + u.toServer }) hreceiving
      (Multiset.mem_add.mpr (.inl (Multiset.mem_coe.mpr (mem_round hu hk hmiss)))) ht
  refine ⟨_, hsu.trans ((Lts.Leads.of_step hround).trans (.of_step hpacket)), ?_⟩
  rw [← hserver]
  refine Finset.card_lt_card ((Finset.ssubset_iff_of_subset fun j hj => ?_).mpr ⟨k, ?_, ?_⟩)
  · obtain ⟨hle, hnot⟩ := mem_missing.mp hj
    exact mem_missing.mpr ⟨hle, fun hj => hnot ((hhas j).mpr (.inr hj))⟩
  · exact mem_missing.mpr ⟨hk, hmiss⟩
  · exact fun hmem => (mem_missing.mp hmem).2 ((hhas k).mpr (.inl rfl))

/-- Everything can arrive. -/
theorem leads_saved (htimed : timed) (hn : Numbered payload)
    (h : (transfer timed payload).Reachable s) :
    ∃ t, (transfer timed payload).Leads s t ∧ t.server.pc = .finishing := by
  obtain ⟨t, hst, -, ht⟩ := Lts.leads_of_measure (I := (transfer timed payload).Reachable)
    (G := fun t => t.server.pc = .finishing) (fun t => (missing payload t.server).card)
    (fun u hu hpc => by
      obtain ⟨t, hut, hlt⟩ := leads_closer htimed hn hu hpc
      exact ⟨t, hut, hut.reachable hu, hlt⟩) h
  exact ⟨t, hst, ht⟩

/-- The client ends at a `FIN`. -/
theorem onResponse_fin (c : Client) (srv : Server) : (c.onResponse srv.fin).pc = .ended := by
  have hmax : srv.fin.dataSeq.toNat = uintMax :=
    (by decide : (BitVec.ofNat 32 uintMax).toNat = uintMax)
  unfold Client.onResponse
  rw [if_pos hmax]

/-- **Behind the loop of the server** the client can end, too. -/
theorem leads_ended (htimed : timed) (payload : Bytes) (hpc : s.server.pc = .finishing) : ∃ t,
    (transfer timed payload).Leads s t ∧
      t.server.pc = .finishing ∧ t.client.pc = .ended := by
  obtain ⟨u, hsu, hserver, hreading⟩ := leads_sending htimed payload s
  have hfin : u.server.pc = .finishing := hserver ▸ hpc
  cases hupc : u.client.pc with
  | reading => exact absurd hupc hreading
  | ended => exact ⟨u, hsu, hfin, hupc⟩
  | sending =>
    have hround : (transfer timed payload).step u .round _ := Step.round hupc
    cases hsent : u.client.round with
    | nil =>
      -- everything is acknowledged, and so erased after the time-out
      refine ⟨_, hsu.trans ((Lts.Leads.of_step hround).trans (.of_step (Step.timeout htimed rfl))),
        hfin, if_pos ?_⟩
      exact List.map_eq_nil_iff.mp hsent
    | cons p ps =>
      -- a packet arrives, and the `FIN` for it
      rw [hsent] at hround
      have hanswer : (transfer timed payload).step _ (.fin p) _ :=
        Step.fin (s := { u with
          client := { u.client with pc := .reading }
          toServer := ((p :: ps : List Packet) : Multiset Packet) + u.toServer }) hfin
          (Multiset.mem_add.mpr (.inl (Multiset.mem_coe.mpr List.mem_cons_self)))
      refine ⟨_, hsu.trans ((Lts.Leads.of_step hround).trans ((Lts.Leads.of_step hanswer).trans
        (.of_step (Step.response (r := u.server.fin) rfl ?_)))), hfin,
        onResponse_fin _ _⟩
      exact Multiset.mem_add.mpr (.inl (Multiset.mem_replicate.mpr ⟨by decide, rfl⟩))

/-- A run to the end. -/
theorem exists_ended (htimed : timed) (hn : Numbered payload) : ∃ s,
    (transfer timed payload).Reachable s ∧ s.server.pc = .finishing ∧ s.client.pc = .ended := by
  have hstart : (transfer timed payload).Reachable (.start payload) := ⟨[], .start rfl⟩
  obtain ⟨u, hu, hpc⟩ := leads_saved htimed hn hstart
  obtain ⟨t, ht, hfin, hended⟩ := leads_ended htimed payload hpc
  exact ⟨t, ht.reachable (hu.reachable hstart), hfin, hended⟩

end Completion

/-! ## 2. Star -/

section Star

variable {timed : Prop} {payload compData : Bytes} {contents : List Bytes} {s : Sys}

/-- What `ZSTD_decompress` reads is what was sent. -/
theorem take_copyAll (hn : Numbered payload) (h : (transfer timed payload).Reachable s)
    (hpc : s.server.pc = .finishing) (hdata : compData.length = compCapacity s.server.compSize) :
    (copyAll s.server.pieces compData).take s.server.compSize = payload := by
  have hs := (transfer_inv hn h).server
  by_cases hne : payload = []
  · subst hne
    have hzero := hs.compSize.resolve_left (has_zero.mp (hs.pc.mp hpc 0 (Nat.zero_le _)))
    rw [hzero]
    exact List.take_zero
  · obtain ⟨hsize, hmake⟩ := pieces_make hn hs hpc hne hdata
    rw [hmake, hsize]
    exact List.take_left

/-- **The client of Star ends only when the server has everything**, and what the server saves then
are the files that the client has read, whatever stood in its memory. -/
theorem star_saves (codec : Codec) (hcount : contents.length ≤ 2 ^ 32)
    (hsize : ∀ c ∈ contents, c.length < 2 ^ 32)
    (hn : Numbered (codec.compress (origData (readFiles contents))))
    (h : (transfer timed (codec.compress (origData (readFiles contents)))).Reachable s) :
    (s.client.pc = .ended → s.server.pc = .finishing) ∧
      (s.server.pc = .finishing → ∀ compData : Bytes,
        compData.length = compCapacity s.server.compSize →
          s.server.saveStar codec compData = some (readFiles contents)) := by
  refine ⟨(transfer_inv hn h).ended, fun hpc compData hdata => ?_⟩
  unfold Server.saveStar
  dsimp only
  rw [take_copyAll hn h hpc hdata, codec.decompress_compress]
  exact records_origData (readFiles_fits hcount hsize)

/-- A frame with one block that is not compressed. -/
def Codec.stored : Codec where
  compress data :=
    [0x28, 0xb5, 0x2f, 0xfd, 0x20] ++ le 1 data.length ++ le 3 (8 * data.length + 1) ++ data
  decompress frame := frame.drop 9
  decompress_compress data := by
    rw [List.drop_left']
    simp [le_length]

theorem star_saves_two : ∃ s,
    (transfer True (Codec.stored.compress (origData (readFiles [[104, 105], []])))).Reachable s ∧
      s.client.pc = .ended ∧ ∀ compData : Bytes, compData.length = compCapacity s.server.compSize →
        s.server.saveStar .stored compData = some [(0, [104, 105]), (1, [])] := by
  have hn : Numbered (Codec.stored.compress (origData (readFiles [[104, 105], []]))) := by
    unfold Numbered
    decide
  obtain ⟨s, hs, -, hended⟩ := exists_ended trivial hn
  have hsize : ∀ c ∈ ([[104, 105], []] : List Bytes), c.length < 2 ^ 32 := by decide
  obtain ⟨hfin, hsaves⟩ := star_saves .stored (by decide) hsize hn hs
  exact ⟨s, hs, hended, hsaves (hfin hended)⟩

/-- **The transfer never hangs** if `set_sockopt` gives the socket a time-out: whatever has
happened, some steps lead to the end of the client and of the loop of the server. -/
theorem star_completes (htimed : timed) (hn : Numbered payload)
    (h : (transfer timed payload).Reachable s) :
    ∃ t, (transfer timed payload).Leads s t ∧ t.client.pc = .ended ∧ t.server.pc = .finishing := by
  obtain ⟨u, hsu, hfin⟩ := leads_saved htimed hn h
  obtain ⟨t, hut, hpc, hended⟩ := leads_ended htimed payload hfin
  exact ⟨t, hsu.trans hut, hended, hpc⟩

/-- The client is in its second round, and the first packets are lost. -/
theorem star_completes_lost : ∃ s, (transfer True [104, 105]).Reachable s ∧ s.toServer = 0 ∧
    s.client.pc = .reading ∧ s.server.wants = true ∧
      ∃ t, (transfer True [104, 105]).Leads s t ∧ t.client.pc = .ended ∧
        t.server.pc = .finishing := by
  have hn : Numbered [104, 105] := by
    unfold Numbered
    decide
  have hstart : (transfer True [104, 105]).Reachable (.start [104, 105]) := ⟨[], .start rfl⟩
  have hround := hstart.step (Step.round rfl)
  have hlost : (transfer True [104, 105]).Reachable
      ⟨⟨.reading, startMap [104, 105], ⟨0, 0⟩⟩, .new, 0, 0⟩ :=
    Channel.lose_all (P := fun c => (transfer True [104, 105]).Reachable
        ⟨⟨.reading, startMap [104, 105], ⟨0, 0⟩⟩, .new, c, 0⟩)
      (fun c c' hc hlose => hc.step (Step.toServer hlose)) hround
  exact ⟨_, hlost, rfl, rfl, rfl, star_completes trivial hn hlost⟩

end Star

/-! ## 3. KJL -/

/-- The files after the writes: the last one of a name counts. -/
def write (files : List File) (written : Nat → Option Bytes) : Nat → Option Bytes :=
  files.foldl (fun written f => Function.update written f.1 (some f.2)) written

section Kjl

variable {timed : Prop} {content : Bytes} {files : List File} {s : Sys}
  {disk written : Nat → Option Bytes} {i : Nat}

theorem write_append (files files' : List File) (written : Nat → Option Bytes) :
    write (files ++ files') written = write files' (write files written) := List.foldl_append

theorem write_of_notMem (h : i ∉ files.map Prod.fst) : write files written i = written i := by
  induction files generalizing written with
  | nil => rfl
  | cons f files ih =>
    rw [List.map_cons, List.mem_cons, not_or] at h
    exact (ih h.2).trans (Function.update_of_ne h.1 _ _)

/-- Where the numbers differ, every file is there. -/
theorem write_of_mem (hnodup : (files.map Prod.fst).Nodup) (h : (i, content) ∈ files) :
    write files written i = some content := by
  induction files generalizing written with
  | nil => cases h
  | cons f files ih =>
    rw [List.map_cons, List.nodup_cons] at hnodup
    rcases List.mem_cons.mp h with rfl | h
    · exact (write_of_notMem hnodup.1).trans (Function.update_self _ _ _)
    · exact ih hnodup.2 h

/-- Empty files with the number 0. -/
theorem write_replicate (n : Nat) (written : Nat → Option Bytes) :
    write (List.replicate (n + 1) (0, [])) written = Function.update written 0 (some []) := by
  induction n generalizing written with
  | zero => rfl
  | succ n ih =>
    rw [List.replicate_succ]
    exact (ih _).trans (Function.update_idem _ _ _)

/-- What a session has read is written again. -/
theorem write_session (hread : readSession disk 0 = .ok files) (hi : i < subSize) :
    write files written i = disk i := by
  obtain ⟨hnames, hdisk⟩ := readSession_ok hread
  have hmem : i ∈ files.map Prod.fst := hnames ▸ List.mem_range.mpr hi
  obtain ⟨f, hf, rfl⟩ := List.mem_map.mp hmem
  exact (write_of_mem (hnames ▸ List.nodup_range) hf).trans (hdisk f hf).symm

/-- Behind the files that were sent, empty files overwrite file 0. -/
theorem write_padded_iff (hread : readSession disk 0 = .ok files) (m : Nat)
    (written : Nat → Option Bytes) :
    (∀ i < subSize, write (files ++ List.replicate m (0, [])) written i = disk i) ↔
      m = 0 ∨ disk 0 = some [] := by
  cases m with
  | zero =>
    rw [List.replicate_zero, List.append_nil]
    exact iff_of_true (fun i hi => write_session hread hi) (.inl rfl)
  | succ m =>
    rw [write_append, write_replicate, or_iff_right (Nat.succ_ne_zero m)]
    constructor
    · intro h
      exact (h 0 (by decide)).symm.trans (Function.update_self _ _ _)
    · intro hempty i hi
      by_cases hzero : i = 0
      · subst hzero
        exact (Function.update_self _ _ _).trans hempty.symm
      · exact (Function.update_of_ne hzero _ _).trans (write_session hread hi)

/-- The zeros behind the files in the last piece. -/
def pad (payload : Bytes) : Nat := last payload * dataSize - payload.length

/-- How many empty files they are. -/
theorem pad_iff (payload : Bytes) : (8 ∣ pad payload ↔ 8 ∣ payload.length) ∧
    (8 ∣ payload.length → (pad payload / 8 = 0 ↔ dataSize ∣ payload.length)) := by
  have hlast : last payload = (payload.length + 1167) / 1168 := rfl
  have hsize : dataSize = 1168 := rfl
  unfold pad
  rw [hlast, hsize]
  omega

/-- What KJL reads back: the files, and a file for every eight zeros in the last piece. -/
theorem saveKjl_eq (hfits : Fits files) (hne : files ≠ []) (hn : Numbered (origData files))
    (h : (transfer timed (origData files)).Reachable s) (hpc : s.server.pc = .finishing) :
    s.server.saveKjl = if 8 ∣ pad (origData files) then
      some (files ++ List.replicate (pad (origData files) / 8) (0, [])) else none := by
  have hpayload : origData files ≠ [] := by
    have hle := length_le_origData files
    have hpos := List.length_pos_of_ne_nil hne
    exact List.ne_nil_of_length_pos (by omega)
  obtain ⟨-, hmake⟩ := pieces_make hn (transfer_inv hn h).server hpc hpayload
    (List.length_replicate (a := 0))
  have hrecords := records_padded hfits (pad (origData files))
  unfold Server.saveKjl
  dsimp only
  rw [hmake, padded, List.length_append, List.length_replicate]
  exact hrecords

/-- **What KJL saves of its first session**: the files that were sent exactly where the last piece
is full, or its zeros are read as file 0, which is empty itself. Otherwise file 0 is overwritten, or
the loop reads behind the array. There is no second session. -/
theorem kjl_saves_iff (hread : readSession disk 0 = .ok files)
    (hsize : ∀ f ∈ files, f.2.length < 2 ^ 32) (hn : Numbered (origData files))
    (h : (transfer timed (origData files)).Reachable s) (hpc : s.server.pc = .finishing)
    (written : Nat → Option Bytes) :
    ((∃ saved, s.server.saveKjl = some saved ∧ ∀ i < subSize, write saved written i = disk i) ↔
        dataSize ∣ (origData files).length ∨ 8 ∣ (origData files).length ∧ disk 0 = some []) ∧
      (8 ∣ (origData files).length → ¬ dataSize ∣ (origData files).length →
        ∃ saved, s.server.saveKjl = some saved ∧
          write saved written = Function.update (write files written) 0 (some [])) ∧
      (¬ 8 ∣ (origData files).length → s.server.saveKjl = none) ∧
      ∀ st data, subSize ≤ st → disk st = some data →
        readSession disk st = .error (.outside st) := by
  obtain ⟨hnames, -⟩ := readSession_ok hread
  have hfits : Fits files := fun f hf => by
    have hname : f.1 < subSize := List.mem_range.mp (hnames ▸ List.mem_map_of_mem hf)
    exact ⟨hname.trans (by decide), hsize f hf⟩
  have hne : files ≠ [] := fun hnil => by
    rw [hnil] at hnames
    cases hnames
  have hsave := saveKjl_eq hfits hne hn h hpc
  obtain ⟨hpad, hempty⟩ := pad_iff (origData files)
  have height : dataSize ∣ (origData files).length → 8 ∣ (origData files).length :=
    (by decide : 8 ∣ dataSize).trans
  by_cases hdvd : 8 ∣ (origData files).length
  · rw [if_pos (hpad.mpr hdvd)] at hsave
    refine ⟨?_, fun _ hfull => ⟨_, hsave, ?_⟩, absurd hdvd,
      fun _ _ hst hdisk => readSession_outside hst hdisk⟩
    · rw [hsave, and_iff_right hdvd, ← hempty hdvd, ← write_padded_iff hread _ written]
      simp only [Option.some.injEq, exists_eq_left']
    · obtain ⟨m, hm⟩ := Nat.exists_eq_succ_of_ne_zero (mt (hempty hdvd).mp hfull)
      rw [write_append, hm, write_replicate]
  · rw [if_neg (mt hpad.mp hdvd)] at hsave
    refine ⟨iff_of_false ?_ ?_, fun h => absurd h hdvd, fun _ => hsave,
      fun _ _ hst hdisk => readSession_outside hst hdisk⟩
    · intro hsaved
      obtain ⟨saved, hsome, -⟩ := hsaved
      rw [hsave] at hsome
      cases hsome
    · intro hor
      rcases hor with hfull | ⟨h, -⟩
      · exact hdvd (height hfull)
      · exact hdvd h

/-- A directory: the first file has eight bytes, and the others have none. -/
def sparseDisk : Nat → Option Bytes
  | 0 => some (List.replicate 8 104)
  | _ + 1 => some []

/-- What the client reads of it. -/
def sparseFiles : List File := (0, List.replicate 8 104) :: (List.range' 1 49).map fun i => (i, [])

/-- Everything arrives, and the first file is lost. -/
theorem kjl_saves_iff_sparse : readSession sparseDisk 0 = .ok sparseFiles ∧
    ∃ s, (transfer True (origData sparseFiles)).Reachable s ∧ s.server.pc = .finishing ∧
      ∃ saved, s.server.saveKjl = some saved ∧ write saved (fun _ => none) 0 = some [] ∧
        (∀ i, 0 < i → i < subSize → write saved (fun _ => none) i = some []) ∧
        readSession sparseDisk 50 = .error (.outside 50) := by
  have hread : readSession sparseDisk 0 = .ok sparseFiles := rfl
  have hlength : (origData sparseFiles).length = 408 := by decide +kernel
  have hn : Numbered (origData sparseFiles) := by
    unfold Numbered last pieceCount
    rw [hlength]
    decide
  have hsize : ∀ f ∈ sparseFiles, f.2.length < 2 ^ 32 := by decide +kernel
  obtain ⟨s, hs, hfin, -⟩ := exists_ended trivial hn
  obtain ⟨-, hlost, -, hlater⟩ := kjl_saves_iff hread hsize hn hs hfin fun _ => none
  rw [hlength] at hlost
  obtain ⟨saved, hsaved, hwrite⟩ := hlost (by decide) (by decide)
  refine ⟨hread, s, hs, hfin, saved, hsaved, ?_, fun i hpos hlt => ?_,
    hlater 50 [] (Nat.le_refl 50) rfl⟩
  · rw [hwrite, Function.update_self]
  · rw [hwrite, Function.update_of_ne (by omega), write_session hread hlt]
    obtain ⟨k, rfl⟩ := Nat.exists_eq_succ_of_ne_zero (by omega : i ≠ 0)
    rfl

end Kjl

end InpLabs.Bulk
