/-
  File:      InpLabs/Bulk/Safety.lean
  Subject:   **The files that are saved are the files that were sent**, over a network that loses,
             duplicates and reorders (lab6/others: Star; KJL but for its `save_to_file`).

  * `Server.Has`, `Server.Stored`: what has arrived, and that it is put away right;
    `wants_iff`: the loop of the server ends when everything has;
  * `Sys.Inv`, `transfer_inv`: what is said to have arrived has arrived, and the client forgets
    nothing else;
  * `pieces_make`: the pieces make the string again;
  * `star_saves`; `kjl_saves_iff`: the last piece of KJL is padded, and file 0 is lost.
-/
import InpLabs.Bulk.Transfer

namespace InpLabs.Bulk

open InpLabs.Lib

/-! ## 1. What arrives -/

/-- What packet `k` carries. -/
def buf (payload : Bytes) (k : Nat) : Bytes :=
  if k = 0 then zeroBytes payload.length else piece dataSize payload (k - 1)

/-- The number of the last packet. -/
abbrev last (payload : Bytes) : Nat := pieceCount dataSize payload

/-- A packet as the client sends it. -/
def Genuine (payload : Bytes) (p : Packet) : Prop :=
  ∃ k ≤ last payload, p = wrapSend k (buf payload k)

/-- Packet `k` has arrived. -/
def Server.Has (s : Server) (k : Nat) : Prop :=
  if k = 0 then s.compSize ≠ uintMax else k ∈ s.dataMap

/-- What has arrived is put away. -/
structure Server.Stored (payload : Bytes) (s : Server) : Prop where
  bits : ∀ k, s.recvbit.getLsbD k = true ↔ s.Has k
  compSize : s.compSize = uintMax ∨ s.compSize = payload.length
  pieces : ∀ k data, s.dataMap[k]? = some data →
    k ≠ 0 ∧ k ≤ last payload ∧ data = (wrapSend k (buf payload k)).data
  recvSize : s.recvSize = s.dataMap.size * dataSize

structure Server.Ok (payload : Bytes) (s : Server) : Prop extends s.Stored payload where
  pc : s.pc = .finishing ↔ ∀ k ≤ last payload, s.Has k

section Server

variable {payload : Bytes} {s t : Server} {k j : Nat} {e : Nat × Bytes} {p : Packet}

theorem mem_startMap : e ∈ startMap payload ↔ e.1 ≤ last payload ∧ e.2 = buf payload e.1 := by
  obtain ⟨k, data⟩ := e
  rw [startMap, List.mem_cons, List.mem_map]
  constructor
  · rintro (h | ⟨i, hi, h⟩)
    · cases h
      exact ⟨Nat.zero_le _, rfl⟩
    · cases h
      exact ⟨List.mem_range.mp hi, rfl⟩
  · intro ⟨hk, hdata⟩
    obtain rfl : data = buf payload k := hdata
    cases k with
    | zero => exact .inl rfl
    | succ i => exact .inr ⟨i, List.mem_range.mpr hk, rfl⟩

@[simp] theorem has_zero : s.Has 0 ↔ s.compSize ≠ uintMax := by
  unfold Server.Has
  rw [if_pos rfl]

theorem has_of_ne (h : k ≠ 0) : s.Has k ↔ k ∈ s.dataMap := by
  unfold Server.Has
  rw [if_neg h]

/-- Everything fits into the bitset. -/
def Numbered (payload : Bytes) : Prop := last payload < dataSize * 8

theorem Numbered.length_lt (h : Numbered payload) : payload.length < uintMax := by
  have hle : payload.length ≤ last payload * 1168 := length_le_pieceCount (by decide) payload
  have hlast : last payload < 1168 * 8 := h
  unfold uintMax
  omega

theorem new_ok (payload : Bytes) : Server.new.Ok payload where
  bits k := by
    have hbit : Server.new.recvbit.getLsbD k = false := BitVec.getLsbD_zero
    rw [hbit]
    refine iff_of_false Bool.false_ne_true fun h => ?_
    by_cases hk : k = 0
    · subst hk
      exact has_zero.mp h rfl
    · exact Std.ExtTreeMap.not_mem_empty ((has_of_ne hk).mp h)
  compSize := .inl rfl
  pieces k data h := by
    rw [Server.new, Std.ExtTreeMap.getElem?_empty] at h
    cases h
  recvSize := rfl
  pc := iff_of_false ServerPc.noConfusion fun h => has_zero.mp (h 0 (Nat.zero_le _)) rfl

theorem Server.Stored.mem_range (hs : s.Stored payload) :
    ∀ k ∈ s.dataMap, k ∈ List.range' 1 (last payload) := by
  intro k hk
  obtain ⟨data, hdata⟩ := Map.mem_iff.mp hk
  obtain ⟨hne, hle, -⟩ := hs.pieces k data hdata
  exact List.mem_range'_1.mpr ⟨Nat.pos_of_ne_zero hne, by omega⟩

theorem Server.Stored.size_le (hs : s.Stored payload) : s.dataMap.size ≤ last payload := by
  have hle := Map.size_le_length hs.mem_range
  rwa [List.length_range'] at hle

/-- Everything has arrived when the size and all pieces have. -/
theorem Server.Stored.all_iff (hs : s.Stored payload) : (∀ k ≤ last payload, s.Has k) ↔
    s.compSize ≠ uintMax ∧ last payload ≤ s.dataMap.size := by
  have hcount := Map.length_le_size_iff hs.mem_range List.nodup_range'
  rw [List.length_range'] at hcount
  rw [hcount]
  constructor
  · intro h
    refine ⟨has_zero.mp (h 0 (Nat.zero_le _)), fun k hk => ?_⟩
    obtain ⟨hpos, hlt⟩ := List.mem_range'_1.mp hk
    exact (has_of_ne (by omega)).mp (h k (by omega))
  · intro ⟨h0, h⟩ k hk
    by_cases hzero : k = 0
    · subst hzero
      exact has_zero.mpr h0
    · exact (has_of_ne hzero).mpr (h k (List.mem_range'_1.mpr ⟨by omega, by omega⟩))

/-- **The loop ends when everything has arrived.** -/
theorem Server.Stored.wants_iff (hs : s.Stored payload) :
    s.wants = false ↔ ∀ k ≤ last payload, s.Has k := by
  rw [hs.all_iff, Server.wants, Bool.or_eq_false_iff, decide_eq_false_iff_not,
    decide_eq_false_iff_not]
  refine and_congr_right fun hne => ?_
  have hlast : last payload = (payload.length + 1167) / 1168 := rfl
  have hrecv : s.recvSize = s.dataMap.size * 1168 := hs.recvSize
  rw [hs.compSize.resolve_left hne]
  omega

theorem wrapSend_seq (hn : Numbered payload) (hk : k ≤ last payload) (data : Bytes) :
    (wrapSend k data).dataSeq.toNat = k :=
  seq_toNat (Nat.lt_of_le_of_lt hk hn)

/-- The size is read as it was written. -/
theorem compSize_read (hn : Numbered payload) :
    ofLe ((wrapSend 0 (buf payload 0)).data.take 8) % 2 ^ 32 = payload.length := by
  have hlt := hn.length_lt
  unfold uintMax at hlt
  have hread : (wrapSend 0 (buf payload 0)).data.take 8 = le 8 payload.length := by
    unfold wrapSend buf zeroBytes
    dsimp only
    rw [if_pos rfl, List.take_take, List.append_assoc]
    exact List.take_left' (le_length 8 _)
  rw [hread, ofLe_le (by omega), Nat.mod_eq_of_lt (by omega)]

/-- What a genuine packet adds. -/
theorem Server.Stored.store (hn : Numbered payload) (hs : s.Stored payload)
    (hk : k ≤ last payload) : (s.store (wrapSend k (buf payload k))).Stored payload ∧
      ∀ j, (s.store (wrapSend k (buf payload k))).Has j ↔ j = k ∨ s.Has j := by
  have hlt : k < dataSize * 8 := Nat.lt_of_le_of_lt hk hn
  have hbit : ∀ {t : Server}, t.recvbit = setBit s.recvbit k →
      (∀ j, t.Has j ↔ j = k ∨ s.Has j) → ∀ j, t.recvbit.getLsbD j = true ↔ t.Has j := by
    intro t ht hhas j
    rw [ht, getLsbD_setBit hlt, Bool.or_eq_true, hs.bits, decide_eq_true_iff, hhas, or_comm,
      @eq_comm _ k j]
  unfold Server.store
  dsimp only
  rw [wrapSend_seq hn hk]
  by_cases hzero : k = 0
  · subst hzero
    rw [if_pos rfl, compSize_read hn]
    have hhas : ∀ j, Server.Has { s with
        recvbit := setBit s.recvbit 0
        compSize := payload.length } j ↔ j = 0 ∨ s.Has j := by
      intro j
      by_cases hj : j = 0
      · subst hj
        exact iff_of_true (has_zero.mpr (Nat.ne_of_lt hn.length_lt)) (.inl rfl)
      · rw [has_of_ne hj, has_of_ne hj, or_iff_right hj]
    exact ⟨⟨hbit rfl hhas, .inr rfl, hs.pieces, hs.recvSize⟩, hhas⟩
  · rw [if_neg hzero]
    by_cases hmem : k ∈ s.dataMap
    · rw [if_pos hmem]
      have hhas : ∀ j, Server.Has { s with recvbit := setBit s.recvbit k } j ↔ j = k ∨ s.Has j := by
        intro j
        refine ⟨.inr, fun h => h.elim (fun hj => ?_) id⟩
        subst hj
        exact (has_of_ne hzero).mpr hmem
      exact ⟨⟨hbit rfl hhas, hs.compSize, hs.pieces, hs.recvSize⟩, hhas⟩
    · rw [if_neg hmem]
      have hhas : ∀ j, Server.Has { s with
          recvbit := setBit s.recvbit k
          dataMap := s.dataMap.insert k (wrapSend k (buf payload k)).data
          recvSize := (s.recvSize + dataSize) % 2 ^ 32 } j ↔ j = k ∨ s.Has j := by
        intro j
        by_cases hj : j = 0
        · subst hj
          rw [has_zero, has_zero, or_iff_right (Ne.symm hzero)]
        · rw [has_of_ne hj, has_of_ne hj, Std.ExtTreeMap.mem_insert, Std.compare_eq_iff_eq,
            @eq_comm _ k j]
      refine ⟨⟨hbit rfl hhas, hs.compSize, ?_, ?_⟩, hhas⟩
      · intro j data hdata
        rw [Map.get?_insert] at hdata
        split at hdata
        · rename_i hkj
          subst hkj
          cases hdata
          exact ⟨hzero, hk, rfl⟩
        · exact hs.pieces j data hdata
      · have hle := hs.size_le
        have hlast : last payload < 1168 * 8 := hn
        have hrecv : s.recvSize = s.dataMap.size * 1168 := hs.recvSize
        have hinsert : (s.dataMap.insert k (wrapSend k (buf payload k)).data).size =
            s.dataMap.size + 1 := Std.ExtTreeMap.size_insert.trans (if_neg hmem)
        show (s.recvSize + 1168) % 2 ^ 32 = _ * 1168
        rw [hinsert]
        omega

/-- **One round of the server**: a genuine packet is put away, and the loop ends when it was the
last one that was missing. -/
theorem onPacket_genuine (hn : Numbered payload) (hs : s.Stored payload)
    (hk : k ≤ last payload) : ∃ t, s.onPacket (wrapSend k (buf payload k)) = some t ∧
      t.Ok payload ∧ ∀ j, t.Has j ↔ j = k ∨ s.Has j := by
  obtain ⟨hstored, hhas⟩ := hs.store hn hk
  have hwants := hstored.wants_iff
  refine ⟨_, if_pos ?_, ⟨⟨hstored.bits, hstored.compSize, hstored.pieces, hstored.recvSize⟩, ?_⟩,
    hhas⟩
  · rw [wrapSend_seq hn hk]
    exact Nat.lt_of_le_of_lt hk hn
  · refine Iff.trans ?_ hwants
    cases (s.store (wrapSend k (buf payload k))).wants <;> simp

end Server

/-! ## 2. The invariant -/

/-- What a response says is true. -/
structure Truthful (s : Server) (r : Response) : Prop where
  bits : ∀ k, r.bits.getLsbD k = true → s.Has k
  fin : r.dataSeq.toNat = uintMax → s.pc = .finishing

structure Sys.Inv (payload : Bytes) (s : Sys) : Prop where
  server : s.server.Ok payload
  toServer : ∀ p ∈ s.toServer, Genuine payload p
  toClient : ∀ r ∈ s.toClient, Truthful s.server r
  sRes : ∀ k, s.client.sRes.bits.getLsbD k = true → s.server.Has k
  dataMap_subset : ∀ e ∈ s.client.dataMap, e ∈ startMap payload
  /-- What the client has forgotten has arrived. -/
  dataMap : ∀ e ∈ startMap payload, e ∈ s.client.dataMap ∨ s.server.Has e.1
  ended : s.client.pc = .ended → s.server.pc = .finishing

section Inv

variable {timed : Prop} {payload : Bytes} {s s' : Sys} {l : Label} {srv t : Server} {r : Response}

theorem Truthful.mono (hhas : ∀ k, srv.Has k → t.Has k)
    (hpc : srv.pc = .finishing → t.pc = .finishing) (h : Truthful srv r) : Truthful t r :=
  ⟨fun k hk => hhas k (h.bits k hk), fun hfin => hpc (h.fin hfin)⟩

theorem mem_thrice {r q : Response} (h : q ∈ thrice r) : q = r := Multiset.eq_of_mem_replicate h

theorem ack_truthful (hs : srv.Ok payload) : Truthful srv srv.ack :=
  ⟨fun k => (hs.bits k).mp, fun h => absurd h (by decide : ¬ (0 : BitVec 32).toNat = uintMax)⟩

theorem fin_truthful (hs : srv.Ok payload) (h : srv.pc = .finishing) : Truthful srv srv.fin :=
  ⟨fun k => (hs.bits k).mp, fun _ => h⟩

theorem start_inv (payload : Bytes) : (Sys.start payload).Inv payload where
  server := new_ok payload
  toServer := by simp [Sys.start]
  toClient := by simp [Sys.start]
  sRes k h := by
    have hbit : (Sys.start payload).client.sRes.bits.getLsbD k = false := BitVec.getLsbD_zero
    rw [hbit] at h
    cases h
  dataMap_subset e h := h
  dataMap e h := .inl h
  ended := ClientPc.noConfusion

/-- What is sent is genuine. -/
theorem round_genuine (hs : s.Inv payload) : ∀ p ∈ s.client.round, Genuine payload p := by
  intro p hp
  obtain ⟨e, he, rfl⟩ := List.mem_map.mp hp
  obtain ⟨hle, hdata⟩ := mem_startMap.mp (hs.dataMap_subset e (List.mem_filter.mp he).1)
  exact ⟨e.1, hle, by rw [hdata]⟩

/-- The server goes on. -/
theorem Sys.Inv.serverMoves (hs : s.Inv payload) (ht : t.Ok payload)
    (hhas : ∀ k, s.server.Has k → t.Has k) (hpc : s.server.pc = .finishing → t.pc = .finishing) :
    Sys.Inv payload { s with server := t } where
  server := ht
  toServer := hs.toServer
  toClient r hr := (hs.toClient r hr).mono hhas hpc
  sRes k hk := hhas k (hs.sRes k hk)
  dataMap_subset := hs.dataMap_subset
  dataMap e he := (hs.dataMap e he).imp_right (hhas e.1)
  ended h := hpc (hs.ended h)

/-- The server sends. -/
theorem Sys.Inv.answer (hs : s.Inv payload) {rs : Multiset Response}
    (hrs : ∀ r ∈ rs, Truthful s.server r) :
    Sys.Inv payload { s with toClient := rs + s.toClient } :=
  { hs with toClient := fun r hr => (Multiset.mem_add.mp hr).elim (hrs r) (hs.toClient r) }

/-- A packet leaves the network. -/
theorem Sys.Inv.take (hs : s.Inv payload) (p : Packet) :
    Sys.Inv payload { s with toServer := s.toServer.erase p } :=
  { hs with toServer := fun q hq => hs.toServer q (Multiset.mem_of_mem_erase hq) }

/-- After the time-out the client has forgotten what it was told has arrived. -/
theorem Sys.Inv.timeout (hs : s.Inv payload) :
    Sys.Inv payload { s with client := s.client.onTimeout } := by
  have hkept : ∀ e ∈ startMap payload, e ∈ s.client.onTimeout.dataMap ∨ s.server.Has e.1 := by
    intro e he
    rcases hs.dataMap e he with hmem | hhas
    · by_cases hbit : s.client.sRes.bits.getLsbD e.1 = true
      · exact .inr (hs.sRes e.1 hbit)
      · exact .inl (List.mem_filter.mpr ⟨hmem, by simpa using hbit⟩)
    · exact .inr hhas
  refine { hs with
    dataMap_subset := fun e he => hs.dataMap_subset e (List.mem_filter.mp he).1
    dataMap := hkept
    ended := fun hpc => hs.server.pc.mpr fun k hk => ?_ }
  have hnil : s.client.onTimeout.dataMap = [] := by
    by_contra hne
    have hsending : s.client.onTimeout.pc = .sending := if_neg hne
    rw [hsending] at hpc
    cases hpc
  refine (hkept (k, buf payload k) (mem_startMap.mpr ⟨hk, rfl⟩)).resolve_left ?_
  rw [hnil]
  exact List.not_mem_nil

/-- **One step keeps the invariant.** -/
theorem Step.inv (hn : Numbered payload) (hs : s.Inv payload) (h : Step timed s l s') :
    s'.Inv payload := by
  cases h with
  | round h =>
    refine { hs with
      toServer := fun p hp => (Multiset.mem_add.mp hp).elim
        (fun hp => round_genuine hs p (Multiset.mem_coe.mp hp)) (hs.toServer p)
      ended := ClientPc.noConfusion }
  | @response r h hr =>
    have htrue := hs.toClient r hr
    refine { hs with
      toClient := fun q hq => hs.toClient q (Multiset.mem_of_mem_erase hq)
      sRes := htrue.bits
      ended := fun hpc => ?_ }
    by_cases hfin : r.dataSeq.toNat = uintMax
    · exact htrue.fin hfin
    · have hreading : (s.client.onResponse r).pc = .reading := if_neg hfin
      rw [hreading] at hpc
      cases hpc
  | timeout htimed h => exact hs.timeout
  | @packet p ack t h hp ht =>
    obtain ⟨k, hk, rfl⟩ := hs.toServer p hp
    obtain ⟨t', ht', hok, hhas⟩ := onPacket_genuine hn hs.server.toStored hk
    obtain rfl := Option.some.inj (ht.symm.trans ht')
    refine ((hs.take _).serverMoves hok (fun j hj => (hhas j).mpr (.inr hj)) fun hpc => ?_).answer
      fun r hr => ?_
    · rw [h] at hpc
      cases hpc
    · split at hr
      · exact mem_thrice hr ▸ ack_truthful hok
      · exact absurd hr (Multiset.notMem_zero r)
  | @fin p h hp =>
    exact (hs.take p).answer fun r hr => mem_thrice hr ▸ fin_truthful hs.server h
  | toServer h => exact { hs with toServer := fun p hp => hs.toServer p (h.subset hp) }
  | toClient h => exact { hs with toClient := fun r hr => hs.toClient r (h.subset hr) }

theorem transfer_inv (hn : Numbered payload) (h : (transfer timed payload).Reachable s) :
    s.Inv payload := by
  refine h.invariant (fun s hs => ?_) fun s l s' hs (hstep : Step timed s l s') => hstep.inv hn hs
  obtain rfl : s = .start payload := hs
  exact start_inv payload

end Inv

/-! ## 3. What is saved -/

section Save

variable {payload compData : Bytes} {s : Server}

/-- The string in full pieces. -/
def padded (payload : Bytes) : Bytes :=
  payload ++ List.replicate (last payload * dataSize - payload.length) 0

theorem padded_length (payload : Bytes) : (padded payload).length = last payload * dataSize := by
  have hle := length_le_pieceCount (show 0 < dataSize by decide) payload
  rw [padded, List.length_append, List.length_replicate]
  exact Nat.add_sub_cancel' hle

/-- Every piece is a part of it. -/
theorem Server.Stored.matches (hs : s.Stored payload) :
    ∀ w ∈ s.pieces, Matches (padded payload) w := by
  intro w hw
  obtain ⟨e, he, rfl⟩ := List.mem_map.mp hw
  have hget := Std.ExtTreeMap.mem_toList_iff_getElem?_eq_some.mp (List.mem_filter.mp he).1
  obtain ⟨hne, hle, hdata⟩ := hs.pieces e.1 e.2 hget
  obtain ⟨i, hi⟩ := Nat.exists_eq_succ_of_ne_zero hne
  have hsize : e.2.length = dataSize := hdata ▸ (wrapSend _ _).size
  have hfits : i * dataSize + dataSize ≤ last payload * dataSize := by
    rw [← Nat.succ_mul]
    exact Nat.mul_le_mul_right dataSize (hi ▸ hle)
  have hpiece : e.2 = piece dataSize (padded payload) i := by
    have hle := length_le_pieceCount (show 0 < dataSize by decide) payload
    rw [padded, ← piece_padded 0 (by omega), hdata, hi, wrapSend, buf]
    rfl
  refine ⟨?_, ?_⟩
  · dsimp only
    rw [padded_length, hsize, hi, Nat.succ_sub_one]
    exact hfits
  · dsimp only
    rw [hsize, hi, Nat.succ_sub_one]
    exact hpiece

/-- The size of the array, for a string that is not empty. -/
theorem compCapacity_eq (hn : Numbered payload) (hne : payload ≠ []) :
    compCapacity payload.length = last payload * dataSize := by
  have hpos := List.length_pos_of_ne_nil hne
  have hlt := hn.length_lt
  have hlast : last payload = (payload.length + 1167) / 1168 := rfl
  unfold uintMax at hlt
  show (1 + (payload.length + (2 ^ 32 - 1)) % 2 ^ 32 / 1168) * 1168 = _ * 1168
  omega

/-- **When everything has arrived**, the pieces make the string again, whatever stood in the array
before. -/
theorem pieces_make (hn : Numbered payload) (hs : s.Ok payload) (hpc : s.pc = .finishing)
    (hne : payload ≠ []) (hdata : compData.length = compCapacity s.compSize) :
    s.compSize = payload.length ∧ copyAll s.pieces compData = padded payload := by
  have hall := hs.pc.mp hpc
  have hsize := hs.compSize.resolve_left (has_zero.mp (hall 0 (Nat.zero_le _)))
  refine ⟨hsize, copyAll_eq hs.matches ?_ fun p hp => ?_⟩
  · rw [hdata, hsize, compCapacity_eq hn hne, padded_length]
  · rw [padded_length] at hp
    have hk : p / dataSize + 1 ≤ last payload := Nat.div_lt_of_lt_mul (Nat.mul_comm _ _ ▸ hp)
    obtain ⟨data, hget⟩ := Map.mem_iff.mp ((has_of_ne (Nat.succ_ne_zero _)).mp (hall _ hk))
    obtain ⟨-, -, heq⟩ := hs.pieces _ data hget
    have hlength : data.length = dataSize := heq ▸ (wrapSend _ _).size
    refine ⟨(p / dataSize * dataSize, data), ?_, Nat.div_mul_le_self p dataSize, ?_⟩
    · refine List.mem_map.mpr ⟨(p / dataSize + 1, data), List.mem_filter.mpr ⟨?_, by simp⟩, rfl⟩
      exact Std.ExtTreeMap.mem_toList_iff_getElem?_eq_some.mpr hget
    · dsimp only
      rw [hlength]
      exact Nat.lt_div_mul_add (by decide)

end Save

end InpLabs.Bulk
