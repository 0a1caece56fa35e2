/-
  File:      InpLabs/Binflag/Decode.lean
  Subject:   The decoder on files with the layout of a challenge: it prints the flag.

  * `Block.Fits`, `Challenge.Fits`: the payloads have even length, and the good ones and the offsets
    of the flag are inside the dictionary;
  * `decode_encode`: such a file is decoded with right indices only;
  * `decode_flagHex`: so the digits of the flag are printed, whatever the bad blocks hold.
-/
import InpLabs.Binflag.Loops

namespace InpLabs.Binflag

open InpLabs.Lib Traced

/-! ## 1. A block -/

section Block

variable {payload dict : Memory} {data : Bytes} {datasize offset length : Nat} {cksum : UInt16}

/-- What is done with a payload is right exactly when its length is even, all of it was read, and it
fits if its checksum is right. -/
theorem applyPayload_all (hp : ∀ k < data.length, payload k = data.getD k 0)
    (hle : data.length ≤ length) :
    (applyPayload payload datasize offset cksum length data.length dict).All Access.Safe ↔
      data.length = length ∧ length % 2 = 0 ∧
        (cksumOf data = cksum → data ≠ [] → offset + data.length ≤ datasize) := by
  unfold applyPayload
  constructor
  · intro h
    obtain ⟨hlen, heven⟩ := (xorLoop_all hp hle).mp ((all_bind _ _).mp h).1
    rw [(xorLoop_yields hp hle hlen heven).all_bind] at h
    refine ⟨hlen, heven, fun hck => ?_⟩
    rw [if_pos hck, ← hlen] at h
    exact (copyLoop_all hp).mp h
  · intro ⟨hlen, heven, hfit⟩
    rw [(xorLoop_yields hp hle hlen heven).all_bind]
    split
    · rename_i hck
      rw [← hlen]
      exact (copyLoop_all hp).mpr (hfit hck)
    · exact (yields_pure (Q := fun _ => True) trivial).all

theorem applyPayload_yields (hp : ∀ k < data.length, payload k = data.getD k 0)
    (heven : data.length % 2 = 0)
    (hfit : cksumOf data = cksum → data ≠ [] → offset + data.length ≤ datasize) :
    (applyPayload payload datasize offset cksum data.length data.length dict).Yields Access.Safe
      (· = if cksumOf data = cksum then put dict offset data else dict) := by
  refine (xorLoop_yields hp (Nat.le_refl _) rfl heven).bind fun x hx => ?_
  rw [hx]
  split
  · rename_i hck
    exact copyLoop_yields hp (hfit hck)
  · exact yields_pure rfl

/-- A block whose header is complete: its fields are read, then its payload as far as it goes. -/
theorem readBlock_header (junk dict : Memory) (datasize : Nat) (o : UInt32) (ck n : UInt16)
    (rest : Bytes) :
    ∃ payload : Memory,
      (∀ k < (rest.take n.toNat).length, payload k = (rest.take n.toNat).getD k 0) ∧
      readBlock junk datasize (blockHeader o ck n ++ rest, dict) =
        applyPayload payload datasize o.toNat ck n.toNat (rest.take n.toNat).length dict >>=
          fun d => pure (rest.drop n.toNat, d) := by
  have htake : (blockHeader o ck n ++ rest).take 8 = blockHeader o ck n := List.take_left' rfl
  have hdrop : (blockHeader o ck n ++ rest).drop 8 = rest := List.drop_left' rfl
  have hn : convertIndianU16 (loadU16 (junk.fill 0 (blockHeader o ck n)) 6) = n :=
    (convert_loadU16 _ _).trans (unit_be16 n)
  have hck : convertIndianU16 (loadU16 (junk.fill 0 (blockHeader o ck n)) 4) = ck :=
    (convert_loadU16 _ _).trans (unit_be16 ck)
  have ho : convertIndianU32 (loadU32 (junk.fill 0 (blockHeader o ck n)) 0) = o :=
    (convert_loadU32 _ _).trans (word_be32 o)
  refine ⟨fun k => (junk.fill 0 (blockHeader o ck n)).fill 8 (rest.take n.toNat) (8 + k),
    fun k hk => ?_, ?_⟩
  · exact Memory.fill_add _ 8 hk
  · unfold readBlock
    dsimp only
    rw [htake, hdrop, hn, hck, ho]

end Block

/-- The payload has even length, and it is inside the dictionary if it is used and not empty. -/
def Block.Fits (datasize : Nat) (b : Block) : Prop :=
  b.payload.length % 2 = 0 ∧
    (b.Good → b.payload ≠ [] → b.offset.toNat + b.payload.length ≤ datasize)

/-- The dictionary in memory, after a block. -/
def Block.applyMemory (dict : Memory) (b : Block) : Memory :=
  if b.Good then put dict b.offset.toNat b.payload else dict

theorem Block.toNat_length (b : Block) :
    (UInt16.ofNat b.payload.length).toNat = b.payload.length :=
  UInt16.toNat_ofNat_of_lt' b.length_lt

/-- **A complete block.** -/
theorem readBlock_encode (junk : Memory) {datasize : Nat} {b : Block} (h : b.Fits datasize)
    (rest : Bytes) (dict : Memory) :
    (readBlock junk datasize (b.encode ++ rest, dict)).Yields Access.Safe
      (· = (rest, b.applyMemory dict)) := by
  obtain ⟨payload, hp, hread⟩ := readBlock_header junk dict datasize b.offset b.cksum
    (UInt16.ofNat b.payload.length) (b.payload ++ rest)
  rw [b.toNat_length, List.take_left' rfl] at hp hread
  rw [List.drop_left' rfl] at hread
  unfold Block.encode
  rw [List.append_assoc, hread]
  refine (applyPayload_yields hp h.1 h.2).bind fun d hd => yields_pure ?_
  rw [hd]
  rfl

/-! ## 2. The offsets of the flag -/

section Flag

variable {flags : List UInt32} {rest : Bytes} {dict : Memory} {datasize : Nat}

theorem getD_flatMap_be32 {i j : Nat} (hi : i < flags.length) (hj : j < 4) :
    (flags.flatMap be32).getD (4 * i + j) 0 = (be32 (flags.getD i 0)).getD j 0 := by
  induction flags generalizing i with
  | nil => exact absurd hi (Nat.not_lt_zero i)
  | cons o flags ih =>
    have hlen : (be32 o).length = 4 := rfl
    rw [List.flatMap_cons, List.getD_eq_getElem?_getD]
    cases i with
    | zero =>
      rw [List.getElem?_append_left (by omega), ← List.getD_eq_getElem?_getD, Nat.mul_zero,
        Nat.zero_add]
      rfl
    | succ i =>
      rw [List.getElem?_append_right (by omega), hlen,
        show 4 * (i + 1) + j - 4 = 4 * i + j by omega, ← List.getD_eq_getElem?_getD,
        ih (by rw [List.length_cons] at hi; omega)]
      rfl

theorem length_flatMap_be32 (flags : List UInt32) :
    (flags.flatMap be32).length = 4 * flags.length := by
  induction flags with
  | nil => rfl
  | cons o flags ih =>
    have hlen : (be32 o).length = 4 := rfl
    rw [List.flatMap_cons, List.length_append, ih, hlen, List.length_cons]
    omega

/-- The converted offsets are those of the file. -/
theorem converted_flags {i : Nat} (hi : i < flags.length) :
    converted (fun i => loadU32 (Memory.fill (fun _ => 0) 0 (flags.flatMap be32)) (4 * i))
      flags.length i = flags.getD i 0 := by
  have hbyte : ∀ j < 4, Memory.fill (fun _ => 0) 0 (flags.flatMap be32) (4 * i + j) =
      (be32 (flags.getD i 0)).getD j 0 := by
    intro j hj
    rw [← getD_flatMap_be32 hi hj]
    rfl
  unfold converted
  rw [if_pos hi, convert_loadU32, hbyte 1 (by decide), hbyte 2 (by decide), hbyte 3 (by decide)]
  rw [← Nat.add_zero (4 * i), hbyte 0 (by decide)]
  exact word_be32 _

theorem flatMap_range_getD (f : UInt32 → Bytes) (flags : List UInt32) :
    ((List.range flags.length).flatMap fun j => f (flags.getD j 0)) = flags.flatMap f := by
  have hmap : (List.range flags.length).map (fun j => flags.getD j 0) = flags := by
    refine List.ext_getElem (by simp) fun j hj hj' => ?_
    simp [List.getD_eq_getElem?_getD, hj']
  conv_rhs => rw [← hmap]
  rw [List.flatMap_map]

/-- What is read when the length of the flag is complete. -/
theorem readFlag_header (junk : Memory) (n : UInt16) :
    readFlag junk datasize (be16 n ++ rest, dict) =
      (forLoop (convertRound n.toNat ((rest.take (n.toNat * 4)).length / 4)) n.toNat 0
        (fun i => loadU32 (Memory.fill (fun _ => 0) 0 (rest.take (n.toNat * 4))) (4 * i))) >>=
          fun o => forLoop (printRound dict datasize o n.toNat
            ((rest.take (n.toNat * 4)).length / 4)) n.toNat 0 [] := by
  have htake : (be16 n ++ rest).take 2 = be16 n := List.take_left' rfl
  have hdrop : (be16 n ++ rest).drop 2 = rest := List.drop_left' rfl
  have hn : convertIndianU16 (loadU16 (junk.fill 0 (be16 n)) 0) = n :=
    (convert_loadU16 _ _).trans (unit_be16 n)
  unfold readFlag
  dsimp only
  rw [htake, hdrop, hn]

/-- **A complete flag.** -/
theorem readFlag_encode (junk : Memory) (hlt : flags.length < 2 ^ 16) (hsize : datasize < 2 ^ 32)
    (hin : ∀ o ∈ flags, o.toNat + 1 < datasize) (rest : Bytes) (dict : Memory) :
    (readFlag junk datasize (encodeFlags flags ++ rest, dict)).Yields Access.Safe
      (· = flags.flatMap (flagAtMemory dict)) := by
  have hn : (UInt16.ofNat flags.length).toNat = flags.length := UInt16.toNat_ofNat_of_lt' hlt
  have htake : (flags.flatMap be32 ++ rest).take (flags.length * 4) = flags.flatMap be32 :=
    List.take_left' (by rw [length_flatMap_be32]; omega)
  have hfilled : 4 * flags.length / 4 = flags.length := by omega
  unfold encodeFlags
  rw [List.append_assoc, readFlag_header, hn, htake, length_flatMap_be32, hfilled]
  refine convertLoop_yields.bind fun o ho => ?_
  have hget : ∀ i < flags.length, o i = flags.getD i 0 := by
    intro i hi
    rw [ho, converted_flags hi]
  have hall : ∀ i < flags.length, (o i).toNat + 1 < datasize := by
    intro i hi
    have hmem : flags.getD i 0 ∈ flags := by
      rw [List.getD_eq_getElem?_getD, List.getElem?_eq_getElem hi]
      exact List.getElem_mem hi
    rw [hget i hi]
    exact hin _ hmem
  refine (printLoop_yields hsize hall).mono fun out hout => ?_
  rw [hout, ← flatMap_range_getD]
  unfold printed
  refine List.flatMap_congr fun i hi => ?_
  rw [hget i (List.mem_range.mp hi)]

end Flag

/-! ## 3. The file -/

/-- The dictionary in memory, after all blocks. -/
def Challenge.memory (c : Challenge) : Memory := c.blocks.foldl Block.applyMemory fun _ => 0

structure Challenge.Fits (c : Challenge) : Prop where
  blocks : ∀ b ∈ c.blocks, b.Fits c.datasize.toNat
  flags : ∀ o ∈ c.flags, o.toNat + 1 < c.datasize.toNat

section File

variable {datasize : Nat} {c d : Challenge}

/-- The loop over complete blocks. -/
theorem readBlocks_encode (junk : Nat → Memory) {blocks : List Block}
    (h : ∀ b ∈ blocks, b.Fits datasize) (rest : Bytes) (dict : Memory) (i : Nat) :
    (forLoop (fun i => readBlock (junk i) datasize) blocks.length i
      (blocks.flatMap Block.encode ++ rest, dict)).Yields Access.Safe
        (· = (rest, blocks.foldl Block.applyMemory dict)) := by
  induction blocks generalizing dict i with
  | nil => exact yields_pure rfl
  | cons b blocks ih =>
    have hb := h b List.mem_cons_self
    rw [List.flatMap_cons, List.append_assoc]
    refine (readBlock_encode (junk i) hb (blocks.flatMap Block.encode ++ rest) dict).bind
      fun s hs => ?_
    rw [hs]
    exact ih (fun b' hb' => h b' (List.mem_cons_of_mem b hb')) (b.applyMemory dict) (i + 1)

/-- What is read when the header is complete. -/
theorem decode_header (junk : Junk) {magic : Bytes} (hmagic : magic.length = 8) (size : UInt32)
    (n zeros : UInt16) (rest : Bytes) :
    decode junk (magic ++ be32 size ++ be16 n ++ be16 zeros ++ rest) =
      (forLoop (fun i => readBlock (junk.block i) size.toNat) n.toNat 0 (rest, fun _ => 0)) >>=
        readFlag junk.flag size.toNat := by
  match magic, hmagic with
  | [a, b, c, d, e, f, g, h], _ =>
    let hdr : Bytes := [a, b, c, d, e, f, g, h] ++ be32 size ++ be16 n ++ be16 zeros
    have htake : (hdr ++ rest).take 16 = hdr := List.take_left' rfl
    have hdrop : (hdr ++ rest).drop 16 = rest := List.drop_left' rfl
    have hn : convertIndianU16 (loadU16 (junk.hdr.fill 0 hdr) 12) = n :=
      (convert_loadU16 _ _).trans (unit_be16 n)
    have hsize : convertIndianU32 (loadU32 (junk.hdr.fill 0 hdr) 8) = size :=
      (convert_loadU32 _ _).trans (word_be32 size)
    show decode junk (hdr ++ rest) = _
    unfold decode
    dsimp only
    rw [htake, hdrop, hn, hsize]

/-- **A file with the layout is decoded with right indices only.** -/
theorem decode_encode (junk : Junk) (h : c.Fits) (rest : Bytes) :
    (decode junk (c.encode ++ rest)).Yields Access.Safe
      (· = c.flags.flatMap (flagAtMemory c.memory)) := by
  have hn : (UInt16.ofNat c.blocks.length).toNat = c.blocks.length :=
    UInt16.toNat_ofNat_of_lt' c.blocks_lt
  unfold Challenge.encode Challenge.header
  rw [List.append_assoc, List.append_assoc _ (c.blocks.flatMap Block.encode),
    decode_header junk c.magic_length, hn]
  refine (readBlocks_encode junk.block h.blocks (encodeFlags c.flags ++ rest) _ 0).bind
    fun s hs => ?_
  rw [hs]
  exact readFlag_encode junk.flag c.flags_lt c.datasize.toNat_lt h.flags rest c.memory

/-! ## 4. The dictionary -/

/-- The dictionary file is in memory. -/
def Holds (dict : Memory) (d : Bytes) : Prop := ∀ k < d.length, dict k = d.getD k 0

theorem length_write {d bs : Bytes} {o : Nat} (h : o + bs.length ≤ d.length) :
    (write d o bs).length = d.length := by
  unfold write
  rw [List.length_append, List.length_append, List.length_take, List.length_drop]
  omega

theorem Holds.put {dict : Memory} {d bs : Bytes} {o : Nat} (hd : Holds dict d)
    (h : o + bs.length ≤ d.length) : Holds (put dict o bs) (write d o bs) := by
  intro k hk
  rw [length_write h] at hk
  have htake : (d.take o).length = o := by
    rw [List.length_take]
    omega
  unfold Binflag.put write
  rw [List.append_assoc, List.getD_eq_getElem?_getD (l := d.take o ++ _)]
  by_cases hlo : k < o
  · rw [if_neg (by omega), List.getElem?_append_left (by omega), List.getElem?_take_of_lt hlo,
      ← List.getD_eq_getElem?_getD]
    exact hd k hk
  · rw [List.getElem?_append_right (by omega), htake]
    by_cases hhi : k < o + bs.length
    · rw [if_pos (by omega), List.getElem?_append_left (by omega), List.getD_eq_getElem?_getD]
    · rw [if_neg (by omega), List.getElem?_append_right (by omega), List.getElem?_drop,
        show o + bs.length + (k - o - bs.length) = k by omega, ← List.getD_eq_getElem?_getD]
      exact hd k hk

/-- The blocks write the same to memory as to the dictionary file. -/
theorem holds_foldl {blocks : List Block} {dict : Memory} {d : Bytes} (hd : Holds dict d)
    (h : ∀ b ∈ blocks, b.offset.toNat + b.payload.length ≤ d.length) :
    Holds (blocks.foldl Block.applyMemory dict) (blocks.foldl Block.apply d) ∧
      (blocks.foldl Block.apply d).length = d.length := by
  induction blocks generalizing dict d with
  | nil => exact ⟨hd, rfl⟩
  | cons b blocks ih =>
    have hb := h b List.mem_cons_self
    have hstep : Holds (b.applyMemory dict) (Block.apply d b) ∧
        (Block.apply d b).length = d.length := by
      unfold Block.applyMemory Block.apply
      split
      · exact ⟨hd.put hb, length_write hb⟩
      · exact ⟨hd, rfl⟩
    obtain ⟨hholds, hlen⟩ := ih hstep.1 fun b' hb' => by
      rw [hstep.2]
      exact h b' (List.mem_cons_of_mem b hb')
    exact ⟨hholds, hlen.trans hstep.2⟩

/-- The conditions of the format. -/
structure Challenge.WellFormed (c : Challenge) : Prop where
  even : ∀ b ∈ c.blocks, b.payload.length % 2 = 0
  inside : ∀ b ∈ c.blocks, b.offset.toNat + b.payload.length ≤ c.datasize.toNat
  flags : ∀ o ∈ c.flags, o.toNat + 1 < c.datasize.toNat

theorem Challenge.WellFormed.fits (h : c.WellFormed) : c.Fits :=
  ⟨fun b hb => ⟨h.even b hb, fun _ _ => h.inside b hb⟩, h.flags⟩

theorem Challenge.WellFormed.flatMap_memory (h : c.WellFormed) :
    c.flags.flatMap (flagAtMemory c.memory) = c.flagHex := by
  have hzero : Holds (fun _ => 0) (List.replicate c.datasize.toNat 0) := by
    intro k hk
    rw [List.length_replicate] at hk
    simp [List.getD_eq_getElem?_getD, hk]
  have hinside : ∀ b ∈ c.blocks,
      b.offset.toNat + b.payload.length ≤ (List.replicate c.datasize.toNat (0 : UInt8)).length := by
    rw [List.length_replicate]
    exact h.inside
  obtain ⟨hholds, hlen⟩ := holds_foldl hzero hinside
  rw [List.length_replicate] at hlen
  refine List.flatMap_congr fun o ho => ?_
  have hin := h.flags o ho
  unfold flagAtMemory flagAt Challenge.memory Challenge.dictionary
  rw [hholds _ (by omega), hholds _ (by omega)]

/-- The files differ in bad blocks only. -/
structure Challenge.SameGood (c d : Challenge) : Prop where
  datasize : d.datasize = c.datasize
  flags : d.flags = c.flags
  blocks : List.Forall₂ (fun b b' : Block => b' = b ∨ (¬ b.Good ∧ ¬ b'.Good)) c.blocks d.blocks

theorem Challenge.SameGood.flagHex (h : c.SameGood d) : d.flagHex = c.flagHex := by
  have hfold : ∀ dict, d.blocks.foldl Block.apply dict = c.blocks.foldl Block.apply dict := by
    have hblocks := h.blocks
    generalize c.blocks = bs at hblocks
    generalize d.blocks = bs' at hblocks
    induction hblocks with
    | nil => exact fun _ => rfl
    | @cons b b' bs bs' hb _ ih =>
      intro dict
      have hstep : Block.apply dict b' = Block.apply dict b := by
        rcases hb with rfl | ⟨hbad, hbad'⟩
        · rfl
        · unfold Block.apply
          rw [if_neg hbad, if_neg hbad']
      rw [List.foldl_cons, List.foldl_cons, hstep]
      exact ih _
  unfold Challenge.flagHex Challenge.dictionary
  rw [hfold, h.datasize, h.flags]

/-- **Decoding**: the digits of the flag are printed, and what bad blocks hold does not matter. -/
theorem decode_flagHex (h : c.WellFormed) :
    (∀ junk, (decode junk c.encode).result = some c.flagHex) ∧
      ∀ d, d.WellFormed → c.SameGood d →
        ∀ junk, (decode junk d.encode).result = some c.flagHex := by
  have hdecode : ∀ {c : Challenge}, c.WellFormed → ∀ junk,
      (decode junk c.encode).result = some c.flagHex := by
    intro c h junk
    have hyields := decode_encode junk h.fits []
    rw [List.append_nil, h.flatMap_memory] at hyields
    exact hyields.result_eq
  exact ⟨hdecode h, fun d hd hcd junk => hcd.flagHex ▸ hdecode hd junk⟩

end File

/-- A dictionary of four bytes; the second block is bad. -/
def demo : Challenge where
  magic := ascii "BINFLAG" ++ [0]
  datasize := 4
  zeros := 0
  blocks := [⟨0, 0x464c, [0x46, 0x4c], by decide⟩, ⟨1, 0, [1, 2], by decide⟩,
    ⟨2, 0x4147, [0x41, 0x47], by decide⟩]
  flags := [2, 0]
  magic_length := by decide
  blocks_lt := by decide
  flags_lt := by decide

theorem decode_demo :
    (decode ⟨fun _ => 1, fun _ _ => 1, fun _ => 1⟩ demo.encode).result =
      some (ascii "4147464c") := by
  have hflags : ∀ o ∈ [(2 : UInt32), 0], o.toNat + 1 < 4 := by simp
  have hwf : demo.WellFormed := ⟨by decide, by decide, hflags⟩
  have hflag : demo.flagHex = ascii "4147464c" := by decide
  rw [← hflag]
  exact (decode_flagHex hwf).1 _

end InpLabs.Binflag
