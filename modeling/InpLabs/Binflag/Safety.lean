/-
  File:      InpLabs/Binflag/Safety.lean
  Subject:   The decoder on arbitrary files: nothing in a file is checked, so its indices are right
             exactly on the files with the layout.

  * `readBlock_of_all`, `readFlag_of_all`: where the indices are right, a complete block and a
    complete flag have been read;
  * `decode_safe_iff`: so the file is a challenge that fits, and something behind it;
  * `write_outside`: a block behind the end of the dictionary is written there.
-/
import InpLabs.Binflag.Decode

namespace InpLabs.Binflag

open InpLabs.Lib Traced

/-! ## 1. What has been read -/

/-- Memory that holds 1 everywhere: a length that was not read is odd. -/
def ones : Memory := fun _ => 1

theorem toNat_unit (hi lo : UInt8) : (unit hi lo).toNat = 256 * hi.toNat + lo.toNat := by
  have hhi := hi.toNat_lt
  have hlo := lo.toNat_lt
  simp [unit, Nat.shiftLeft_eq]
  omega

/-- A byte behind the end of the file. -/
theorem ones_fill {file : Bytes} {k : Nat} (h : file.length ≤ k) : ones.fill 0 file k = 1 := by
  unfold Memory.fill
  rw [if_pos (Nat.zero_le k), Nat.sub_zero, List.getD_eq_getElem?_getD, List.getElem?_eq_none h]
  rfl

theorem exists_unit {file : Bytes} (h : 2 ≤ file.length) :
    ∃ v rest, file = be16 v ++ rest := by
  match file, h with
  | a :: b :: rest, _ =>
    refine ⟨unit a b, rest, ?_⟩
    rw [be16_unit]
    rfl

theorem exists_word {file : Bytes} (h : 4 ≤ file.length) :
    ∃ v rest, file = be32 v ++ rest := by
  match file, h with
  | a :: b :: c :: d :: rest, _ =>
    refine ⟨word a b c d, rest, ?_⟩
    rw [be32_word]
    rfl

theorem exists_blockHeader {file : Bytes} (h : 8 ≤ file.length) :
    ∃ o ck n rest, file = blockHeader o ck n ++ rest := by
  obtain ⟨o, file, rfl⟩ := exists_word (show 4 ≤ file.length by omega)
  rw [List.length_append] at h
  have ho : (be32 o).length = 4 := rfl
  obtain ⟨ck, file, rfl⟩ := exists_unit (show 2 ≤ file.length by omega)
  rw [List.length_append] at h
  have hck : (be16 ck).length = 2 := rfl
  obtain ⟨n, rest, rfl⟩ := exists_unit (show 2 ≤ file.length by omega)
  refine ⟨o, ck, n, rest, ?_⟩
  unfold blockHeader
  simp only [List.append_assoc]

theorem exists_header {file : Bytes} (h : 16 ≤ file.length) :
    ∃ (magic : Bytes) (size : UInt32) (n zeros : UInt16) (rest : Bytes), magic.length = 8 ∧
      file = magic ++ be32 size ++ be16 n ++ be16 zeros ++ rest := by
  have hmagic : (file.take 8).length = 8 := by
    rw [List.length_take]
    omega
  have hrest : (file.drop 8).length = file.length - 8 := List.length_drop
  obtain ⟨size, file₁, h₁⟩ := exists_word (show 4 ≤ (file.drop 8).length by omega)
  have hsize : (be32 size).length = 4 := rfl
  have hlen₁ := congrArg List.length h₁
  rw [List.length_append] at hlen₁
  obtain ⟨n, file₂, rfl⟩ := exists_unit (show 2 ≤ file₁.length by omega)
  have hn : (be16 n).length = 2 := rfl
  rw [List.length_append] at hlen₁
  obtain ⟨zeros, rest, rfl⟩ := exists_unit (show 2 ≤ file₂.length by omega)
  refine ⟨file.take 8, size, n, zeros, rest, hmagic, ?_⟩
  have hsplit := List.take_append_drop 8 file
  rw [h₁] at hsplit
  conv_lhs => rw [← hsplit]
  simp only [List.append_assoc]

section Read

variable {datasize : Nat} {file : Bytes} {dict : Memory}

/-- **Right indices in a round over the blocks**: it has read a complete block. -/
theorem readBlock_of_all (h : (readBlock ones datasize (file, dict)).All Access.Safe) :
    ∃ (b : Block) (rest : Bytes), file = b.encode ++ rest ∧ b.Fits datasize := by
  by_cases hlen : 8 ≤ file.length
  · obtain ⟨o, ck, n, rest, rfl⟩ := exists_blockHeader hlen
    obtain ⟨payload, hp, hread⟩ := readBlock_header ones dict datasize o ck n rest
    rw [hread, all_bind] at h
    obtain ⟨hn, heven, hfit⟩ := (applyPayload_all hp (List.length_take_le _ _)).mp h.1
    have hlt : (rest.take n.toNat).length < 2 ^ 16 := by
      rw [hn]
      exact n.toNat_lt
    refine ⟨⟨o, ck, rest.take n.toNat, hlt⟩, rest.drop n.toNat, ?_, ?_, hfit⟩
    · unfold Block.encode
      dsimp only
      rw [hn, UInt16.ofNat_toNat, List.append_assoc, List.take_append_drop]
    · dsimp only
      rw [hn]
      exact heven
  · exfalso
    have hdrop : file.drop 8 = [] := List.drop_eq_nil_of_le (by omega)
    have htake : file.take 8 = file := List.take_of_length_le (by omega)
    have hone : ones.fill 0 file (6 + 1) = 1 := ones_fill (by omega)
    unfold readBlock at h
    dsimp only at h
    rw [hdrop, htake, convert_loadU16, List.take_nil, all_bind] at h
    obtain ⟨hlen0, -, -⟩ := (applyPayload_all
      (fun k (hk : k < ([] : Bytes).length) => absurd hk (Nat.not_lt_zero k))
      (Nat.zero_le _)).mp h.1
    rw [hone, toNat_unit] at hlen0
    exact absurd hlen0 (Nat.ne_of_lt (Nat.succ_pos _))

/-- Bytes that are so many offsets. -/
theorem exists_flags {n : Nat} {data : Bytes} (h : data.length = 4 * n) :
    ∃ flags : List UInt32, flags.length = n ∧ data = flags.flatMap be32 := by
  induction n generalizing data with
  | zero => exact ⟨[], rfl, List.length_eq_zero_iff.mp h⟩
  | succ n ih =>
    match data, h with
    | a :: b :: c :: d :: data, h =>
      have hlen : data.length = 4 * n := by
        simp only [List.length_cons] at h
        omega
      obtain ⟨flags, hflags, rfl⟩ := ih hlen
      refine ⟨word a b c d :: flags, by rw [List.length_cons, hflags], ?_⟩
      rw [List.flatMap_cons, be32_word]
      rfl

/-- **Right indices after the blocks**: a complete flag has been read. -/
theorem readFlag_of_all (hsize : datasize < 2 ^ 32)
    (h : (readFlag ones datasize (file, dict)).All Access.Safe) :
    ∃ (flags : List UInt32) (rest : Bytes), file = encodeFlags flags ++ rest ∧
      flags.length < 2 ^ 16 ∧ ∀ o ∈ flags, o.toNat + 1 < datasize := by
  by_cases hlen : 2 ≤ file.length
  · obtain ⟨v, rest, rfl⟩ := exists_unit hlen
    rw [readFlag_header] at h
    have hlt := v.toNat_lt
    have hle : (rest.take (v.toNat * 4)).length ≤ v.toNat * 4 := List.length_take_le _ _
    have hfilled := (convertLoop_all (by omega)).mp ((all_bind _ _).mp h).1
    obtain ⟨flags, hflags, hdata⟩ :=
      exists_flags (show (rest.take (v.toNat * 4)).length = 4 * v.toNat by omega)
    rw [hfilled, convertLoop_yields.all_bind, printLoop_all hsize, hdata, ← hflags] at h
    refine ⟨flags, rest.drop (v.toNat * 4), ?_, by omega, fun o ho => ?_⟩
    · unfold encodeFlags
      rw [hflags, UInt16.ofNat_toNat, List.append_assoc, ← hdata, List.take_append_drop]
    · obtain ⟨i, hi, rfl⟩ := List.getElem_of_mem ho
      have hin := h i hi
      rw [converted_flags hi, List.getD_eq_getElem?_getD, List.getElem?_eq_getElem hi] at hin
      exact hin
  · exfalso
    have hdrop : file.drop 2 = [] := List.drop_eq_nil_of_le (by omega)
    have htake : file.take 2 = file := List.take_of_length_le (by omega)
    have hone : ones.fill 0 file (0 + 1) = 1 := ones_fill (by omega)
    unfold readFlag at h
    dsimp only at h
    rw [hdrop, htake, convert_loadU16, hone, toNat_unit, List.take_nil, all_bind] at h
    have hfilled := (convertLoop_all (Nat.zero_le _)).mp h.1
    exact absurd hfilled (Nat.ne_of_lt (Nat.succ_pos _))

theorem readBlocks_of_all {n i : Nat}
    (h : (forLoop (fun _ => readBlock ones datasize) n i (file, dict)).All Access.Safe) :
    ∃ (blocks : List Block) (rest : Bytes), blocks.length = n ∧
      file = blocks.flatMap Block.encode ++ rest ∧ ∀ b ∈ blocks, b.Fits datasize := by
  induction n generalizing file dict i with
  | zero => exact ⟨[], file, rfl, rfl, fun b hb => absurd hb List.not_mem_nil⟩
  | succ n ih =>
    have hfirst := (all_forLoop_succ.mp h).1
    obtain ⟨b, rest, rfl, hb⟩ := readBlock_of_all hfirst
    have hnext := (readBlock_encode ones hb rest dict).all_bind.mp h
    obtain ⟨blocks, rest', hlen, rfl, hblocks⟩ := ih hnext
    refine ⟨b :: blocks, rest', by rw [List.length_cons, hlen], ?_, ?_⟩
    · rw [List.flatMap_cons, List.append_assoc]
    · intro b' hb'
      rcases List.mem_cons.mp hb' with rfl | hb'
      · exact hb
      · exact hblocks b' hb'

end Read

/-! ## 2. Arbitrary files -/

/-- **The indices are right**, whatever memory held before, exactly on the files that have the
layout of a challenge that fits. -/
theorem decode_safe_iff (file : Bytes) :
    (∀ junk, (decode junk file).All Access.Safe) ↔
      ∃ c : Challenge, c.Fits ∧ ∃ rest, file = c.encode ++ rest := by
  constructor
  · intro hall
    have h := hall ⟨ones, fun _ => ones, ones⟩
    by_cases hlen : 16 ≤ file.length
    · obtain ⟨magic, size, n, zeros, rest, hmagic, rfl⟩ := exists_header hlen
      rw [decode_header _ hmagic] at h
      obtain ⟨blocks, rest, hblocks, rfl, hfits⟩ := readBlocks_of_all ((all_bind _ _).mp h).1
      have hrun := readBlocks_encode (fun _ => ones) hfits rest (fun _ => 0) 0
      rw [hblocks] at hrun
      rw [hrun.all_bind] at h
      obtain ⟨flags, rest, rfl, hlt, hin⟩ := readFlag_of_all size.toNat_lt h
      refine ⟨⟨magic, size, zeros, blocks, flags, hmagic, hblocks ▸ n.toNat_lt, hlt⟩,
        ⟨hfits, hin⟩, rest, ?_⟩
      unfold Challenge.encode Challenge.header
      dsimp only
      rw [hblocks, UInt16.ofNat_toNat]
      simp only [List.append_assoc]
    · exfalso
      have hdrop : file.drop 16 = [] := List.drop_eq_nil_of_le (by omega)
      unfold decode at h
      dsimp only at h
      rw [hdrop] at h
      generalize (convertIndianU16 _).toNat = n at h
      generalize convertIndianU32 _ = size at h
      cases n with
      | zero =>
        rw [forLoop, all_pure_bind] at h
        obtain ⟨flags, rest, hnil, -, -⟩ := readFlag_of_all size.toNat_lt h
        cases hnil
      | succ n =>
        have hloop := ((all_bind _ _).mp h).1
        have hfirst := (all_forLoop_succ.mp hloop).1
        obtain ⟨b, rest, hnil, -⟩ := readBlock_of_all hfirst
        cases hnil
  · rintro ⟨c, hc, rest, rfl⟩ junk
    exact (decode_encode junk hc rest).all

/-- A dictionary of two bytes and a good block for its offset 16. -/
def overrun : Bytes :=
  (ascii "BINFLAG" ++ [0]) ++ be32 2 ++ be16 1 ++ be16 0 ++ (blockHeader 16 0 2 ++ [0, 0] ++ be16 0)

/-- **It is written behind the dictionary**, whatever memory held. -/
theorem write_outside : ¬ ∃ junk, (decode junk overrun).All Access.Safe := by
  intro ⟨junk, h⟩
  unfold overrun at h
  rw [decode_header junk (by decide), List.append_assoc] at h
  have hloop := ((all_bind _ _).mp h).1
  have hfirst := (all_forLoop_succ (n := 0).mp hloop).1
  obtain ⟨payload, hp, hread⟩ := readBlock_header (junk.block 0) (fun _ => 0) (2 : UInt32).toNat
    16 0 2 ([0, 0] ++ be16 0)
  rw [hread, all_bind] at hfirst
  obtain ⟨-, -, hfit⟩ := (applyPayload_all hp (List.length_take_le _ _)).mp hfirst.1
  exact absurd (hfit (by decide) (by decide)) (by decide)

end InpLabs.Binflag
