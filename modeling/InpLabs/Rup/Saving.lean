/-
  File:      InpLabs/Rup/Saving.lean
  Subject:   What the server of the packed chunks has, and what it saves (lab6/others/Sean:
             server.cpp).

  * `shown`: what stands in the buffer once a chunk has arrived. A packet that the client has not
    filled has the number 0: if it comes first, chunk 0 is blank;
  * `Server.Inv`: the invariant. The counters count the chunks since the metadata is known, so that
    a file that is counted down has all its chunks (`counted_all`);
  * `Server.Inv.onNumber`, `Server.Inv.onEmpty`: it is kept by every datagram.
-/
import InpLabs.Rup.Transfer

namespace InpLabs.Rup

open InpLabs.Lib

/-! ## 1. What is saved -/

/-- The character that arrives at a place, or a blank, in chunk 0 when that is lost. -/
def shown (files : Files) (blank : Bool) (i : Nat) : UInt8 :=
  if blank && decide (i < chunkBuf) then 32 else files.unpacked.getD i 0

/-- File `k` as it is saved. -/
def savedFile (files : Files) (blank : Bool) (k : Nat) : Bytes :=
  (List.range (files.size k)).map fun i => shown files blank (start files.size k + i)

/-- All metadata is there. -/
def Server.Known (s : Server) : Prop := 10001 ∈ s.completed ∧ 10002 ∈ s.completed

/-- All chunks of a file are there. -/
def Server.Has (s : Server) (files : Files) (k : Nat) : Prop :=
  ∀ i, firstChunk files.size k ≤ i → i ≤ lastChunk files.size k → i ∈ s.completed

/-- The file that is counted down for a chunk, of the two. -/
def slot (files : Files) (x : Nat × Bool) : Nat :=
  if x.2 then ((layout files.size).idx2file x.1).2 else ((layout files.size).idx2file x.1).1

section Basics

variable {files : Files} {blank : Bool} {k i : Nat}

/-- **Printable files** are saved as far as they are read, but for a blank chunk 0. -/
theorem savedFile_getElem? (hprint : files.Printable) (hk : k < 1000) :
    (savedFile files blank k)[i]? = (kept (files.file k))[i]?.map fun c =>
      if blank && decide (start files.size k + i < chunkBuf) then 32 else c := by
  have hend : start files.size k + files.size k ≤ files.texts.length := by
    rw [← start_succ]
    exact files.start_le hk
  rw [← files.file_eq hk, savedFile, List.getElem?_map]
  rcases Nat.lt_or_ge i (files.size k) with hi | hi
  · have hin : start files.size k + i < files.texts.length := by omega
    have hplace := files.unpacked_texts hprint hin
    rw [List.getElem?_range hi, List.getElem?_take_of_lt hi, List.getElem?_drop, ← hplace,
      Option.map_some, shown, List.getD_eq_getElem?_getD, hplace, List.getElem?_eq_getElem hin]
    rfl
  · rw [List.getElem?_eq_none (by simpa using hi), List.getElem?_eq_none]
    · rfl
    · rw [List.length_take]
      omega

theorem savedFile_false (hprint : files.Printable) (hk : k < 1000) :
    savedFile files false k = kept (files.file k) := by
  refine List.ext_getElem? fun i => ?_
  rw [savedFile_getElem? hprint hk]
  simp

/-- Behind chunk 0 there is no difference. -/
theorem shown_of_le (h : chunkBuf ≤ i) (blank' : Bool) :
    shown files blank i = shown files blank' i := by
  have hout : ¬ i < chunkBuf := Nat.not_lt.mpr h
  simp [shown, hout]

theorem shown_chunk (hi : i ≠ 0) (p : Nat) (blank' : Bool) :
    shown files blank (i * chunkBuf + p) = shown files blank' (i * chunkBuf + p) := by
  refine shown_of_le (Nat.le_trans ?_ (Nat.le_add_right _ _)) blank'
  exact Nat.le_mul_of_pos_left chunkBuf (Nat.pos_of_ne_zero hi)

/-- Only files in chunk 0 show the difference. -/
theorem savedFile_eq (h : chunkBuf ≤ start files.size k) (blank' : Bool) :
    savedFile files blank k = savedFile files blank' k :=
  List.map_congr_left fun _ _ => shown_of_le (h.trans (Nat.le_add_right _ _)) blank'

/-- The layout names the chunks of a file only. -/
theorem slot_spec {x : Nat × Bool} (h : slot files x = k + 1) :
    k < 1001 ∧ firstChunk files.size k ≤ x.1 ∧
      if x.2 then x.1 = lastChunk files.size k else x.1 < lastChunk files.size k := by
  have hplaced := layout_spec files.size
  obtain ⟨i, b⟩ := x
  cases b with
  | false =>
    simp only [slot, Bool.false_eq_true, if_false] at h ⊢
    exact hplaced.idx2file i k h
  | true =>
    simp only [slot, if_true] at h ⊢
    obtain ⟨hlt, hlast⟩ := hplaced.idx2end i k h
    exact ⟨hlt, hlast ▸ firstChunk_le files.size k, hlast⟩

/-- **When a file is counted down to zero, all its chunks have been counted.** -/
theorem counted_all {late : Finset (Nat × Bool)}
    (h : (layout files.size).file2rem k - (late.filter fun x => slot files x = k + 1).card = 0)
    (hk : k < 1001) (hi : firstChunk files.size k ≤ i) (hi' : i ≤ lastChunk files.size k) :
    ∃ b, (i, b) ∈ late := by
  rw [(layout_spec files.size).file2rem k hk] at h
  have hsub : (late.filter fun x => slot files x = k + 1).image Prod.fst ⊆
      Finset.Icc (firstChunk files.size k) (lastChunk files.size k) := by
    intro j hj
    obtain ⟨x, hx, rfl⟩ := Finset.mem_image.mp hj
    obtain ⟨-, hfirst, hlast⟩ := slot_spec (Finset.mem_filter.mp hx).2
    refine Finset.mem_Icc.mpr ⟨hfirst, ?_⟩
    split at hlast
    · exact Nat.le_of_eq hlast
    · exact Nat.le_of_lt hlast
  have hinj : Set.InjOn Prod.fst ((late.filter fun x => slot files x = k + 1 : Finset _) :
      Set (Nat × Bool)) := by
    intro x hx y hy hxy
    obtain ⟨-, -, hx⟩ := slot_spec (Finset.mem_filter.mp (Finset.mem_coe.mp hx)).2
    obtain ⟨-, -, hy⟩ := slot_spec (Finset.mem_filter.mp (Finset.mem_coe.mp hy)).2
    obtain ⟨i, b⟩ := x
    obtain ⟨j, c⟩ := y
    obtain rfl : i = j := hxy
    -- the last chunk is none of the others
    cases b <;> cases c <;> simp_all
  have hcard : (Finset.Icc (firstChunk files.size k) (lastChunk files.size k)).card ≤
      ((late.filter fun x => slot files x = k + 1).image Prod.fst).card := by
    have hle := firstChunk_le files.size k
    rw [Finset.card_image_of_injOn hinj, Nat.card_Icc]
    omega
  have hmem : i ∈ (late.filter fun x => slot files x = k + 1).image Prod.fst := by
    rw [Finset.eq_of_subset_of_card_le hsub hcard]
    exact Finset.mem_Icc.mpr ⟨hi, hi'⟩
  obtain ⟨⟨j, b⟩, hx, rfl⟩ := Finset.mem_image.mp hmem
  exact ⟨b, (Finset.mem_filter.mp hx).1⟩

end Basics

/-! ## 2. The server -/

/-- The numbers of packets. -/
def Files.Number (files : Files) (i : Nat) : Prop := i < files.chunks ∨ i = 10001 ∨ i = 10002

def Files.numbers (files : Files) : Finset Nat := Finset.range files.chunks ∪ {10001, 10002}

theorem mem_numbers {files : Files} {i : Nat} : i ∈ files.numbers ↔ files.Number i := by
  simp only [Files.numbers, Files.Number, Finset.mem_union, Finset.mem_range, Finset.mem_insert,
    Finset.mem_singleton]

theorem card_first {k : Nat} (hk : k ≤ 9860) : (Finset.range k ∪ {10001, 10002}).card = k + 2 := by
  rw [Finset.card_union_of_disjoint, Finset.card_range]
  · rfl
  · rw [Finset.disjoint_left]
    intro i hi
    have hi := Finset.mem_range.mp hi
    simp only [Finset.mem_insert, Finset.mem_singleton]
    omega

theorem card_numbers (files : Files) : files.numbers.card = files.chunks + 2 :=
  card_first files.chunks_bounds.2

/-- What has arrived is what was sent, or blank. -/
structure Server.Holds (files : Files) (blank : Bool) (s : Server) : Prop where
  number : ∀ i ∈ s.completed, files.Number i
  size : s.rum.length = 2 * chunkPkt
  first : 10001 ∈ s.completed → s.rum.take chunkPkt = files.rumBytes.take chunkPkt
  second : 10002 ∈ s.completed → s.rum.drop chunkPkt = files.rumBytes.drop chunkPkt
  texts : ∀ i ∈ s.completed, ∀ p < chunkBuf, i * chunkBuf + p < files.texts.length →
    s.bufFile (i * chunkBuf + p) = shown files blank (i * chunkBuf + p)

/-- The files have their places, `late` is what has been counted down since, and what has been
    saved is complete. -/
structure Server.Tracks (files : Files) (blank : Bool) (late : Finset (Nat × Bool)) (s : Server) :
    Prop where
  idx2file : s.idx2file = (layout files.size).idx2file
  file2pos : s.file2pos = (layout files.size).file2pos
  counted : ∀ x ∈ late, x.1 ∈ s.completed
  file2rem : ∀ k < 1001, s.file2rem k =
    (layout files.size).file2rem k - (late.filter fun x => slot files x = k + 1).card
  saved : ∀ k bytes, s.saved k = some bytes →
    s.Has files k ∧ (k < 1000 → bytes = savedFile files blank k)

/-- A file that has been counted down has been saved. -/
def Server.Done (s : Server) : Prop := ∀ k < 1001, s.file2rem k = 0 → s.saved k ≠ none

structure Server.Inv (files : Files) (blank : Bool) (s : Server) : Prop where
  holds : s.Holds files blank
  unknown : ¬ s.Known → s.idx2file = (fun _ => (0, 0)) ∧ s.file2rem = (fun _ => 0) ∧
    s.saved = fun _ => none
  known : s.Known → (∃ late, s.Tracks files blank late) ∧ s.Done
  stopped : s.running = false → s.Known → ∀ k < 1001, s.saved k ≠ none

section Server

variable {files : Files} {blank : Bool} {late : Finset (Nat × Bool)} {s : Server} {k i : Nat}

theorem Server.Holds.rum (h : s.Holds files blank) (hknown : s.Known) : s.rum = files.rumBytes := by
  rw [← List.take_append_drop chunkPkt s.rum, h.first hknown.1, h.second hknown.2,
    List.take_append_drop]

/-- A place in the text, in its chunk. -/
theorem Server.Holds.shown (h : s.Holds files blank) (hin : i < files.texts.length)
    (hchunk : i / chunkBuf ∈ s.completed) : s.bufFile i = shown files blank i := by
  have hsplit : i / chunkBuf * chunkBuf + i % chunkBuf = i := Nat.div_add_mod' i chunkBuf
  have htext := h.texts _ hchunk (i % chunkBuf) (Nat.mod_lt i (by decide)) (hsplit.symm ▸ hin)
  rwa [hsplit] at htext

/-- As long as chunk 0 is not there, it does not matter what will come. -/
theorem Server.Holds.undecided (h : s.Holds files blank) (h0 : 0 ∉ s.completed) (blank' : Bool) :
    s.Holds files blank' where
  number := h.number
  size := h.size
  first := h.first
  second := h.second
  texts i hi p hp hin := by
    have hne : i ≠ 0 := fun e => h0 (e ▸ hi)
    rw [h.texts i hi p hp hin, shown_chunk hne p blank']

theorem Server.Tracks.undecided (h : s.Tracks files blank late) (h0 : 0 ∉ s.completed)
    (blank' : Bool) : s.Tracks files blank' late where
  idx2file := h.idx2file
  file2pos := h.file2pos
  counted := h.counted
  file2rem := h.file2rem
  saved k bytes hk := by
    obtain ⟨hhas, hbytes⟩ := h.saved k bytes hk
    refine ⟨hhas, fun hlt => (hbytes hlt).trans (savedFile_eq ?_ blank')⟩
    by_contra hbefore
    have hzero : firstChunk files.size k = 0 := Nat.div_eq_of_lt (Nat.not_le.mp hbefore)
    exact h0 (hzero ▸ hhas _ (Nat.le_refl _) (firstChunk_le files.size k))

theorem saved_save (s : Server) (k j : Nat) : (s.save k).saved j =
    if j = k then some ((List.range (rumSize s.rum k)).map fun i => s.bufFile (s.file2pos k + i))
    else s.saved j := Function.update_apply ..

/-- **A file is saved** as it should be. -/
theorem Server.Tracks.save (h : s.Tracks files blank late) (hs : s.Holds files blank)
    (hknown : s.Known) (hhas : s.Has files k) : (s.save k).Tracks files blank late where
  idx2file := h.idx2file
  file2pos := h.file2pos
  counted := h.counted
  file2rem := h.file2rem
  saved j bytes hj := by
    rw [saved_save] at hj
    split at hj
    · rename_i hjk
      subst hjk
      refine ⟨hhas, fun hlt => ?_⟩
      have hpos : s.file2pos j = start files.size j := by
        rw [h.file2pos]
        exact (layout_spec files.size).file2pos j (Nat.lt_succ_of_lt hlt)
      rw [← Option.some.inj hj, hs.rum hknown, files.rumSize_rumBytes (Nat.lt_succ_of_lt hlt), hpos]
      refine List.map_congr_left fun i hi => ?_
      have hi := List.mem_range.mp hi
      have hend := files.start_le (show j + 1 ≤ 1000 from hlt)
      have hlast := start_succ files.size j
      refine hs.shown (by omega) (hhas _ ?_ ?_)
      · exact Nat.div_le_div_right (Nat.le_add_right _ _)
      · exact Nat.div_le_div_right (by omega)
    · exact h.saved j bytes hj

theorem saved_save_ne_none {j : Nat} (h : s.saved j ≠ none ∨ j = k) :
    (s.save k).saved j ≠ none := by
  rw [saved_save]
  split
  · exact Option.some_ne_none _
  · exact h.resolve_right ‹_›

/-- **One file is counted down**, and saved at zero. -/
theorem Server.Tracks.countDown (h : s.Tracks files blank late) (hs : s.Holds files blank)
    (hknown : s.Known) (hdone : s.Done) {x : Nat × Bool} (hx : x ∉ late)
    (hin : x.1 ∈ s.completed) :
    (s.countDown (slot files x)).Tracks files blank (insert x late) ∧
      (s.countDown (slot files x)).Done := by
  have hcounted : ∀ y ∈ insert x late, y.1 ∈ s.completed := by
    intro y hy
    rcases Finset.mem_insert.mp hy with rfl | hy
    · exact hin
    · exact h.counted y hy
  have hfilter : ∀ k, ((insert x late).filter fun y => slot files y = k + 1).card =
      (late.filter fun y => slot files y = k + 1).card + if slot files x = k + 1 then 1 else 0 := by
    intro k
    rw [Finset.filter_insert]
    split
    · rw [Finset.card_insert_of_notMem fun hmem => hx (Finset.mem_filter.mp hmem).1]
    · rfl
  unfold Server.countDown
  split
  · rename_i hzero
    refine ⟨{ h with counted := hcounted, file2rem := fun k hk => ?_ }, hdone⟩
    rw [hfilter, hzero, if_neg (by omega), h.file2rem k hk]
    rfl
  · rename_i hne
    obtain ⟨f, hf⟩ := Nat.exists_eq_succ_of_ne_zero hne
    have hlt : f < 1001 := (slot_spec hf).1
    rw [hf, Nat.succ_sub_one]
    dsimp only
    set t : Server := { s with file2rem := Function.update s.file2rem f (s.file2rem f - 1) } with ht
    have htracks : t.Tracks files blank (insert x late) := by
      refine { h with counted := hcounted, file2rem := fun k hk => ?_ }
      rw [hfilter, hf]
      show Function.update s.file2rem f (s.file2rem f - 1) k = _
      by_cases hkf : k = f
      · subst hkf
        rw [Function.update_self, h.file2rem k hk, if_pos rfl]
        push_cast
        omega
      · rw [Function.update_of_ne hkf, h.file2rem k hk, if_neg (by omega)]
        rfl
    have hother : ∀ k, k ≠ f → k < 1001 → t.file2rem k = 0 → t.saved k ≠ none := by
      intro k hkf hk hzero
      exact hdone k hk ((Function.update_of_ne hkf ..).symm.trans hzero)
    split
    · rename_i hzero
      have hhas : t.Has files f := by
        intro i hi hi'
        obtain ⟨b, hb⟩ := counted_all ((htracks.file2rem f hlt).symm.trans hzero) hlt hi hi'
        exact hcounted _ hb
      refine ⟨htracks.save { hs with } hknown hhas, fun k hk hzero => saved_save_ne_none ?_⟩
      by_cases hkf : k = f
      · exact .inr hkf
      · exact .inl (hother k hkf hk hzero)
    · rename_i hne'
      refine ⟨htracks, fun k hk hzero => hother k (fun hkf => hne' ?_) hk hzero⟩
      exact hkf ▸ hzero

/-- **Behind the loop** everything is saved that was not. -/
theorem Server.Tracks.finish (h : s.Tracks files blank late) (hs : s.Holds files blank)
    (hknown : s.Known) (hdone : s.Done) (hall : ∀ k < 1001, s.Has files k) :
    ∃ saved, s.finish = { s with running := false, saved := saved } ∧
      Server.Tracks files blank late { s with running := false, saved := saved } ∧
      ∀ k < 1001, saved k ≠ none := by
  have hloop : ∀ n ≤ 1001, ∃ saved,
      (List.range n).foldl (fun s i => if s.file2rem i ≠ 0 then s.save i else s)
          { s with running := false } = { s with running := false, saved := saved } ∧
        Server.Tracks files blank late { s with running := false, saved := saved } ∧
        (∀ k, s.saved k ≠ none → saved k ≠ none) ∧ ∀ k < n, saved k ≠ none := by
    intro n hn
    induction n with
    | zero =>
      exact ⟨s.saved, rfl, { h with }, fun _ hk => hk, fun k hk => absurd hk (Nat.not_lt_zero k)⟩
    | succ n ih =>
      obtain ⟨saved, heq, htracks, hgrows, hsaved⟩ := ih (Nat.le_of_succ_le hn)
      rw [List.range_succ, List.foldl_append, heq]
      simp only [List.foldl_cons, List.foldl_nil]
      split
      · refine ⟨_, rfl, htracks.save { hs with } hknown (hall n hn), fun k hk => ?_, fun k hk => ?_⟩
        · exact saved_save_ne_none (.inl (hgrows k hk))
        · exact saved_save_ne_none
            ((Nat.lt_succ_iff_lt_or_eq.mp hk).imp_left fun hlt => hsaved k hlt)
      · rename_i hzero
        refine ⟨saved, rfl, htracks, hgrows, fun k hk => ?_⟩
        rcases Nat.lt_succ_iff_lt_or_eq.mp hk with hlt | rfl
        · exact hsaved k hlt
        · exact hgrows k (hdone k hn (not_not.mp hzero))
  obtain ⟨saved, heq, htracks, -, hsaved⟩ := hloop 1001 (Nat.le_refl _)
  exact ⟨saved, heq, htracks, hsaved⟩

/-- Without metadata there is nothing to save. -/
theorem finish_unknown (h : s.file2rem = fun _ => 0) : s.finish = { s with running := false } := by
  have hloop : ∀ ks : List Nat,
      ks.foldl (fun s i => if s.file2rem i ≠ 0 then s.save i else s) { s with running := false } =
        { s with running := false } := by
    intro ks
    induction ks with
    | nil => rfl
    | cons k ks ih => rwa [List.foldl_cons, if_neg (by simp [h])]
  exact hloop _

/-- What the end leaves as it was. -/
theorem finish_frame (s : Server) :
    ∃ saved, s.finish = { s with running := false, saved := saved } := by
  have hloop : ∀ (ks : List Nat) (saved : Nat → Option Bytes), ∃ saved',
      ks.foldl (fun s i => if s.file2rem i ≠ 0 then s.save i else s)
        { s with running := false, saved := saved } =
          { s with running := false, saved := saved' } := by
    intro ks
    induction ks with
    | nil => exact fun saved => ⟨saved, rfl⟩
    | cons k ks ih =>
      intro saved
      rw [List.foldl_cons]
      split
      · exact ih _
      · exact ih saved
  exact hloop _ s.saved

/-- Enough packets have arrived when as many have as there are. -/
theorem Server.Holds.all (h : s.Holds files blank) (hcard : s.completed.card = files.chunks + 2) :
    ∀ i, files.Number i → i ∈ s.completed := by
  have hsub : s.completed ⊆ files.numbers := fun i hi => mem_numbers.mpr (h.number i hi)
  have heq := Finset.eq_of_subset_of_card_le hsub (by rw [hcard, card_numbers])
  exact fun i hi => heq ▸ mem_numbers.mpr hi

/-- **A chunk is unpacked.** -/
theorem Server.Holds.decompress (h : s.Holds files blank) {content : Bytes} (hi : i < files.chunks)
    (hcontent : ∀ p < chunkBuf, i * chunkBuf + p < files.texts.length →
      (unpackChunk content).getD p 0 = Rup.shown files blank (i * chunkBuf + p)) :
    Server.Holds files blank
      (Server.decompress { s with completed := insert i s.completed } ⟨i, content⟩) := by
  have hsmall := files.chunks_bounds
  refine ⟨?_, h.size, ?_, ?_, ?_⟩
  · intro j hj
    rcases Finset.mem_insert.mp hj with rfl | hj
    · exact .inl hi
    · exact h.number j hj
  · exact fun hj => h.first ((Finset.mem_insert.mp hj).resolve_left (by omega))
  · exact fun hj => h.second ((Finset.mem_insert.mp hj).resolve_left (by omega))
  · intro j hj p hp hin
    show (if i * chunkBuf ≤ j * chunkBuf + p ∧ j * chunkBuf + p < i * chunkBuf + chunkBuf then
      (unpackChunk content).getD (j * chunkBuf + p - i * chunkBuf) 0
      else s.bufFile (j * chunkBuf + p)) = _
    by_cases hij : j = i
    · subst hij
      rw [if_pos ⟨Nat.le_add_right _ _, Nat.add_lt_add_left hp _⟩, Nat.add_sub_cancel_left]
      exact hcontent p hp hin
    · rw [if_neg, h.texts j ((Finset.mem_insert.mp hj).resolve_left hij) p hp hin]
      intro ⟨hle, hlt⟩
      -- the quotient by the size tells the chunks apart
      have hdiv : (j * chunkBuf + p) / chunkBuf = j := by
        rw [Nat.mul_comm, Nat.mul_add_div (by decide), Nat.div_eq_of_lt hp, Nat.add_zero]
      refine hij (hdiv.symm.trans (Nat.div_eq_of_lt_le hle ?_))
      rwa [Nat.succ_mul]

/-- The two halves of the metadata, in memory. -/
theorem overwrite_half {rum bytes : Bytes} (hrum : rum.length = 2 * chunkPkt)
    (hbytes : bytes.length = 2 * chunkPkt) :
    overwrite rum (0 * chunkPkt) (piece chunkPkt bytes 0) =
        bytes.take chunkPkt ++ rum.drop chunkPkt ∧
      overwrite rum (1 * chunkPkt) (piece chunkPkt bytes 1) =
        rum.take chunkPkt ++ bytes.drop chunkPkt := by
  have hfirst : (bytes.take chunkPkt).length = chunkPkt := by
    rw [List.length_take]
    omega
  have hsecond : (bytes.drop chunkPkt).length = chunkPkt := by
    rw [List.length_drop]
    omega
  have hend : rum.drop (chunkPkt + chunkPkt) = [] := List.drop_eq_nil_of_le (by omega)
  refine ⟨?_, ?_⟩
  · simp [overwrite, piece, hfirst]
  · have hall : (bytes.drop chunkPkt).take chunkPkt = bytes.drop chunkPkt :=
      List.take_of_length_le (Nat.le_of_eq hsecond)
    simp [overwrite, piece, hall, hsecond, hend]

/-- A half of the metadata is put into its place. -/
theorem Server.Holds.metadata (h : s.Holds files blank) (hi : i = 10001 ∨ i = 10002) :
    Server.Holds files blank { s with
      completed := insert i s.completed
      rum := overwrite s.rum ((i - 10001) * chunkPkt) (files.rup i).content } := by
  have hbytes := files.rumBytes_length
  have hsize := h.size
  have hsmall := files.chunks_bounds
  have hcontent : (files.rup i).content = piece chunkPkt files.rumBytes (i - 10001) := by
    unfold Files.rup
    rw [if_neg (by omega), if_pos hi]
  obtain ⟨hfirst, hsecond⟩ := overwrite_half hsize hbytes
  have hnumber : ∀ j ∈ insert i s.completed, files.Number j := by
    intro j hj
    rcases Finset.mem_insert.mp hj with rfl | hj
    · exact .inr hi
    · exact h.number j hj
  -- there is no text so far behind
  have htexts : ∀ j ∈ insert i s.completed, ∀ p < chunkBuf,
      j * chunkBuf + p < files.texts.length →
        s.bufFile (j * chunkBuf + p) = Rup.shown files blank (j * chunkBuf + p) := by
    intro j hj p hp hin
    rcases Finset.mem_insert.mp hj with rfl | hj
    · have hfits := files.fits
      have htexts : files.texts = Rup.texts files.contents := rfl
      have hbuf : bufSize = 17600100 := rfl
      have hfar : 10001 * 1785 ≤ j * chunkBuf := Nat.mul_le_mul (by omega) (Nat.le_refl _)
      rw [← htexts] at hfits
      omega
    · exact h.texts j hj p hp hin
  have htake : (files.rumBytes.take chunkPkt).length = chunkPkt := by
    rw [List.length_take]
    omega
  have htake' : (s.rum.take chunkPkt).length = chunkPkt := by
    rw [List.length_take]
    omega
  rw [hcontent]
  rcases hi with rfl | rfl
  · have hrum : overwrite s.rum ((10001 - 10001) * chunkPkt)
        (piece chunkPkt files.rumBytes (10001 - 10001)) = _ := hfirst
    rw [hrum]
    refine ⟨hnumber, ?_, fun _ => List.take_left' htake, fun hj => ?_, htexts⟩
    · rw [List.length_append, List.length_drop]
      omega
    · have hold := h.second ((Finset.mem_insert.mp hj).resolve_left (by decide))
      exact (List.drop_left' htake).trans hold
  · have hrum : overwrite s.rum ((10002 - 10001) * chunkPkt)
        (piece chunkPkt files.rumBytes (10002 - 10001)) = _ := hsecond
    rw [hrum]
    refine ⟨hnumber, ?_, fun hj => ?_, fun _ => List.drop_left' htake', htexts⟩
    · rw [List.length_append, List.length_drop]
      omega
    · have hold := h.first ((Finset.mem_insert.mp hj).resolve_left (by decide))
      exact (List.take_left' htake').trans hold

theorem layout_congr {size size' : Nat → Nat} (h : ∀ k < 1001, size k = size' k) :
    layout size = layout size' := by
  refine List.foldl_ext _ _ _ fun l k hk => ?_
  unfold Layout.add
  rw [h k (List.mem_range.mp hk)]

theorem rup_metadata (hi : i = 10001 ∨ i = 10002) : (files.rup i).index = i := by
  have hsmall := files.chunks_bounds
  unfold Files.rup
  rw [if_neg (by omega), if_pos hi]

theorem Server.Inv.undecided (h : s.Inv files blank) (h0 : 0 ∉ s.completed) (blank' : Bool) :
    s.Inv files blank' where
  holds := h.holds.undecided h0 blank'
  unknown := h.unknown
  known hknown := by
    obtain ⟨⟨late, htracks⟩, hdone⟩ := h.known hknown
    exact ⟨⟨late, htracks.undecided h0 blank'⟩, hdone⟩
  stopped := h.stopped

/-- **A packet of the metadata** comes for the first time. -/
theorem Server.Inv.metadata (h : s.Inv files blank) (hrun : s.running = true)
    (hi : i = 10001 ∨ i = 10002) (hnew : i ∉ s.completed) :
    (Server.onMetadata { s with completed := insert i s.completed } (files.rup i)).Inv
      files blank := by
  have hunknown : ¬ s.Known := by
    intro hknown
    rcases hi with rfl | rfl
    · exact hnew hknown.1
    · exact hnew hknown.2
  obtain ⟨hidx, hrem, hsaved⟩ := h.unknown hunknown
  have hholds := h.holds.metadata hi
  unfold Server.onMetadata
  rw [rup_metadata hi]
  dsimp only
  split
  · rename_i hknown
    set t : Server := { s with
      completed := insert i s.completed
      rum := overwrite s.rum ((i - 10001) * chunkPkt) (files.rup i).content } with ht
    have hlayout : layout (rumSize t.rum) = layout files.size := by
      refine layout_congr fun k hk => ?_
      rw [hholds.rum hknown, files.rumSize_rumBytes hk]
    generalize layout (rumSize t.rum) = l at hlayout ⊢
    refine ⟨{ hholds with }, fun hno => absurd hknown hno, fun _ => ⟨⟨∅, ?_⟩, ?_⟩, ?_⟩
    · refine ⟨congrArg Layout.idx2file hlayout, congrArg Layout.file2pos hlayout,
        fun x hx => absurd hx (Finset.notMem_empty x), fun k _ => ?_, fun k bytes hk => ?_⟩
      · rw [Finset.filter_empty, Finset.card_empty, ← hlayout]
        exact (Int.sub_zero _).symm
      · have hnone : s.saved k = some bytes := hk
        rw [hsaved] at hnone
        cases hnone
    · -- every file has at least one chunk
      intro k hk hzero
      have hplaced := (layout_spec files.size).file2rem k hk
      have hle := firstChunk_le files.size k
      have hzero : l.file2rem k = 0 := hzero
      rw [hlayout] at hzero
      omega
    · intro hstop
      exact absurd (hstop.symm.trans hrun) Bool.false_ne_true
  · rename_i hno
    refine ⟨hholds, fun _ => ⟨hidx, hrem, hsaved⟩, fun hknown => absurd hknown hno, ?_⟩
    intro hstop
    exact absurd (hstop.symm.trans hrun) Bool.false_ne_true

/-- What a count changes. -/
theorem countDown_frame (s : Server) (f : Nat) :
    ∃ rem saved, s.countDown f = { s with file2rem := rem, saved := saved } := by
  unfold Server.countDown
  split
  · exact ⟨_, _, rfl⟩
  · dsimp only
    split
    · exact ⟨_, _, rfl⟩
    · exact ⟨_, _, rfl⟩

theorem onMetadata_completed (s : Server) (p : Packet) :
    (s.onMetadata p).completed = s.completed := by
  unfold Server.onMetadata
  dsimp only
  split
  · rfl
  · rfl

/-- **A chunk** comes for the first time. -/
theorem Server.Inv.chunk (h : s.Inv files blank) (hrun : s.running = true) (hi : i < files.chunks)
    (hnew : i ∉ s.completed) {content : Bytes}
    (hcontent : ∀ p < chunkBuf, i * chunkBuf + p < files.texts.length →
      (unpackChunk content).getD p 0 = Rup.shown files blank (i * chunkBuf + p)) :
    (Server.onChunk { s with completed := insert i s.completed } ⟨i, content⟩).Inv files blank := by
  have hsmall := files.chunks_bounds
  have hholds := h.holds.decompress hi hcontent
  unfold Server.onChunk
  dsimp only
  set t : Server := Server.decompress { s with completed := insert i s.completed } ⟨i, content⟩
    with ht
  have hback : t.Known → s.Known := by
    intro ⟨h1, h2⟩
    exact ⟨(Finset.mem_insert.mp h1).resolve_left (by omega),
      (Finset.mem_insert.mp h2).resolve_left (by omega)⟩
  have hstop : t.running ≠ false := fun hstop => Bool.false_ne_true (hstop.symm.trans hrun)
  by_cases hknown : t.Known
  · obtain ⟨⟨late, hold⟩, hdone⟩ := h.known (hback hknown)
    have hfresh : ∀ b, (i, b) ∉ late := fun b hmem => hnew (hold.counted _ hmem)
    have htracks : t.Tracks files blank late := by
      refine ⟨hold.idx2file, hold.file2pos, fun x hx => ?_, hold.file2rem, fun k bytes hk => ?_⟩
      · exact Finset.mem_insert_of_mem (hold.counted x hx)
      · obtain ⟨hhas, hbytes⟩ := hold.saved k bytes hk
        exact ⟨fun j hj hj' => Finset.mem_insert_of_mem (hhas j hj hj'), hbytes⟩
    have hdone : t.Done := hdone
    have hin : i ∈ t.completed := Finset.mem_insert_self i s.completed
    have hslot : ∀ b, slot files (i, b) = if b then (t.idx2file i).2 else (t.idx2file i).1 := by
      intro b
      rw [htracks.idx2file, slot]
    obtain ⟨htracks₁, hdone₁⟩ := htracks.countDown hholds hknown hdone (hfresh false) hin
    rw [hslot, if_neg Bool.false_ne_true] at htracks₁ hdone₁
    obtain ⟨rem, saved, hframe⟩ := countDown_frame t (t.idx2file i).1
    rw [hframe] at htracks₁ hdone₁ ⊢
    have hfresh' : (i, true) ∉ insert (i, false) late := by simp [hfresh true]
    obtain ⟨htracks₂, hdone₂⟩ := htracks₁.countDown { hholds with } hknown hdone₁ hfresh' hin
    rw [hslot, if_pos rfl] at htracks₂ hdone₂
    obtain ⟨rem', saved', hframe'⟩ :=
      countDown_frame { t with file2rem := rem, saved := saved } (t.idx2file i).2
    dsimp only
    rw [hframe'] at htracks₂ hdone₂ ⊢
    exact ⟨{ hholds with }, fun hno => absurd hknown hno, fun _ => ⟨⟨_, htracks₂⟩, hdone₂⟩,
      fun hs => absurd hs hstop⟩
  · have hno : ¬ s.Known := fun hs =>
      hknown ⟨Finset.mem_insert_of_mem hs.1, Finset.mem_insert_of_mem hs.2⟩
    have hidx : t.idx2file i = (0, 0) := congrFun (h.unknown hno).1 i
    have hzero : ∀ t : Server, t.countDown 0 = t := fun _ => rfl
    rw [hidx, hzero, hidx, hzero]
    exact ⟨hholds, fun _ => h.unknown hno, fun hs => absurd hs hknown, fun hs => absurd hs hstop⟩

/-- What a chunk leaves as it was. -/
theorem onChunk_frame (s : Server) (p : Packet) : (s.onChunk p).completed = s.completed ∧
    (s.onChunk p).rum = s.rum ∧ (s.onChunk p).running = s.running ∧
    (s.onChunk p).index = s.index := by
  unfold Server.onChunk
  dsimp only
  obtain ⟨rem, saved, hframe⟩ :=
    countDown_frame (s.decompress p) ((s.decompress p).idx2file p.index).1
  rw [hframe]
  obtain ⟨rem', saved', hframe'⟩ := countDown_frame
    { s.decompress p with file2rem := rem, saved := saved } ((s.decompress p).idx2file p.index).2
  dsimp only
  rw [hframe']
  exact ⟨rfl, rfl, rfl, rfl⟩

theorem Server.Inv.relabel (h : s.Inv files blank) (index : Int) :
    Server.Inv files blank { s with index := index } where
  holds := { h.holds with }
  unknown := h.unknown
  known hknown := by
    obtain ⟨⟨late, htracks⟩, hdone⟩ := h.known hknown
    exact ⟨⟨late, { htracks with }⟩, hdone⟩
  stopped := h.stopped

/-- **What has arrived after a datagram.** -/
theorem onPacket_completed (s : Server) (p : Packet) :
    (s.onPacket p).1.completed = insert p.index s.completed := by
  unfold Server.onPacket
  split
  · exact (Finset.insert_eq_of_mem ‹_›).symm
  · dsimp only
    split
    · exact onMetadata_completed _ _
    · obtain ⟨hcompleted, -⟩ := onChunk_frame { s with completed := insert p.index s.completed } p
      generalize Server.onChunk _ _ = t at hcompleted ⊢
      split
      · exact hcompleted
      · split
        · obtain ⟨saved, hframe⟩ := finish_frame t
          dsimp only
          rw [hframe]
          exact hcompleted
        · exact hcompleted

theorem onPacket_subset (s : Server) (p : Packet) : s.completed ⊆ (s.onPacket p).1.completed := by
  rw [onPacket_completed]
  exact Finset.subset_insert _ _

/-- **The server leaves its loop**: if the metadata is known, no packet is missing. -/
theorem Server.Inv.finish (h : s.Inv files blank)
    (hrem : (rumChunks s.rum + 2 : Int) - s.completed.card = 0) : s.finish.Inv files blank := by
  by_cases hknown : s.Known
  · obtain ⟨⟨late, htracks⟩, hdone⟩ := h.known hknown
    rw [h.holds.rum hknown, files.rumChunks_rumBytes] at hrem
    have hall := h.holds.all (by omega)
    obtain ⟨saved, heq, htracks', hsaved⟩ := htracks.finish h.holds hknown hdone fun k hk i _ hi =>
      hall i (.inl (hi.trans_lt (files.lastChunk_lt hk)))
    rw [heq]
    exact ⟨{ h.holds with }, fun hno => absurd hknown hno,
      fun _ => ⟨⟨late, htracks'⟩, fun k hk _ => hsaved k hk⟩, fun _ _ => hsaved⟩
  · rw [finish_unknown (h.unknown hknown).2.1]
    exact ⟨{ h.holds with }, fun _ => h.unknown hknown, fun hs => absurd hs hknown,
      fun _ hs => absurd hs hknown⟩

/-- **A datagram with a chunk** that was not there. -/
theorem Server.Inv.onPacket (h : s.Inv files blank) (hrun : s.running = true)
    (hi : i < files.chunks) (hnew : i ∉ s.completed) {content : Bytes}
    (hcontent : ∀ p < chunkBuf, i * chunkBuf + p < files.texts.length →
      (unpackChunk content).getD p 0 = Rup.shown files blank (i * chunkBuf + p)) :
    (s.onPacket ⟨i, content⟩).1.Inv files blank := by
  have hsmall := files.chunks_bounds
  have hchunk := h.chunk hrun hi hnew hcontent
  obtain ⟨hcompleted, hrum, -, -⟩ :=
    onChunk_frame { s with completed := insert i s.completed } ⟨i, content⟩
  unfold Server.onPacket
  rw [if_neg hnew]
  dsimp only
  rw [if_neg (by omega)]
  generalize Server.onChunk _ _ = t at hchunk hcompleted hrum ⊢
  split
  · exact hchunk.relabel _
  · split
    · rename_i hrem
      have hrem' : (rumChunks t.rum + 2 : Int) - t.completed.card = 0 := by
        rw [hcompleted, hrum]
        exact hrem
      dsimp only
      exact hchunk.finish hrem'
    · exact hchunk

/-- Zeros are blanks. -/
theorem unpackChunk_zeros {p : Nat} (hp : p < chunkBuf) :
    (unpackChunk (List.replicate chunkPkt 0)).getD p 0 = 32 := by
  have hchunk : unpackChunk (List.replicate chunkPkt 0) = List.replicate chunkBuf 32 := by
    decide +kernel
  rw [hchunk]
  simp [hp]

/-- What the client's packets say. -/
theorem rup_chunk (hi : i < files.chunks) :
    ∃ content, files.rup i = ⟨i, content⟩ ∧ ∀ p < chunkBuf,
      (unpackChunk content).getD p 0 = Rup.shown files false (i * chunkBuf + p) := by
  refine ⟨_, if_pos hi, fun p hp => ?_⟩
  rw [List.getD_eq_getElem?_getD, ← files.unpacked_getElem? hi hp]
  simp [Rup.shown]

theorem rup_empty (files : Files) :
    files.rup files.chunks = ⟨0, List.replicate chunkPkt 0⟩ := by
  have hsmall := files.chunks_bounds
  unfold Files.rup
  rw [if_neg (Nat.lt_irrefl _), if_neg (by omega)]

/-- What is sent for a datagram says what is there. -/
theorem onPacket_sent {p : Packet} {r : Status} (h : r ∈ (s.onPacket p).2) :
    r.bits = (s.onPacket p).1.completed := by
  unfold Server.onPacket at h ⊢
  split at h
  · exact absurd h (Multiset.notMem_zero r)
  · rename_i hnew
    rw [if_neg hnew]
    dsimp only at h ⊢
    split at h
    · exact absurd h (Multiset.notMem_zero r)
    · rename_i hchunk
      rw [if_neg hchunk]
      split at h
      · rename_i hrem
        rw [if_pos hrem, Multiset.eq_of_mem_replicate h]
        rfl
      · split at h
        · exact absurd h (Multiset.notMem_zero r)
        · exact absurd h (Multiset.notMem_zero r)

/-- **A datagram that the client has filled.** -/
theorem Server.Inv.onNumber (h : s.Inv files blank) (hzero : blank = true → 0 ∈ s.completed)
    (hrun : s.running = true) (hi : files.Number i) :
    (s.onPacket (files.rup i)).1.Inv files blank := by
  rcases hi with hi | hi
  · obtain ⟨content, hrup, hcontent⟩ := rup_chunk hi
    rw [hrup]
    by_cases hnew : i ∈ s.completed
    · unfold Server.onPacket
      rw [if_pos hnew]
      exact h
    · have hsame : ∀ p, Rup.shown files false (i * chunkBuf + p) =
          Rup.shown files blank (i * chunkBuf + p) := by
        intro p
        cases hb : blank with
        | false => rfl
        | true =>
          have hne : i ≠ 0 := fun e => hnew (e ▸ hzero hb)
          exact shown_chunk hne p true
      exact h.onPacket hrun hi hnew fun p hp _ => (hcontent p hp).trans (hsame p)
  · unfold Server.onPacket
    rw [rup_metadata hi]
    by_cases hnew : i ∈ s.completed
    · rw [if_pos hnew]
      exact h
    · rw [if_neg hnew]
      dsimp only
      rw [if_pos (by omega)]
      exact h.metadata hrun hi hnew

/-- **A datagram that it has not filled**, before chunk 0. -/
theorem Server.Inv.onEmpty (h : s.Inv files blank) (hrun : s.running = true)
    (hnew : 0 ∉ s.completed) : (s.onPacket (files.rup files.chunks)).1.Inv files true := by
  have hsmall := files.chunks_bounds
  rw [rup_empty]
  refine (h.undecided hnew true).onPacket hrun (by omega) hnew fun p hp _ => ?_
  rw [unpackChunk_zeros hp]
  simp [Rup.shown, hp]

end Server

end InpLabs.Rup
