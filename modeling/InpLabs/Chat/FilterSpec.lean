/-
  File:      InpLabs/Chat/FilterSpec.lean
  Subject:   The content filter and its specification (homework2: server.cpp, chatroom.cpp,
             README.md).

  * `Masked`: the positions of a message that are to be masked;
  * `words_apart`: no two filter words overlap, and none but `==` overlaps itself, so the order in
    which they are searched for plays no part;
  * `rounds_mask`: what a list of filter words masks; `filter_exact`: the filter meets its
    specification, in every order of its words.
-/
import InpLabs.Chat.Filter
import InpLabs.Chat.Handlers
import InpLabs.Lib.Masking

namespace InpLabs.Chat

open InpLabs.Lib
open ServerM (run)

/-! ## 1. The specification -/

/-- The word stands at position `i` of the message, in upper or lower case letters. -/
def Occurs (word message : Bytes) (i : ℕ) : Prop :=
  word.map tolower <+: (message.map tolower).drop i

/-- The filter words that are masked wherever they stand. -/
def plainWords : List Bytes :=
  [ascii "Superpie", ascii "hello", ascii "Starburst Stream", ascii "Domain Expansion"]

/-- The position is one of an occurrence of a word, or one of the first positions, as many as are
even, of a run of `=`. -/
def Masked (message : Bytes) (p : ℕ) : Prop :=
  (∃ w ∈ plainWords, ∃ i, Occurs w message i ∧ i ≤ p ∧ p < i + w.length) ∨
    ∃ a k, IsRun 61 message a k ∧ a ≤ p ∧ p < a + 2 * (k / 2)

/-! ## 2. The filter words -/

/-- Where a filter word is masked. -/
def Chosen (word key : Bytes) (i : ℕ) : Prop :=
  if word = ascii "==" then InPairs 61 key i else word.map tolower <+: key.drop i

theorem words_apart : ∀ w ∈ filterWords, ∀ w' ∈ filterWords, w ≠ w' ∨ w ≠ ascii "==" →
    ∀ d < (w.map tolower).length, w ≠ w' ∨ 0 < d →
      ¬ Overlaps (w.map tolower) (w'.map tolower) d := by
  decide +kernel

theorem words_unmasked : ∀ w ∈ filterWords, (42 : UInt8) ∉ w.map tolower ∧ w.map tolower ≠ [] := by
  decide

section Words

variable {word word' key : Bytes} {i j : ℕ}

theorem selects_word (hw : word ∈ filterWords) (key : Bytes) :
    Selects (word.map tolower) key (Chosen word key) := by
  by_cases hpair : word = ascii "=="
  · have hchosen : Chosen word key = InPairs 61 key := funext fun i => if_pos hpair
    rw [hchosen, hpair]
    exact selects_pairs 61 key
  · have hchosen : Chosen word key = fun i => word.map tolower <+: key.drop i :=
      funext fun i => if_neg hpair
    rw [hchosen]
    exact selects_all (fun d hd h0 => words_apart word hw word hw (.inr hpair) d hd (.inr h0)) key

/-- Occurrences of two filter words have no position in common. -/
theorem occurrences_apart (hw : word ∈ filterWords) (hw' : word' ∈ filterWords) (hne : word ≠ word')
    (h : word.map tolower <+: key.drop i) (h' : word'.map tolower <+: key.drop j) :
    i + (word.map tolower).length ≤ j ∨ j + (word'.map tolower).length ≤ i := by
  rcases Nat.le_total i j with hij | hji
  · exact .inl (apart_of_occurs (fun d hd _ =>
      words_apart word hw word' hw' (.inl hne) d hd (.inl hne)) h h' hij)
  · exact .inr (apart_of_occurs (fun d hd _ =>
      words_apart word' hw' word hw (.inl hne.symm) d hd (.inl hne.symm)) h' h hji)

/-- **A list of filter words** masks what is chosen for each of them. -/
theorem rounds_mask {text key : Bytes} (hlen : text.length = key.length) {ws : List Bytes}
    (hws : ∀ w ∈ ws, w ∈ filterWords) (hnd : ws.Nodup) {S : Finset ℕ}
    (hS : ∀ w ∈ ws, ∀ i, w.map tolower <+: key.drop i → ∀ k < (w.map tolower).length, i + k ∉ S)
    {res : Bytes × Bytes}
    (hrun : ws.foldlM (fun (m : Bytes × Bytes) word =>
      maskLoop 42 (word.map tolower) (m.2.length + 1) m.1 m.2)
      (maskAt 42 S text, maskAt 42 S key) = some res) :
    ∃ T, res = (maskAt 42 T text, maskAt 42 T key) ∧ ∀ p, p ∈ T ↔ p ∈ S ∨
      ∃ w ∈ ws, ∃ i, Chosen w key i ∧ i ≤ p ∧ p < i + w.length := by
  induction ws generalizing S with
  | nil =>
    cases hrun
    exact ⟨S, rfl, fun p => by simp⟩
  | cons w ws ih =>
    rw [List.foldlM_cons] at hrun
    obtain ⟨res', hround, hrest⟩ := Option.bind_eq_some_iff.mp hrun
    have hw := hws w List.mem_cons_self
    obtain ⟨hstar, hne⟩ := words_unmasked w hw
    have hnone : S ∪ covered (w.map tolower) ∅ = S := Finset.union_empty S
    rw [← hnone] at hround
    obtain ⟨r, hr, rfl⟩ := maskLoop_selects (selects_word hw key) hstar hne
      (hS w List.mem_cons_self) hlen (fun i hi => absurd hi (Finset.notMem_empty i)) hround
    have hmem : ∀ p, p ∈ S ∪ covered (w.map tolower) r ↔
        p ∈ S ∨ ∃ i, Chosen w key i ∧ i ≤ p ∧ p < i + w.length := by
      intro p
      rw [Finset.mem_union, mem_covered]
      simp only [hr, List.length_map]
    have hfree : ∀ w' ∈ ws, ∀ i, w'.map tolower <+: key.drop i →
        ∀ k < (w'.map tolower).length, i + k ∉ S ∪ covered (w.map tolower) r := by
      intro w' hw' i hi k hk hmasked
      have hne : w ≠ w' := fun heq => (List.nodup_cons.mp hnd).1 (heq ▸ hw')
      rcases (hmem _).mp hmasked with hmasked | ⟨j, hj, hle, hlt⟩
      · exact hS w' (List.mem_cons_of_mem w hw') i hi k hk hmasked
      · have hoccurs := (selects_word hw key).occurs j hj
        rw [List.length_map] at hk
        have hapart := occurrences_apart hw (hws w' (List.mem_cons_of_mem w hw')) hne hoccurs hi
        rw [List.length_map, List.length_map] at hapart
        omega
    obtain ⟨T, hT, hTmem⟩ :=
      ih (fun w' hw' => hws w' (List.mem_cons_of_mem w hw')) hnd.of_cons hfree hrest
    refine ⟨T, hT, fun p => ?_⟩
    rw [hTmem, hmem, or_assoc]
    simp only [List.exists_mem_cons_iff]

/-- A message in which no filter word stands is left as it is. -/
theorem filter_clean {m : Bytes} {ws : List Bytes}
    (h : ∀ w ∈ ws, find (w.map tolower) (m.map tolower) = none) :
    filterMessage ws m = some m := by
  have hfold : ws.foldlM (fun (m : Bytes × Bytes) word =>
      maskLoop 42 (word.map tolower) (m.2.length + 1) m.1 m.2) (m, m.map tolower) =
        some (m, m.map tolower) := by
    induction ws with
    | nil => rfl
    | cons w ws ih =>
      have hround : maskLoop 42 (w.map tolower) ((m.map tolower).length + 1) m (m.map tolower) =
          some (m, m.map tolower) := by
        unfold maskLoop
        rw [h w List.mem_cons_self]
      rw [List.foldlM_cons, hround, Option.bind_eq_bind, Option.bind_some]
      exact ih fun w' hw' => h w' (List.mem_cons_of_mem w hw')
  unfold filterMessage
  rw [hfold]
  rfl

end Words

/-! ## 3. The filter -/

section Filter

variable {message : Bytes} {p : ℕ}

theorem tolower_eq_iff (c : UInt8) : tolower c = 61 ↔ c = 61 := by
  unfold tolower
  split
  · rename_i hupper
    simp only [Bool.and_eq_true, decide_eq_true_eq, UInt8.le_iff_toNat_le] at hupper
    refine iff_of_false (fun h => ?_) (fun h => ?_)
    · have hsum := congrArg UInt8.toNat h
      rw [UInt8.toNat_add] at hsum
      simp only [UInt8.reduceToNat] at hupper hsum
      omega
    · rw [h] at hupper
      exact absurd hupper.1 (by decide)
  · exact Iff.rfl

theorem isRun_tolower {a k : ℕ} : IsRun 61 (message.map tolower) a k ↔ IsRun 61 message a k := by
  refine isRun_congr fun i => ?_
  rw [List.getElem?_map]
  cases message[i]? with
  | none => simp
  | some c => simpa using tolower_eq_iff c

/-- The masked positions, by the filter words. -/
theorem masked_iff (message : Bytes) (p : ℕ) : Masked message p ↔
    ∃ w ∈ filterWords, ∃ i, Chosen w (message.map tolower) i ∧ i ≤ p ∧ p < i + w.length := by
  have hwords : filterWords = ascii "==" :: plainWords := rfl
  have hpair : ∀ i, Chosen (ascii "==") (message.map tolower) i ↔
      InPairs 61 (message.map tolower) i := fun i => iff_of_eq (if_pos rfl)
  have hplain : ∀ w ∈ plainWords, ∀ i, Chosen w (message.map tolower) i ↔ Occurs w message i := by
    intro w hw i
    have hne : w ≠ ascii "==" := fun heq => absurd (heq ▸ hw) (by decide)
    exact iff_of_eq (if_neg hne)
  have hlen : (ascii "==").length = 2 := by decide
  rw [hwords, List.exists_mem_cons_iff]
  simp only [hpair, hlen, inPairs_iff, isRun_tolower]
  unfold Masked
  rw [or_comm]
  refine or_congr_right ?_
  constructor
  · rintro ⟨w, hw, i, hi, hle, hlt⟩
    exact ⟨w, hw, i, (hplain w hw i).mpr hi, hle, hlt⟩
  · rintro ⟨w, hw, i, hi, hle, hlt⟩
    exact ⟨w, hw, i, (hplain w hw i).mp hi, hle, hlt⟩

theorem masked_lt (h : Masked message p) : p < message.length := by
  obtain ⟨w, hw, i, hi, hle, hlt⟩ := (masked_iff message p).mp h
  have hoccurs := ((selects_word hw _).occurs i hi).length_le
  rw [List.length_drop, List.length_map, List.length_map] at hoccurs
  omega

/-- What the filter answers, for every order of its words. -/
theorem filter_masks (message : Bytes) {ws : List Bytes} (hws : ws.Perm filterWords) :
    ∃ T, filterMessage ws message = some (maskAt 42 T message) ∧ ∀ p, p ∈ T ↔ Masked message p := by
  have hnd : ws.Nodup := hws.nodup_iff.mpr (by decide)
  obtain ⟨m, hm⟩ := filterMessage_isSome
    (fun w hw => filterWords_progress w (hws.mem_iff.mp hw)) message
  obtain ⟨res, hfold, hres⟩ := Option.map_eq_some_iff.mp hm
  rw [← maskAt_empty 42 message] at hfold
  rw [map_maskAt] at hfold
  have hstar : tolower 42 = 42 := by decide
  rw [hstar] at hfold
  have hlen : message.length = (message.map tolower).length := by rw [List.length_map]
  obtain ⟨T, rfl, hT⟩ := rounds_mask hlen (fun w hw => hws.mem_iff.mp hw) hnd
    (fun _ _ _ _ _ _ => Finset.notMem_empty _) hfold
  refine ⟨T, by rw [hm, ← hres], fun p => ?_⟩
  rw [hT, masked_iff]
  simp only [Finset.notMem_empty, false_or, hws.mem_iff]

/-- No filter word stands in a message with the masked positions masked. -/
theorem masked_clean {T : Finset ℕ} (hT : ∀ p, p ∈ T ↔ Masked message p) {w : Bytes}
    (hw : w ∈ filterWords) (i : ℕ) : ¬ Occurs w (maskAt 42 T message) i := by
  obtain ⟨hstar, hne⟩ := words_unmasked w hw
  have hpos : 0 < w.length := List.length_map (f := tolower) ▸ List.length_pos_of_ne_nil hne
  have hmasked : tolower 42 = 42 := by decide
  unfold Occurs
  rw [map_maskAt, hmasked, prefix_maskAt hstar]
  intro ⟨hoccurs, hout⟩
  have hi : i ∉ T := hout 0 (by rw [List.length_map]; exact hpos)
  rw [hT, masked_iff] at hi
  by_cases hchosen : Chosen w (message.map tolower) i
  · exact hi ⟨w, hw, i, hchosen, Nat.le_refl i, by omega⟩
  · obtain ⟨j, hj, hji, hlt⟩ := (selects_word hw _).first i hoccurs hchosen
    rw [List.length_map] at hlt
    exact hi ⟨w, hw, j, hj, Nat.le_of_lt hji, hlt⟩

/-- **The filter meets its specification**: whatever the order of the filter words, it ends with the
message in which the masked positions hold `*` and nothing else is changed. No filter word stands in
it, so it is not changed by the filter. Both handlers that filter a message use it. -/
theorem filter_exact (message : Bytes) : ∃ m : Bytes,
    (∀ ws, ws.Perm filterWords → filterMessage ws message = some m) ∧
    m.length = message.length ∧
    (∀ p, Masked message p → m[p]? = some 42) ∧
    (∀ p, ¬ Masked message p → m[p]? = message[p]?) ∧
    (∀ ws, ws.Perm filterWords → filterMessage ws m = some m) ∧
    (∀ w ∈ filterWords, ∀ i, ¬ Occurs w m i) ∧
    (∀ (s : Server) n r, s.chatRooms[n]? = some r → r.filterList.Perm filterWords →
      (masked n message).run s = .ok (m, s, [])) := by
  obtain ⟨T, -, hT⟩ := filter_masks message (List.Perm.refl filterWords)
  have hfilter : ∀ ws, ws.Perm filterWords →
      filterMessage ws message = some (maskAt 42 T message) := by
    intro ws hws
    obtain ⟨T', hm, hT'⟩ := filter_masks message hws
    have heq : T' = T := Finset.ext fun p => (hT' p).trans (hT p).symm
    rw [hm, heq]
  refine ⟨maskAt 42 T message, hfilter, maskAt_length _ _ _, fun p hp => ?_, fun p hp => ?_,
    fun ws hws => ?_, fun w hw i => masked_clean hT hw i, fun s n r hr hperm => ?_⟩
  · rw [getElem?_maskAt, List.getElem?_eq_getElem (masked_lt hp), Option.map_some,
      if_pos ((hT p).mpr hp)]
  · rw [getElem?_maskAt]
    simp only [if_neg (mt (hT p).mp hp), Option.map_id']
  · refine filter_clean fun w hw => ?_
    have hmem := hws.mem_iff.mp hw
    exact (find_eq_none_iff (words_unmasked w hmem).2).mpr fun i => masked_clean hT hmem i
  · exact masked_run hr (hfilter _ hperm)

example : filterMessage filterWords (ascii "Hello ===") = some (ascii "***** **=") := by decide

end Filter

end InpLabs.Chat
