/-
  File:      InpLabs/Lib/Masking.lean
  Subject:   Which positions of a list are overwritten when a word is searched for from the start,
             overwritten, and searched for again.

  * `maskAt`: a list with the elements at given positions masked; `overwrite_maskAt`: so an
    overwritten occurrence is an interval more;
  * `Selects`: occurrences that are apart and leave no other one that overlaps none before it;
    `maskLoop_selects`: the loop masks them, and nothing else;
  * `Overlaps`: one word begins inside another; words that do not overlap are selected wherever they
    stand (`selects_all`), and a doubled element is selected in pairs, from the start of each run
    (`selects_pairs`).
-/
import InpLabs.Lib.Substring
import Mathlib.Data.Finset.Union
import Mathlib.Order.Interval.Finset.Nat

namespace InpLabs.Lib

variable {α : Type*}

/-! ## 1. Masked positions -/

/-- The list with `star` at the positions of `S`. -/
def maskAt (star : α) (S : Finset ℕ) (l : List α) : List α :=
  l.mapIdx fun i c => if i ∈ S then star else c

section MaskAt

variable {star : α} {S T : Finset ℕ} {l w : List α} {i n pos : ℕ}

@[simp] theorem maskAt_length (star : α) (S : Finset ℕ) (l : List α) :
    (maskAt star S l).length = l.length := List.length_mapIdx

theorem getElem?_maskAt (star : α) (S : Finset ℕ) (l : List α) (i : ℕ) :
    (maskAt star S l)[i]? = l[i]?.map fun c => if i ∈ S then star else c := List.getElem?_mapIdx

/-- A masked list holds nothing new but the mask. -/
theorem mem_maskAt {star : α} {S : Finset ℕ} {l : List α} {c : α} (h : c ∈ maskAt star S l) :
    c = star ∨ c ∈ l := by
  obtain ⟨i, hi⟩ := List.mem_iff_getElem?.mp h
  rw [getElem?_maskAt] at hi
  obtain ⟨c', hc', rfl⟩ := Option.map_eq_some_iff.mp hi
  split
  · exact .inl rfl
  · exact .inr (List.mem_of_getElem? hc')

theorem maskAt_empty (star : α) (l : List α) : maskAt star ∅ l = l := by
  refine List.ext_getElem? fun i => ?_
  rw [getElem?_maskAt]
  simp

theorem map_maskAt {β : Type*} (f : α → β) (star : α) (S : Finset ℕ) (l : List α) :
    (maskAt star S l).map f = maskAt (f star) S (l.map f) := by
  refine List.ext_getElem? fun i => ?_
  rw [List.getElem?_map, getElem?_maskAt, getElem?_maskAt, List.getElem?_map, Option.map_map,
    Option.map_map]
  congr 1
  funext c
  exact apply_ite f _ _ _

/-- An interval that is overwritten is masked. -/
theorem overwrite_maskAt (h : pos + n ≤ l.length) :
    overwrite (maskAt star S l) pos (List.replicate n star) =
      maskAt star (S ∪ Finset.Ico pos (pos + n)) l := by
  refine List.ext_getElem? fun i => ?_
  have hpos : ((maskAt star S l).take pos).length = pos := by
    rw [List.length_take, maskAt_length]
    omega
  unfold overwrite
  rw [getElem?_maskAt, List.append_assoc, List.length_replicate]
  by_cases hi : i < pos
  · have hout : i ∉ Finset.Ico pos (pos + n) := by simp [hi]
    rw [List.getElem?_append_left (by rw [hpos]; exact hi), List.getElem?_take_of_lt hi,
      getElem?_maskAt]
    simp [Finset.mem_union, hout]
  · rw [List.getElem?_append_right (by rw [hpos]; omega), hpos]
    by_cases hin : i < pos + n
    · have hmem : i ∈ S ∪ Finset.Ico pos (pos + n) := by
        rw [Finset.mem_union, Finset.mem_Ico]
        exact .inr ⟨by omega, hin⟩
      have hlt : i < l.length := by omega
      rw [List.getElem?_append_left (by rw [List.length_replicate]; omega),
        List.getElem?_replicate_of_lt (by omega), List.getElem?_eq_getElem hlt]
      simp only [Option.map_some, if_pos hmem]
    · have hout : i ∉ Finset.Ico pos (pos + n) := by simp [hin]
      rw [List.getElem?_append_right (by rw [List.length_replicate]; omega), List.length_replicate,
        List.getElem?_drop, show pos + n + (i - pos - n) = i by omega, getElem?_maskAt]
      simp [Finset.mem_union, hout]

/-- A word stands at a position if its elements do. -/
theorem prefix_drop_iff : w <+: l.drop i ↔ ∀ k, (hk : k < w.length) → l[i + k]? = some w[k] := by
  rw [List.prefix_iff_getElem?]
  simp only [List.getElem?_drop]

/-- A word without the mask stands in a masked list where it stood, if nothing of it is masked. -/
theorem prefix_maskAt (hstar : star ∉ w) :
    w <+: (maskAt star S l).drop i ↔ w <+: l.drop i ∧ ∀ k < w.length, i + k ∉ S := by
  rw [prefix_drop_iff, prefix_drop_iff]
  constructor
  · intro h
    have hout : ∀ k < w.length, i + k ∉ S := by
      intro k hk hmem
      have hget := h k hk
      rw [getElem?_maskAt] at hget
      obtain ⟨c, -, hc⟩ := Option.map_eq_some_iff.mp hget
      rw [if_pos hmem] at hc
      exact hstar (hc ▸ List.getElem_mem hk)
    refine ⟨fun k hk => ?_, hout⟩
    have hget := h k hk
    rw [getElem?_maskAt] at hget
    simpa [hout k hk] using hget
  · intro ⟨h, hout⟩ k hk
    rw [getElem?_maskAt, h k hk, Option.map_some, if_neg (hout k hk)]

end MaskAt

/-! ## 2. What the loop masks -/

/-- The occurrences with `sel` are apart, and any other one overlaps one of them that begins
before it. -/
structure Selects (w l : List α) (sel : ℕ → Prop) : Prop where
  occurs : ∀ i, sel i → w <+: l.drop i
  apart : ∀ i j, sel i → sel j → i < j → i + w.length ≤ j
  first : ∀ i, w <+: l.drop i → ¬ sel i → ∃ j, sel j ∧ j < i ∧ i < j + w.length

/-- The positions of the occurrences of `w` that begin at those of `r`. -/
def covered (w : List α) (r : Finset ℕ) : Finset ℕ :=
  r.biUnion fun i => Finset.Ico i (i + w.length)

section Loop

variable {star : α} {w text key : List α} {sel : ℕ → Prop} {S r : Finset ℕ} {i n p : ℕ}

theorem mem_covered : p ∈ covered w r ↔ ∃ i ∈ r, i ≤ p ∧ p < i + w.length := by
  simp only [covered, Finset.mem_biUnion, Finset.mem_Ico]

/-- A selected occurrence that is not yet masked can still be found. -/
theorem Selects.remains (h : Selects w key sel) (hstar : star ∉ w)
    (hS : ∀ i, w <+: key.drop i → ∀ k < w.length, i + k ∉ S) (hr : ∀ i ∈ r, sel i)
    (hi : sel i) (hnot : i ∉ r) : w <+: (maskAt star (S ∪ covered w r) key).drop i := by
  refine (prefix_maskAt hstar).mpr ⟨h.occurs i hi, fun k hk hmem => ?_⟩
  rcases Finset.mem_union.mp hmem with hmem | hmem
  · exact hS i (h.occurs i hi) k hk hmem
  · obtain ⟨j, hj, hle, hlt⟩ := mem_covered.mp hmem
    rcases Nat.lt_trichotomy i j with hij | rfl | hji
    · have hapart := h.apart i j hi (hr j hj) hij
      omega
    · exact hnot hj
    · have hapart := h.apart j i (hr j hj) hi hji
      omega

variable [DecidableEq α]

/-- What is found is selected. -/
theorem Selects.found (h : Selects w key sel) (hstar : star ∉ w)
    (hS : ∀ i, w <+: key.drop i → ∀ k < w.length, i + k ∉ S) (hr : ∀ i ∈ r, sel i)
    (hi : find w (maskAt star (S ∪ covered w r) key) = some i) : sel i := by
  obtain ⟨hw, hfirst⟩ := find_first hi
  obtain ⟨hocc, hout⟩ := (prefix_maskAt hstar).mp hw
  by_contra hno
  obtain ⟨j, hj, hji, hlt⟩ := h.first i hocc hno
  by_cases hmem : j ∈ r
  · -- then the occurrence has lost its first element
    have hpos : 0 < w.length := by omega
    refine hout 0 hpos (Finset.mem_union_right _ (mem_covered.mpr ⟨j, hmem, ?_, ?_⟩)) <;> omega
  · exact hfirst j hji (h.remains hstar hS hr hj hmem)

/-- **The loop masks the selected occurrences.** -/
theorem maskLoop_selects (h : Selects w key sel) (hstar : star ∉ w) (hne : w ≠ [])
    (hS : ∀ i, w <+: key.drop i → ∀ k < w.length, i + k ∉ S) (hlen : text.length = key.length)
    {res : List α × List α} (hr : ∀ i ∈ r, sel i)
    (hrun : maskLoop star w n (maskAt star (S ∪ covered w r) text)
      (maskAt star (S ∪ covered w r) key) = some res) :
    ∃ r', (∀ i, i ∈ r' ↔ sel i) ∧
      res = (maskAt star (S ∪ covered w r') text, maskAt star (S ∪ covered w r') key) := by
  induction n generalizing r with
  | zero => cases hrun
  | succ n ih =>
    unfold maskLoop at hrun
    cases hfind : find w (maskAt star (S ∪ covered w r) key) with
    | none =>
      rw [hfind] at hrun
      cases hrun
      refine ⟨r, fun i => ⟨hr i, fun hi => ?_⟩, rfl⟩
      by_contra hmem
      exact (find_eq_none_iff hne).mp hfind i (h.remains hstar hS hr hi hmem)
    | some pos =>
      rw [hfind] at hrun
      dsimp only at hrun
      have hsel := h.found hstar hS hr hfind
      have hle : pos + w.length ≤ key.length := by
        have hprefix := (find_first hfind).1.length_le
        rw [List.length_drop, maskAt_length] at hprefix
        have hpos := List.length_pos_of_ne_nil hne
        omega
      have hcovered : S ∪ covered w r ∪ Finset.Ico pos (pos + w.length) =
          S ∪ covered w (insert pos r) := by
        rw [covered, covered, Finset.biUnion_insert, Finset.union_assoc,
          Finset.union_comm (r.biUnion _)]
      rw [overwrite_maskAt hle, overwrite_maskAt (hlen ▸ hle), hcovered] at hrun
      refine ih (fun i hi => ?_) hrun
      rcases Finset.mem_insert.mp hi with rfl | hi
      · exact hsel
      · exact hr i hi

end Loop

/-! ## 3. Words that do not overlap -/

/-- An occurrence of `w'` may begin `d` positions behind the start of one of `w`. -/
def Overlaps (w w' : List α) (d : ℕ) : Prop := w.drop d <+: w' ∨ w' <+: w.drop d

instance [DecidableEq α] (w w' : List α) (d : ℕ) : Decidable (Overlaps w w' d) :=
  inferInstanceAs (Decidable (_ ∨ _))

section Overlaps

variable {w w' l : List α} {i j d : ℕ}

theorem overlaps_of_occurs (h : w <+: l.drop i) (h' : w' <+: l.drop (i + d)) :
    Overlaps w w' d := by
  have hdrop : w.drop d <+: l.drop (i + d) := by
    rw [← List.drop_drop]
    exact h.drop d
  exact List.prefix_or_prefix_of_prefix hdrop h'

/-- Where no overlap is possible, the second occurrence begins behind the first. -/
theorem apart_of_occurs (hno : ∀ d < w.length, i + d = j → ¬ Overlaps w w' d) (h : w <+: l.drop i)
    (h' : w' <+: l.drop j) (hij : i ≤ j) : i + w.length ≤ j := by
  by_contra hlt
  obtain ⟨d, rfl⟩ := Nat.exists_eq_add_of_le hij
  exact hno d (by omega) rfl (overlaps_of_occurs h h')

/-- A word that does not overlap itself is selected wherever it stands. -/
theorem selects_all (hno : ∀ d < w.length, 0 < d → ¬ Overlaps w w d) (l : List α) :
    Selects w l fun i => w <+: l.drop i where
  occurs i h := h
  apart i j hi hj hij :=
    apart_of_occurs (fun d hd hij' => hno d hd (by omega)) hi hj (Nat.le_of_lt hij)
  first i h hno := absurd h hno

end Overlaps

/-! ## 4. Runs of one element -/

/-- A maximal run of `k` elements `c` from position `a` on. -/
structure IsRun (c : α) (l : List α) (a k : ℕ) : Prop where
  inside : ∀ j < k, l[a + j]? = some c
  before : ∀ b, a = b + 1 → l[b]? ≠ some c
  after : l[a + k]? ≠ some c

/-- The pairs of the runs, counted from their starts. -/
def InPairs (c : α) (l : List α) (i : ℕ) : Prop :=
  ∃ a k m, IsRun c l a k ∧ i = a + 2 * m ∧ 2 * m + 2 ≤ k

section Runs

variable {c : α} {l : List α} {a a' k k' i p : ℕ}

theorem exists_run (h : l[i]? = some c) : ∃ a k, IsRun c l a k ∧ a ≤ i ∧ i < a + k := by
  classical
  have hstart : ∃ a, a ≤ i ∧ ∀ j, a ≤ j → j ≤ i → l[j]? = some c :=
    ⟨i, Nat.le_refl i, fun j hij hji => Nat.le_antisymm hji hij ▸ h⟩
  have hend : ∃ e, i < e ∧ l[e]? ≠ some c := by
    refine ⟨i + l.length + 1, by omega, ?_⟩
    rw [List.getElem?_eq_none (by omega)]
    exact Option.some_ne_none c ∘ Eq.symm
  obtain ⟨hai, ha⟩ := Nat.find_spec hstart
  obtain ⟨hie, he⟩ := Nat.find_spec hend
  refine ⟨Nat.find hstart, Nat.find hend - Nat.find hstart, ⟨fun j hj => ?_, fun b hb => ?_, ?_⟩,
    hai, by omega⟩
  · by_cases hji : Nat.find hstart + j ≤ i
    · exact ha _ (Nat.le_add_right _ j) hji
    · have hmin := Nat.find_min hend (m := Nat.find hstart + j) (by omega)
      by_contra hne
      exact hmin ⟨by omega, hne⟩
  · intro hget
    refine Nat.find_min hstart (m := b) (by omega) ⟨by omega, fun j hbj hji => ?_⟩
    rcases Nat.eq_or_lt_of_le hbj with rfl | hlt
    · exact hget
    · exact ha j (by omega) hji
  · have hsum : Nat.find hstart + (Nat.find hend - Nat.find hstart) = Nat.find hend := by omega
    rw [hsum]
    exact he

theorem isRun_congr {l' : List α} (h : ∀ i : ℕ, l[i]? = some c ↔ l'[i]? = some c) :
    IsRun c l a k ↔ IsRun c l' a k := by
  constructor
  · exact fun hr => ⟨fun j hj => (h _).mp (hr.inside j hj),
      fun b hb hget => hr.before b hb ((h b).mpr hget), fun hget => hr.after ((h _).mpr hget)⟩
  · exact fun hr => ⟨fun j hj => (h _).mpr (hr.inside j hj),
      fun b hb hget => hr.before b hb ((h b).mp hget), fun hget => hr.after ((h _).mp hget)⟩

/-- A position lies in one run only. -/
theorem run_unique (h : IsRun c l a k) (h' : IsRun c l a' k') (hp : a ≤ p ∧ p < a + k)
    (hp' : a' ≤ p ∧ p < a' + k') : a = a' ∧ k = k' := by
  have hin : ∀ q, a ≤ q → q < a + k → l[q]? = some c := fun q hq hlt => by
    have hget := h.inside (q - a) (by omega)
    rwa [Nat.add_sub_cancel' hq] at hget
  have hin' : ∀ q, a' ≤ q → q < a' + k' → l[q]? = some c := fun q hq hlt => by
    have hget := h'.inside (q - a') (by omega)
    rwa [Nat.add_sub_cancel' hq] at hget
  have haa : a = a' := by
    rcases Nat.lt_trichotomy a a' with hlt | heq | hgt
    · exact absurd (hin (a' - 1) (by omega) (by omega)) (h'.before (a' - 1) (by omega))
    · exact heq
    · exact absurd (hin' (a - 1) (by omega) (by omega)) (h.before (a - 1) (by omega))
  subst haa
  refine ⟨rfl, ?_⟩
  rcases Nat.lt_trichotomy k k' with hlt | heq | hgt
  · exact absurd (hin' (a + k) (by omega) (by omega)) h.after
  · exact heq
  · exact absurd (hin (a + k') (by omega) (by omega)) h'.after

theorem prefix_pair : [c, c] <+: l.drop i ↔ l[i]? = some c ∧ l[i + 1]? = some c := by
  rw [prefix_drop_iff]
  constructor
  · exact fun h => ⟨h 0 (Nat.succ_pos 1), h 1 (Nat.lt_succ_self 1)⟩
  · intro ⟨h0, h1⟩ k hk
    match k, hk with
    | 0, _ => exact h0
    | 1, _ => exact h1

/-- **Doubled elements** are selected in pairs. -/
theorem selects_pairs (c : α) (l : List α) : Selects [c, c] l (InPairs c l) where
  occurs := by
    rintro _ ⟨a, k, m, hrun, rfl, hm⟩
    exact prefix_pair.mpr ⟨hrun.inside (2 * m) (by omega), hrun.inside (2 * m + 1) (by omega)⟩
  apart := by
    rintro _ _ ⟨a, k, m, hrun, rfl, hm⟩ ⟨a', k', m', hrun', rfl, hm'⟩ hij
    by_contra hlt
    have hlt' : a' + 2 * m' < a + 2 * m + 2 := Nat.lt_of_not_le hlt
    obtain ⟨rfl, rfl⟩ := run_unique hrun hrun' (p := a + 2 * m + 1) (by omega) (by omega)
    omega
  first := by
    intro i hpair hno
    obtain ⟨h0, h1⟩ := prefix_pair.mp hpair
    obtain ⟨a, k, hrun, hai, hik⟩ := exists_run h0
    have hlong : i + 1 < a + k := by
      by_contra hend
      have hlast : a + k = i + 1 := by omega
      exact hrun.after (hlast ▸ h1)
    obtain ⟨m, rfl | rfl⟩ : ∃ m, i = a + 2 * m ∨ i = a + 2 * m + 1 := ⟨(i - a) / 2, by omega⟩
    · exact absurd ⟨a, k, m, hrun, rfl, by omega⟩ hno
    · refine ⟨a + 2 * m, ⟨a, k, m, hrun, rfl, by omega⟩, by omega, ?_⟩
      show a + 2 * m + 1 < a + 2 * m + 2
      omega

/-- The pairs of a run are its positions up to an even number. -/
theorem inPairs_iff : (∃ i, InPairs c l i ∧ i ≤ p ∧ p < i + 2) ↔
    ∃ a k, IsRun c l a k ∧ a ≤ p ∧ p < a + 2 * (k / 2) := by
  constructor
  · rintro ⟨_, ⟨a, k, m, hrun, rfl, hm⟩, hle, hlt⟩
    exact ⟨a, k, hrun, by omega, by omega⟩
  · rintro ⟨a, k, hrun, hle, hlt⟩
    exact ⟨_, ⟨a, k, (p - a) / 2, hrun, rfl, by omega⟩, by omega, by omega⟩

end Runs

end InpLabs.Lib
