/-
  File:      InpLabs/Web/Plus.lean
  Subject:   What the plus sign does to a request (homework1: utils.c, utils_https.c).

  * `PlusSpaced`: one string has spaces where the other has plus signs; `decoded_plus`: so do the
    requests that the two programs decode from the same bytes;
  * `method_plus`, `path_plus`: the second words, where the first is `GET`: the one with the plus
    signs goes on behind the other, or begins with plus signs;
  * `names_differ`: two directories with such paths are told apart by their names.
-/
import InpLabs.Web.Isolation
import InpLabs.Web.Encoded
import Mathlib.Data.List.Forall2

namespace InpLabs.Web

open InpLabs.Lib Pathname

/-! ## 1. Spaces for plus signs -/

/-- The first string is the second one, with spaces for some of its plus signs. -/
def PlusSpaced : Bytes → Bytes → Prop := List.Forall₂ fun a b => a = b ∨ (a = 32 ∧ b = 43)

section Words

variable {l m w : Bytes} {ws : List Bytes}

theorem decoded_plus (url : Bytes) :
    PlusSpaced (Program.plain.urlDecode url) (Program.https.urlDecode url) := by
  have hone : ∀ c : UInt8, (if c = 43 then 32 else c) = id c ∨
      ((if c = 43 then 32 else c) = (32 : UInt8) ∧ id c = 43) := fun c => by
    by_cases h : c = 43
    · exact .inr ⟨if_pos h, h⟩
    · exact .inl (if_neg h)
  show PlusSpaced (decodeLoop _ url) (decodeLoop id url)
  induction url using decode_induction with
  | nil => exact .nil
  | escape a b url h ih =>
    rw [decodeLoop_escape h, decodeLoop_escape h]
    exact .cons (.inl rfl) ih
  | literal c url h ih =>
    rw [decodeLoop_literal h, decodeLoop_literal h]
    exact .cons (hone c) ih

theorem PlusSpaced.cString (h : PlusSpaced l m) : PlusSpaced (cString l) (cString m) := by
  unfold Lib.cString
  induction h with
  | nil => exact .nil
  | cons hab h ih =>
    rcases hab with rfl | ⟨rfl, rfl⟩
    · rename_i a _ _
      by_cases ha : a = 0
      · rw [List.takeWhile_cons_of_neg (by simpa using ha),
          List.takeWhile_cons_of_neg (by simpa using ha)]
        exact .nil
      · rw [List.takeWhile_cons_of_pos (by simpa using ha),
          List.takeWhile_cons_of_pos (by simpa using ha)]
        exact .cons (.inl rfl) ih
    · exact .cons (.inr ⟨rfl, rfl⟩) ih

/-- A word that does not begin with a plus sign stands at the same place in both. -/
theorem PlusSpaced.dropWhile (h : PlusSpaced l m) (hm : (m.dropWhile isspace).head? ≠ some 43) :
    PlusSpaced (l.dropWhile isspace) (m.dropWhile isspace) := by
  induction h with
  | nil => exact .nil
  | cons hab h ih =>
    rename_i a b l m
    by_cases hb : isspace b = true
    · have ha : a = b := hab.resolve_right fun hp => absurd (hp.2 ▸ hb) (by decide)
      rw [List.dropWhile_cons_of_pos hb] at hm ⊢
      rw [List.dropWhile_cons_of_pos (ha ▸ hb)]
      exact ih hm
    · rw [List.dropWhile_cons_of_neg hb] at hm ⊢
      have ha : a = b := hab.resolve_right fun hp => hm (congrArg some hp.2)
      rw [List.dropWhile_cons_of_neg (ha ▸ hb)]
      exact .cons hab h

/-- What follows the same first word. -/
theorem method_plus (h : PlusSpaced l m) {vs : List Bytes} (hl : tokenize l = w :: ws)
    (hm : tokenize m = w :: vs) (hw : w.head? ≠ some 43) :
    ∃ l' m', PlusSpaced l' m' ∧ tokenize l' = ws ∧ tokenize m' = vs := by
  obtain ⟨-, hlrest⟩ := words_eq_cons hl
  obtain ⟨hmfirst, hmrest⟩ := words_eq_cons hm
  have hhead : (m.dropWhile isspace).head? ≠ some 43 := by
    intro hplus
    obtain ⟨rest, hrest⟩ := List.head?_eq_some_iff.mp hplus
    rw [hrest, List.takeWhile_cons_of_pos (by decide)] at hmfirst
    exact hw (hmfirst ▸ rfl)
  exact ⟨_, _, List.forall₂_drop _ (h.dropWhile hhead), hlrest, hmrest⟩

/-- The words at the same place. -/
theorem takeWhile_plus (h : PlusSpaced l m) :
    m.takeWhile (!isspace ·) = l.takeWhile (!isspace ·) ∨
      ∃ z, m.takeWhile (!isspace ·) = l.takeWhile (!isspace ·) ++ 43 :: z := by
  induction h with
  | nil => exact .inl rfl
  | cons hab h ih =>
    rename_i a b l m
    rcases hab with rfl | ⟨rfl, rfl⟩
    · by_cases ha : isspace a = true
      · rw [List.takeWhile_cons_of_neg (by simpa using ha),
          List.takeWhile_cons_of_neg (by simpa using ha)]
        exact .inl rfl
      · rw [List.takeWhile_cons_of_pos (by simpa using ha),
          List.takeWhile_cons_of_pos (by simpa using ha)]
        rcases ih with ih | ⟨z, ih⟩
        · exact .inl (by rw [ih])
        · exact .inr ⟨z, by rw [ih, List.cons_append]⟩
    · exact .inr ⟨m.takeWhile (!isspace ·), rfl⟩

/-- **The first words**: behind some plus signs there is nothing, or the first word of the other
string, which may go on behind a plus sign. -/
theorem path_plus (h : PlusSpaced l m) {p q : Bytes} {vs : List Bytes} (hl : tokenize l = p :: ws)
    (hm : tokenize m = q :: vs) : ∃ k u, q = List.replicate k 43 ++ u ∧
      (u = [] ∨ u = p ∨ ∃ z, u = p ++ 43 :: z) := by
  induction h generalizing q vs with
  | nil => cases hl
  | cons hab h ih =>
    rename_i a b l m
    rcases hab with rfl | ⟨rfl, rfl⟩
    · by_cases ha : isspace a = true
      · unfold tokenize at hl hm
        rw [words_cons_of_pos ha] at hl hm
        exact ih hl hm
      · have hneg : isspace a = false := by simpa using ha
        unfold tokenize at hl hm
        rw [words_of_neg hneg] at hl hm
        refine ⟨0, q, rfl, .inr ?_⟩
        rw [← (List.cons.inj hl).1, ← (List.cons.inj hm).1]
        exact takeWhile_plus (.cons (.inl rfl) h)
    · have hspace : isspace 32 = true := by decide
      have hplus : isspace 43 = false := by decide
      unfold tokenize at hl hm
      rw [words_cons_of_pos hspace] at hl
      rw [words_of_neg hplus, List.takeWhile_cons_of_pos (by decide)] at hm
      have hq := (List.cons.inj hm).1
      cases hm' : m.takeWhile (!isspace ·) with
      | nil => exact ⟨1, [], by rw [← hq, hm']; rfl, .inl rfl⟩
      | cons c rest =>
        have hc : ∃ m₀, m = c :: m₀ ∧ isspace c = false := by
          cases m with
          | nil => cases hm'
          | cons c' m₀ =>
            by_cases hc' : isspace c' = true
            · rw [List.takeWhile_cons_of_neg (by simpa using hc')] at hm'
              cases hm'
            · rw [List.takeWhile_cons_of_pos (by simpa using hc')] at hm'
              obtain ⟨rfl, -⟩ := List.cons.inj hm'
              exact ⟨m₀, rfl, by simpa using hc'⟩
        obtain ⟨m₀, rfl, hc⟩ := hc
        obtain ⟨k, u, hk, hu⟩ := ih hl (words_of_neg hc m₀)
        refine ⟨k + 1, u, ?_, hu⟩
        rw [← hq, hk]
        rfl

end Words

/-! ## 2. Paths that lead elsewhere -/

/-- The file path of a word. -/
def filePath (word : Bytes) : Bytes := extractFilePath (word.take 255)

theorem filePath_initial (word : Bytes) : filePath word <+: word :=
  (List.takeWhile_prefix _).trans (List.take_prefix 255 word)

theorem filePath_length (word : Bytes) : (filePath word).length ≤ 255 :=
  (List.takeWhile_prefix _).length_le.trans (List.length_take_le 255 word)

section Names

variable {f g p q u : Bytes}

/-- What stands before the first slash is the same in a part of the string. -/
theorem takeWhile_slash_of_prefix (h : f <+: p) (hslash : slash ∈ f) :
    p.takeWhile (· != slash) = f.takeWhile (· != slash) := by
  obtain ⟨rest, rfl⟩ := h
  exact takeWhile_append_of_mem hslash (by decide) rest

/-- The first name of a file. -/
theorem names_html (f : Bytes) :
    ∃ rest, names (html ++ f) = (html ++ f.takeWhile (· != slash)) :: rest := by
  have hhead : (html ++ f).takeWhile (· != slash) = html ++ f.takeWhile (· != slash) :=
    List.takeWhile_append_of_pos (List.all_eq_true.mp (by decide))
  have hne : (html ++ f).takeWhile (· != slash) ≠ [] := by
    rw [hhead]
    exact List.cons_ne_nil _ _
  have hdot : (html ++ f).takeWhile (· != slash) ≠ dot := by
    rw [hhead]
    intro h
    have hfirst : some (104 : UInt8) = some 46 := congrArg List.head? h
    cases hfirst
  obtain ⟨rest, h⟩ := names_head hne hdot
  exact ⟨rest, by rw [h, hhead]⟩

/-- A path that goes on behind a slash with a plus sign has a name more. -/
theorem names_longer (hf : f.getLast? = some slash) (z : Bytes) :
    ∃ c cs, names (html ++ (f ++ 43 :: z)) = names (html ++ f) ++ c :: cs := by
  obtain ⟨g, rfl⟩ := List.getLast?_eq_some_iff.mp hf
  have hplus : (43 :: z).takeWhile (· != slash) = 43 :: z.takeWhile (· != slash) :=
    List.takeWhile_cons_of_pos (by decide)
  have hne : (43 :: z).takeWhile (· != slash) ≠ [] := by
    rw [hplus]
    exact List.cons_ne_nil _ _
  have hdot : (43 :: z).takeWhile (· != slash) ≠ dot := by
    rw [hplus]
    intro h
    exact absurd (List.cons.inj h).1 (by decide)
  obtain ⟨rest, hrest⟩ := names_head hne hdot
  have hlong : html ++ (g ++ [slash] ++ 43 :: z) = (html ++ g) ++ slash :: 43 :: z := by simp
  have hshort : html ++ (g ++ [slash]) = (html ++ g) ++ slash :: [] := by simp
  have hnil : names [] = [] := rfl
  rw [hlong, hshort, names_append, names_append, hnil, List.append_nil, hrest]
  exact ⟨_, _, rfl⟩

/-- A word that goes on behind a plus sign has the same file path, or one that goes on so. -/
theorem filePath_longer (z : Bytes) :
    filePath (p ++ 43 :: z) = filePath p ∨
      ∃ z', filePath (p ++ 43 :: z) = filePath p ++ 43 :: z' := by
  unfold filePath extractFilePath
  by_cases hlen : 255 ≤ p.length
  · exact .inl (by rw [List.take_append_of_le_length hlen])
  · obtain ⟨k, hk⟩ : ∃ k, 255 - p.length = k + 1 := ⟨254 - p.length, by omega⟩
    have hshort : p.take 255 = p := List.take_of_length_le (by omega)
    rw [List.take_append, hshort, hk, List.take_succ_cons, List.takeWhile_append]
    split
    · rename_i hall
      rw [(List.takeWhile_prefix _).eq_of_length hall, List.takeWhile_cons_of_pos (by decide)]
      exact .inr ⟨_, rfl⟩
    · exact .inl rfl

/-- **Directories told apart**: of two different paths of the words at the same place, the one with
the plus signs has names that do not lie on the way of the other and its index. -/
theorem names_differ {k : Nat} (hq : q = List.replicate k 43 ++ u)
    (hu : u = [] ∨ u = p ∨ ∃ z, u = p ++ 43 :: z) (hne : filePath p ≠ filePath q)
    (hp : (filePath p).getLast? = some slash) (hslash : (filePath q).getLast? = some slash) :
    ¬ names (html ++ filePath q) ++ [index] <+: names (html ++ filePath p) ++ [index] := by
  have hqs : slash ∈ filePath q := List.mem_of_getLast? hslash
  have hps : slash ∈ filePath p := List.mem_of_getLast? hp
  intro hprefix
  rcases hu with rfl | hu
  · -- plus signs alone are no directory
    rw [List.append_nil] at hq
    have hmem := (filePath_initial q).subset hqs
    rw [hq] at hmem
    exact absurd (List.eq_of_mem_replicate hmem) (by decide)
  · have hpu : p <+: u := by
      rcases hu with rfl | ⟨z, rfl⟩
      · exact List.prefix_rfl
      · exact List.prefix_append _ _
    cases k with
    | zero =>
      obtain rfl : q = u := hq
      rcases hu with rfl | ⟨z, rfl⟩
      · exact hne rfl
      · rcases filePath_longer (p := p) z with hsame | ⟨z', hlong⟩
        · exact hne hsame.symm
        · -- one name more than there is on the way
          obtain ⟨c, cs, hnames⟩ := names_longer hp z'
          rw [hlong, hnames] at hprefix
          have hlen := hprefix.length_le
          simp only [List.length_append, List.length_cons, List.length_nil] at hlen
          omega
    | succ k =>
      -- the first names differ in length
      have hfirst : (filePath q).takeWhile (· != slash) =
          List.replicate (k + 1) 43 ++ (filePath p).takeWhile (· != slash) := by
        rw [← takeWhile_slash_of_prefix (filePath_initial q) hqs, hq,
          List.takeWhile_append_of_pos fun c hc => by rw [List.eq_of_mem_replicate hc]; decide,
          takeWhile_slash_of_prefix ((filePath_initial p).trans hpu) hps]
      obtain ⟨rest, hnamesp⟩ := names_html (filePath p)
      obtain ⟨rest', hnamesq⟩ := names_html (filePath q)
      rw [hnamesp, hnamesq, hfirst, List.cons_append, List.cons_append,
        List.cons_prefix_cons] at hprefix
      have hlen := congrArg List.length hprefix.1
      simp only [List.length_append, List.length_replicate] at hlen
      omega

end Names

end InpLabs.Web
