/-
  File:      InpLabs/Chat/Words.lean
  Subject:   What the parts of a line are made of: a user name has no white space, and a message no
             newline.

  * `Event.Plain`: an event names users that are words and messages of one line; `logOf_plain`:
    all events of a log do, so its owners, messages and pins do.
-/
import InpLabs.Chat.History
import InpLabs.Chat.FilterSpec

namespace InpLabs.Chat

open InpLabs.Lib

/-! ## 1. Words and messages -/

/-- No white space. -/
def IsWord (u : Bytes) : Prop := ∀ b ∈ u, isspace b = false

theorem isWord_nil : IsWord [] := nofun

section Words

variable {u line : Bytes} {tokens : List Bytes}

theorem IsWord.no_newline (h : IsWord u) : 10 ∉ u := fun hmem =>
  absurd (h 10 hmem) (by decide)

theorem IsWord.no_blank (h : IsWord u) : 32 ∉ u := fun hmem =>
  absurd (h 32 hmem) (by decide)

theorem isWord_of_mem_tokenize (h : u ∈ tokenize line) : IsWord u := fun _ hb =>
  sep_of_mem_words h hb

theorem joinTokens_no_newline (h : ∀ w ∈ tokens, IsWord w) : 10 ∉ joinTokens tokens := by
  intro hmem
  obtain ⟨w, hw, hb⟩ := List.mem_flatMap.mp (List.mem_of_mem_dropLast hmem)
  rcases List.mem_append.mp hb with hb | hb
  · exact (h w hw).no_newline hb
  · exact absurd hb (by decide)

/-- The filter puts in stars only. -/
theorem filtered_no_newline (h : ∀ w ∈ tokens, IsWord w) : 10 ∉ filtered tokens := by
  obtain ⟨T, hm, -⟩ := filter_masks (joinTokens tokens) (List.Perm.refl filterWords)
  rw [filtered, hm]
  intro hmem
  rcases mem_maskAt hmem with hstar | hmem
  · exact absurd hstar (by decide)
  · exact joinTokens_no_newline h hmem

end Words

/-! ## 2. The log -/

/-- The user is a word and the message one line. -/
def Event.Plain : Event → Prop
  | .register u _ => IsWord u
  | .login _ u => IsWord u
  | .enter _ _ u => IsWord u
  | .chat _ u m => IsWord u ∧ 10 ∉ m
  | .pin _ u m => IsWord u ∧ 10 ∉ m
  | _ => True

section Log

variable {log : Log} {fd : Fd} {n : Int} {u m y : Bytes} {tokens : List Bytes} {e : Event}

/-- A session starts with a login. -/
theorem login_of_session (h : sessionOf fd log = some u) : Event.login fd u ∈ log := by
  fun_induction sessionOf fd log with
  | case1 => cases h
  | case2 u' log =>
    cases h
    exact List.mem_cons_self
  | case3 fd' u' log hne ih => exact List.mem_cons_of_mem _ (ih h)
  | case4 log => cases h
  | case5 fd' log hne ih => exact List.mem_cons_of_mem _ (ih h)
  | case6 log => cases h
  | case7 fd' log hne ih => exact List.mem_cons_of_mem _ (ih h)
  | case8 e log hlogin hlogout hexit ih => exact List.mem_cons_of_mem _ (ih h)

/-- Whoever a connection is logged in as, or no one. -/
theorem session_isWord (hlog : ∀ e ∈ log, e.Plain) : IsWord ((sessionOf fd log).getD []) := by
  cases h : sessionOf fd log with
  | none => exact isWord_nil
  | some u => exact hlog _ (login_of_session h)

theorem lobbyEvent_plain (hlog : ∀ e ∈ log, e.Plain) (htokens : ∀ w ∈ tokens, IsWord w)
    (h : lobbyEvent log fd y tokens = some e) : e.Plain := by
  unfold lobbyEvent at h
  split at h
  · split_ifs at h <;> cases h <;> trivial
  · split at h
    · split_ifs at h
      · cases h
        exact session_isWord hlog
      · cases h
        trivial
    · cases h
  · split_ifs at h
    · cases h
      exact htokens _ (by simp)
    · cases h
      exact htokens _ (by simp)
  · cases h

theorem roomEvent_plain (hlog : ∀ e ∈ log, e.Plain) (htokens : ∀ w ∈ tokens, IsWord w)
    (h : roomEvent log fd n y tokens = some e) : e.Plain := by
  unfold roomEvent at h
  dsimp only at h
  split_ifs at h
  · cases h
    trivial
  · cases h
    trivial
  · cases h
    exact ⟨session_isWord hlog,
      filtered_no_newline fun w hw => htokens w (List.mem_of_mem_tail hw)⟩
  · cases h
    exact ⟨session_isWord hlog, filtered_no_newline htokens⟩

/-- **All events of a log are plain.** -/
theorem logOf_plain (cs : List Call) : ∀ e ∈ logOf cs, e.Plain := by
  induction cs with
  | nil => exact nofun
  | cons c cs ih =>
    intro e he
    rcases List.mem_append.mp he with he | he
    · have htokens : ∀ w ∈ tokenize c.line, IsWord w := fun w => isWord_of_mem_tokenize
      have hevent := Option.mem_toList.mp he
      unfold eventOf at hevent
      split at hevent
      · exact lobbyEvent_plain ih htokens hevent
      · exact roomEvent_plain ih htokens hevent
    · exact ih e he

theorem mem_era (h : e ∈ era n log) : e ∈ log := (List.takeWhile_sublist _).subset h

theorem ownerOf_isWord (hlog : ∀ e ∈ log, e.Plain) (h : ownerOf n log = some u) : IsWord u := by
  obtain ⟨e, he, henter⟩ := List.exists_of_findSome?_eq_some h
  have hplain := hlog e (mem_era (List.mem_reverse.mp he))
  cases e with
  | enter fd m v =>
    obtain ⟨-, rfl⟩ : m = n ∧ v = u := by simpa [enteredBy] using henter
    exact hplain
  | _ => cases henter

theorem chatsOf_plain (hlog : ∀ e ∈ log, e.Plain) {x : ChatRecord} (h : x ∈ chatsOf n log) :
    IsWord x.username ∧ 10 ∉ x.message := by
  obtain ⟨e, he, hrecord⟩ := List.mem_filterMap.mp h
  have hplain := hlog e (mem_era (List.mem_reverse.mp he))
  cases e with
  | chat m v y =>
    obtain ⟨-, rfl⟩ : m = n ∧ ⟨v, y⟩ = x := by simpa [recordIn] using hrecord
    exact hplain
  | _ => cases hrecord

theorem pinOf_plain (hlog : ∀ e ∈ log, e.Plain) (h : pinOf n log = some (u, m)) :
    IsWord u ∧ 10 ∉ m := by
  obtain ⟨e, he, hpin⟩ := List.exists_of_findSome?_eq_some (Option.join_eq_some_iff.mp h)
  have hplain := hlog e (mem_era he)
  cases e with
  | pin k v y =>
    obtain ⟨-, rfl, rfl⟩ : k = n ∧ v = u ∧ y = m := by simpa [pinIn] using hpin
    exact hplain
  | unpin k =>
    simp [pinIn] at hpin
  | _ => cases hpin

end Log

end InpLabs.Chat
