/-
  File:      InpLabs/Chat/Filter.lean
  Subject:   The content filter ends on every message.
-/
import InpLabs.Chat.Server

namespace InpLabs.Chat

open InpLabs.Lib

/-- Every filter word has a byte that is not the mask, so masking it makes progress. -/
theorem filterWords_progress :
    ∀ w ∈ filterWords, ∃ c ∈ w.map tolower, c ≠ (42 : UInt8) := by decide

/-- **The filter loop ends**: no message makes it search forever. -/
theorem filterMessage_isSome {words : List Bytes}
    (hw : ∀ w ∈ words, ∃ c ∈ w.map tolower, c ≠ (42 : UInt8)) (message : Bytes) :
    ∃ m, filterMessage words message = some m := by
  have hfold : ∀ (ws : List Bytes) (acc : Bytes × Bytes),
      (∀ w ∈ ws, ∃ c ∈ w.map tolower, c ≠ (42 : UInt8)) →
      ∃ r, ws.foldlM (fun (m : Bytes × Bytes) word =>
        maskLoop 42 (word.map tolower) (m.2.length + 1) m.1 m.2) acc = some r := by
    intro ws
    induction ws with
    | nil => exact fun acc _ => ⟨acc, rfl⟩
    | cons w ws ih =>
      intro acc h
      have hlt : unmasked 42 acc.2 < acc.2.length + 1 :=
        Nat.lt_succ_of_le (unmasked_le_length acc.2)
      obtain ⟨r, hr⟩ := maskLoop_isSome (h w List.mem_cons_self) acc.1 hlt
      obtain ⟨r', hr'⟩ := ih r fun w' hw' => h w' (List.mem_cons_of_mem _ hw')
      exact ⟨r', by rw [List.foldlM_cons, hr]; exact hr'⟩
  obtain ⟨r, hr⟩ := hfold words (message, message.map tolower) hw
  exact ⟨r.1, by simp [filterMessage, hr]⟩

theorem filter_isSome (message : Bytes) : ∃ m, filterMessage filterWords message = some m :=
  filterMessage_isSome filterWords_progress message

end InpLabs.Chat
