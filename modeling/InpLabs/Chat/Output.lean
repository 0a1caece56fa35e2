/-
  File:      InpLabs/Chat/Output.lean
  Subject:   What each connection is sent by the effects of a call.

  * `sentTo`: the texts, in order; `replyTo`: the last of them;
  * `sentTo_room`: the loop over the other members of a room and the answer to the caller make one
    copy for each member.
-/
import InpLabs.Chat.Handlers

namespace InpLabs.Chat

open InpLabs.Lib

/-- The texts a connection is sent, in order. -/
def sentTo (d : Fd) : List Effect → List Bytes
  | [] => []
  | .send fd bytes :: es => if fd = d then bytes :: sentTo d es else sentTo d es
  | _ :: es => sentTo d es

/-- The last text a connection is sent. -/
def replyTo (d : Fd) (es : List Effect) : Bytes := (sentTo d es).getLast?.getD []

theorem sentTo_append (d : Fd) (es fs : List Effect) :
    sentTo d (es ++ fs) = sentTo d es ++ sentTo d fs := by
  induction es with
  | nil => rfl
  | cons e es ih =>
    cases e with
    | send fd bytes =>
      simp only [List.cons_append, sentTo, ih]
      split <;> rfl
    | close fd => exact ih
    | defaultRoom n => exact ih

theorem replyTo_send (fd : Fd) (es : List Effect) (bytes : Bytes) :
    replyTo fd (es ++ [.send fd bytes]) = bytes := by
  rw [replyTo, sentTo_append]
  simp [sentTo]

theorem sentTo_map (d : Fd) (fds : List Fd) (bytes : Bytes) :
    sentTo d (fds.map (.send · bytes)) = List.replicate (fds.count d) bytes := by
  induction fds with
  | nil => rfl
  | cons fd fds ih =>
    rw [List.map_cons, sentTo, ih, List.count_cons]
    by_cases h : fd = d
    · simp [h, List.replicate_succ]
    · simp [h]

theorem sentTo_toOthers {members : List Fd} (hnd : members.Nodup) (fd d : Fd) (bytes : Bytes) :
    sentTo d (toOthers members fd bytes) = if d ∈ members ∧ d ≠ fd then [bytes] else [] := by
  have hf : (members.filter (· ≠ fd)).Nodup := hnd.filter _
  have hmem : d ∈ members.filter (· ≠ fd) ↔ d ∈ members ∧ d ≠ fd := by simp
  rw [toOthers, sentTo_map]
  by_cases h : d ∈ members ∧ d ≠ fd
  · rw [if_pos h, List.count_eq_one_of_mem hf (hmem.mpr h)]
    rfl
  · rw [if_neg h, List.count_eq_zero_of_not_mem fun h' => h (hmem.mp h')]
    rfl

/-- The loop over the others and the answer to the sender make one copy for each member. -/
theorem sentTo_room {members : List Fd} (hnd : members.Nodup) {fd : Fd} (hfd : fd ∈ members)
    (d : Fd) (bytes : Bytes) :
    sentTo d (toOthers members fd bytes ++ [.send fd bytes]) =
      if d ∈ members then [bytes] else [] := by
  rw [sentTo_append, sentTo_toOthers hnd]
  by_cases hd : d = fd
  · subst hd
    simp [sentTo, hfd]
  · have hne : fd ≠ d := fun e => hd e.symm
    simp [sentTo, hd, hne]

end InpLabs.Chat
