/-
  File:      InpLabs/Chat/Replay.lean
  Subject:   **What a newcomer reads**: the reply to a successful `enter-chat-room` is the room's
             creator, the last ten chat messages and the pin, as the log has them.

  The room's fields hold them by the coupling of the log with the server (`run_agrees`), which
  every entry, exit, logout and status change keeps as it is.
-/
import InpLabs.Chat.History

namespace InpLabs.Chat

open InpLabs.Lib

/-- The reply to a newcomer, from the log: the header, the last ten messages, the pin. -/
def entryReply (n : Int) (owner : Bytes) (log : Log) : Bytes :=
  roomHeader n owner ++
    ((chatsOf n log).rtake 10).flatMap (fun r => chatLine r.username r.message) ++
    match pinOf n log with
    | some (u, m) => pinLine u m
    | none => []

section Replay

variable {s t : Server} {log : Log} {c : Call} {fd : Fd} {n : Int} {u : Bytes}

theorem roomEvent_ne_enter {y : Bytes} {tokens : List Bytes} {m : Int} :
    roomEvent log fd m y tokens ≠ some (.enter fd n u) := by
  unfold roomEvent
  split_ifs <;> nofun

theorem pinnedLine_eq (r : ChatRoom) :
    pinnedLine r = match r.pin with
      | some (u, m) => pinLine u m
      | none => [] := by
  unfold pinnedLine ChatRoom.pin
  by_cases h : r.pinnedMessage.1 = []
  · rw [if_neg (not_not.mpr h), if_pos h]
  · rw [if_pos h, if_neg h]

/-- The reply of a lobby step that enters a room. -/
theorem LobbyStep.entry (ha : Agrees log s) {tokens : List Bytes} {reply : Bytes}
    {es : List Effect} (h : LobbyStep s fd tokens reply es t)
    (he : lobbyEvent log fd reply tokens = some (.enter fd n u)) :
    ∃ o, ownerOf n (.enter fd n u :: log) = some o ∧
      reply = entryReply n o (.enter fd n u :: log) := by
  have hchats : chatsOf n (.enter fd n u :: log) = chatsOf n log := by
    rw [chatsOf_cons, if_neg nofun]
    exact List.append_nil _
  have hpin : pinOf n (.enter fd n u :: log) = pinOf n log := by
    rw [pinOf_cons, if_neg nofun]
    rfl
  have howner : ownerOf n (.enter fd n u :: log) = (ownerOf n log).or (some u) := by
    rw [ownerOf_cons, if_neg nofun, enteredBy, if_pos rfl]
  unfold entryReply
  rw [howner, hchats, hpin, ha.rooms.owner, ha.rooms.chats, ha.rooms.pin]
  cases h with
  | answers hx =>
    rw [hx.no_event] at he
    cases he
  | register hu hfree => cases he
  | login hfd hp hu hw hout =>
    rw [lobbyEvent_login] at he
    cases he
  | logout hp =>
    rw [List.append_assoc, List.append_assoc, lobbyEvent_logout] at he
    cases he
  | setStatus hp hst =>
    rw [lobbyEvent_two (fun h => absurd h.1 (by decide)) fun h => absurd h.1 (by decide)] at he
    cases he
  | listUser hfd => cases he
  | create hp hn h1 hnew =>
    rw [lobbyEvent_enter hn (roomHeader_welcome _ _), ha.session, user_of_get hp] at he
    cases he
    rw [Map.not_mem_iff.mp hnew]
    exact ⟨_, rfl, by simp⟩
  | enter hp hn hr =>
    rw [List.append_assoc,
      lobbyEvent_enter hn ((roomHeader_welcome _ _).trans (List.prefix_append _ _))] at he
    cases he
    rw [hr]
    exact ⟨_, rfl, by rw [pinnedLine_eq]; rfl⟩
  | close hp hn hr ho =>
    rw [lobbyEvent_close hn] at he
    cases he

end Replay

/-- **Entering a room replays its log.** After every run the rooms hold what the log says, and the
    reply to a successful `enter-chat-room` shows the room's creator, the last ten messages accepted
    since and the pin. -/
theorem replay_of_entry {cs : List Call} {s : Server} (h : Calls.Run cs s) :
    RoomsAgree (logOf cs) s.chatRooms ∧
    ∀ c t n u, Calls.step s c t → eventOf (logOf cs) c = some (.enter c.fd n u) →
      ∃ o, ownerOf n (.enter c.fd n u :: logOf cs) = some o ∧
        c.reply = entryReply n o (.enter c.fd n u :: logOf cs) := by
  have hs := calls_inv ⟨cs, h⟩
  have ha := run_agrees h
  refine ⟨ha.rooms, fun c t n u hcall he => ?_⟩
  have hstep := handleCommand_step hs hcall
  generalize ht : tokenize c.line = tokens at hstep
  generalize hes : c.effects = es at hstep
  generalize c.list = list, c.list' = list' at hstep
  cases hstep with
  | blank =>
    rw [eventOf_blank ht] at he
    cases he
  | lobby hl hne h =>
    rw [eventOf_lobby _ ha hl ht hes] at he
    rw [reply_eq hes]
    exact h.entry ha he
  | exit hl hfd =>
    rw [eventOf_lobby [.close c.fd] ha hl ht hes] at he
    cases he
  | exitSession hl hp =>
    rw [eventOf_lobby [.send c.fd _, .close c.fd] ha hl ht hes] at he
    cases he
  | room hin hp hr hne h =>
    rw [eventOf_room _ ha hin ht hes] at he
    exact absurd he roomEvent_ne_enter

/-- A room that was closed and created anew, with a message and a pin of each incarnation. -/
def reopened : List (Fd × Bytes) :=
  [(4, ascii "register a 1"), (5, ascii "register b 2"), (4, ascii "login a 1"),
    (5, ascii "login b 2"), (4, ascii "enter-chat-room 7"), (4, ascii "old"), (4, ascii "/pin old"),
    (4, ascii "/exit-chat-room"), (4, ascii "close-chat-room 7"), (5, ascii "enter-chat-room 7"),
    (5, ascii "new"), (5, ascii "/pin new")]

/-- What user `a` reads on entering it. -/
def reopenedReply : Bytes :=
  ascii "Welcome to the public chat room.\nRoom number: 7\nOwner: b\n[b]: new\nPin -> [b]: new\n"

/-- The call by which `a` enters it. -/
def reentry : Call where
  fd := 4
  line := ascii "enter-chat-room 7"
  list := []
  list' := []
  effects := [.send 5 (ascii "a had enter the chat room.\n"), .send 4 reopenedReply]

theorem replay_reopened :
    ∃ t, Calls.step (serverAfter reopened) reentry t ∧ reentry.reply = reopenedReply ∧
      reopenedReply = entryReply 7 (ascii "b")
        (.enter 4 7 (ascii "a") :: logOf (callsAfter reopened)) := by
  obtain ⟨t, ht⟩ : ∃ t, Calls.step (serverAfter reopened) reentry t := ⟨_, rfl⟩
  obtain ⟨o, ho, hreply⟩ := (replay_of_entry (afterLines_run reopened)).2 reentry t 7 (ascii "a") ht
    (by decide)
  have howner : ownerOf 7 (.enter 4 7 (ascii "a") :: logOf (callsAfter reopened)) =
      some (ascii "b") := by decide
  have heq : reentry.reply = reopenedReply := by decide
  have hob : o = ascii "b" := Option.some.inj (ho.symm.trans howner)
  exact ⟨t, ht, heq, heq.symm.trans (hob ▸ hreply)⟩

end InpLabs.Chat
