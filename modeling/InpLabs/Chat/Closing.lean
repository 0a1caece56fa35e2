/-
  File:      InpLabs/Chat/Closing.lean
  Subject:   **Closing a room**: who may close it, what goes with it, and that nothing else removes
             a room.

  The loop of `closeChatRoom` erases the descriptors the room lists, wherever they are now. That
  these are the connections in the room, each once, is the membership invariant. The owner is a
  name: it may be used from a connection that did not create the room, and the room keeps it after
  the session that created it has ended.

  * `Closes`: the close of a room, for every connection and every room;
  * `Step.removes_room`: a call that removes a room is its owner's `close-chat-room`;
  * `closing_owned`: both, after every run, with the creator read off the log.
-/
import InpLabs.Chat.Authentication

namespace InpLabs.Chat

open InpLabs.Lib
open ServerM (run)

/-! ## 1. A successful close -/

/-- Room `n` is closed by `c`, which named it `arg`: what is left of the server `s`, and what
    everybody is sent. -/
structure Closes (s : Server) (c : Fd) (arg : Bytes) (n : Int) (t : Server) (es : List Effect) :
    Prop where
  /-- The room is gone, and no other room has changed. -/
  rooms : ∀ m : Int, t.chatRooms[m]? = if m = n then none else s.chatRooms[m]?
  /-- Who was in the room is in the lobby now; everybody else is where they were. -/
  members : ∀ d : Fd, t.clientInChatRoom[d]? =
    if s.clientInChatRoom[d]? = some n then none else s.clientInChatRoom[d]?
  /-- The notice goes once to each member, and the same text is the answer of `c`. -/
  sent : ∀ d : Fd, sentTo d es =
    if s.clientInChatRoom[d]? = some n ∨ d = c then [roomWasClosed arg ++ ascii "% "] else []
  /-- Nothing is done but these sends. -/
  sends : ∀ e ∈ es, ∃ d, e = .send d (roomWasClosed arg ++ ascii "% ")
  /-- Sessions, names in use, accounts and their statuses stay. -/
  logins : t.clients = s.clients ∧ t.loggedInUsers = s.loggedInUsers
  accounts : t.heap = s.heap ∧ t.registerdUser = s.registerdUser
  /-- The process watches the same descriptors. -/
  sockets : t.masterSet = s.masterSet

section Close

variable {s t : Server} {c fd : Fd} {arg : Bytes} {n : Int} {r : ChatRoom} {p : Ptr}

/-- The members of a room, as the map has them and as its list has them. -/
theorem in_room_iff (hs : s.Inv) (hr : s.chatRooms[n]? = some r) (d : Fd) :
    s.clientInChatRoom[d]? = some n ↔ d ∈ r.clients :=
  ⟨fun hin => hs.listed hin hr, fun hd => (hs.rooms.member d n).mpr ⟨r, hr, hd⟩⟩

/-- The step of a close is a close in this sense. -/
theorem closes_step (hs : s.Inv) (hc : c ∉ s.clientInChatRoom) (hr : s.chatRooms[n]? = some r) :
    Closes s c arg n (s.closeRoom n r)
      (toOthers r.clients c (roomWasClosed arg ++ ascii "% ") ++
        [.send c (roomWasClosed arg ++ ascii "% ")]) where
  rooms m := by
    show (s.chatRooms.erase n)[m]? = _
    simp only [Map.get?_erase, eq_comm]
  members d := by
    show (Map.eraseAll s.clientInChatRoom r.clients)[d]? = _
    simp only [Map.get?_eraseAll, in_room_iff hs hr]
  sent d := by
    have hself : c ∉ r.clients := hs.not_listed hc hr
    rw [sentTo_append, sentTo_toOthers (hs.rooms.ok n r hr).nodup]
    by_cases hd : d = c
    · subst hd
      simp [hself, sentTo]
    · simp only [in_room_iff hs hr, hd, ne_eq, not_false_eq_true, and_true, or_false, sentTo,
        if_neg (Ne.symm hd), List.append_nil]
  sends e he := by
    rcases List.mem_append.mp he with he | he
    · obtain ⟨d, -, rfl⟩ := List.mem_map.mp he
      exact ⟨d, rfl⟩
    · exact ⟨c, List.mem_singleton.mp he⟩
  logins := ⟨rfl, rfl⟩
  accounts := ⟨rfl, rfl⟩
  sockets := rfl

/-- What a session's `close-chat-room` does with the number of an existing room. -/
theorem close_call (hs : s.Inv) (hc : c ∉ s.clientInChatRoom)
    (hp : s.clients[c]? = some (some p)) (hn : stoi arg = .ok n) (hr : s.chatRooms[n]? = some r)
    {line : Bytes} (hline : tokenize line = [ascii "close-chat-room", arg]) (list : List Fd) :
    (handleCommand c line list).run s =
      if r.owner = s.name p then
        .ok (list, s.closeRoom n r, toOthers r.clients c (roomWasClosed arg ++ ascii "% ") ++
          [.send c (roomWasClosed arg ++ ascii "% ")])
      else .ok (list, s, [.send c (ascii "Only the owner can close this chat room.\n% ")]) := by
  have hexit : token (tokenize line) 0 ≠ ascii "exit" := by
    rw [hline]
    exact (by decide : ascii "close-chat-room" ≠ ascii "exit")
  have hreply : lobbyReply (tokenize line) c =
      prompted (closeChatRoom [ascii "close-chat-room", arg] c) := by
    rw [hline]
    rfl
  have hne : tokenize line ≠ [] := hline ▸ List.cons_ne_nil _ _
  split
  · rename_i ho
    refine handleCommand_lobby hne hc (lobbyCommand_reply hexit ?_)
    rw [hreply]
    exact prompted_run (closeChatRoom_ok hs hp hn hr ho)
  · rename_i ho
    have hx := prompted_run (closeChatRoom_notOwner (c := ascii "close-chat-room") hs hp hn hr ho)
    rw [← hreply] at hx
    have hrun : (handleCommand c line list).run s = _ :=
      handleCommand_lobby hne hc (lobbyCommand_reply hexit hx)
    exact hrun

end Close

/-! ## 2. Nothing else removes a room -/

section Removal

variable {s t : Server} {fd : Fd} {tokens : List Bytes} {es : List Effect} {list list' : List Fd}
  {n m : Int} {r : ChatRoom}

theorem mem_insert_room (h : n ∈ s.chatRooms) : n ∈ s.chatRooms.insert m r :=
  Std.ExtTreeMap.mem_insert.mpr (.inr h)

theorem RoomStep.keeps_rooms {p : Ptr} {reply : Bytes} (h : RoomStep s fd m r p tokens reply es t)
    (hn : n ∈ s.chatRooms) : n ∈ t.chatRooms := by
  cases h with
  | answers => exact hn
  | pin => exact mem_insert_room hn
  | unpin => exact mem_insert_room hn
  | leave => exact mem_insert_room hn
  | chat => exact mem_insert_room hn

theorem LobbyStep.removes_room {reply : Bytes} (h : LobbyStep s fd tokens reply es t)
    (hn : n ∈ s.chatRooms) (hgone : n ∉ t.chatRooms) :
    ∃ arg r p, tokens = [ascii "close-chat-room", arg] ∧ stoi arg = .ok n ∧
      s.clients[fd]? = some (some p) ∧ s.chatRooms[n]? = some r ∧ r.owner = s.name p := by
  cases h with
  | @close arg m p r hp hm hr ho =>
    by_cases hnm : m = n
    · subst hnm
      exact ⟨arg, r, p, rfl, hm, hp, hr, ho⟩
    · obtain ⟨q, hq⟩ := Map.mem_iff.mp hn
      have hkept : (s.chatRooms.erase m)[n]? = some q := by
        rw [Map.get?_erase, if_neg hnm]
        exact hq
      exact absurd (Map.mem_of_get? hkept) hgone
  | create => exact absurd (mem_insert_room hn) hgone
  | enter => exact absurd (mem_insert_room hn) hgone
  | _ => exact absurd hn hgone

/-- **A call that removes a room is a `close-chat-room`** from the lobby, of a connection whose user
    is the owner. -/
theorem Step.removes_room (h : Step s fd list tokens es t list') (hn : n ∈ s.chatRooms)
    (hgone : n ∉ t.chatRooms) :
    fd ∉ s.clientInChatRoom ∧ ∃ arg r p, tokens = [ascii "close-chat-room", arg] ∧
      stoi arg = .ok n ∧ s.clients[fd]? = some (some p) ∧ s.chatRooms[n]? = some r ∧
      r.owner = s.name p := by
  cases h with
  | blank => exact absurd hn hgone
  | lobby hl hne h => exact ⟨hl, h.removes_room hn hgone⟩
  | exit => exact absurd hn hgone
  | exitSession => exact absurd hn hgone
  | room hin hp hr hne h => exact absurd (h.keeps_rooms hn) hgone

end Removal

/-! ## 3. After every run -/

/-- What `close-chat-room arg`, with `arg` the number of an existing room, does for the user `u` on
    the connection `c` in the lobby. -/
def ClosedByCreator (log : Log) (s : Server) (c : Fd) (u : Bytes) : Prop :=
  ∀ (arg line : Bytes) (n : Int) (list : List Fd), stoi arg = .ok n → n ∈ s.chatRooms →
    tokenize line = [ascii "close-chat-room", arg] →
    ∃ t es, (handleCommand c line list).run s = .ok (list, t, es) ∧
      (ownerOf n log = some u → Closes s c arg n t es) ∧
      (ownerOf n log ≠ some u → t = s ∧
        es = [.send c (ascii "Only the owner can close this chat room.\n% ")])

/-- A call that removes a room is a close by its creator. -/
def RemovedByCreator (log : Log) (s : Server) : Prop :=
  ∀ (c : Call) (t : Server) (n : Int), Calls.step s c t → n ∈ s.chatRooms → n ∉ t.chatRooms →
    c.fd ∉ s.clientInChatRoom ∧ (∃ u, sessionOf c.fd log = some u ∧ ownerOf n log = some u) ∧
      ∃ arg, tokenize c.line = [ascii "close-chat-room", arg] ∧ stoi arg = .ok n

section Runs

variable {s : Server} {log : Log}

theorem owner_eq (ha : Agrees log s) {n : Int} {r : ChatRoom} (hr : s.chatRooms[n]? = some r) :
    ownerOf n log = some r.owner := by
  rw [ha.rooms.owner, hr]
  rfl

theorem closedByCreator (hs : s.Inv) (ha : Agrees log s) {c : Fd} {u : Bytes}
    (hc : c ∉ s.clientInChatRoom) (hu : sessionOf c log = some u) : ClosedByCreator log s c u := by
  intro arg line n list hn hroom hline
  obtain ⟨p, hp, rfl⟩ := (session_some_iff ha).mp hu
  obtain ⟨r, hr⟩ := Map.mem_iff.mp hroom
  have hcall := close_call hs hc hp hn hr hline list
  rw [owner_eq ha hr]
  by_cases ho : r.owner = s.name p
  · rw [if_pos ho] at hcall
    exact ⟨_, _, hcall, fun _ => closes_step hs hc hr, fun hno => absurd (congrArg some ho) hno⟩
  · rw [if_neg ho] at hcall
    exact ⟨_, _, hcall, fun h => absurd (Option.some.inj h) ho, fun _ => ⟨rfl, rfl⟩⟩

theorem removedByCreator (hs : s.Inv) (ha : Agrees log s) : RemovedByCreator log s := by
  intro c t n hstep hn hgone
  obtain ⟨hc, arg, r, p, hline, harg, hp, hr, ho⟩ :=
    (handleCommand_step hs hstep).removes_room hn hgone
  refine ⟨hc, ⟨s.name p, (session_some_iff ha).mpr ⟨p, hp, rfl⟩, ?_⟩, arg, hline, harg⟩
  rw [owner_eq ha hr, ho]

end Runs

/-- **A room is closed by its creator and by nobody else.** After every run, for every connection in
    the lobby and its user: naming an existing room closes it exactly when the user created its
    current incarnation, and otherwise changes nothing; and no other call removes a room. -/
theorem closing_owned {cs : List Call} {s : Server} (h : Calls.Run cs s) :
    (∀ (c : Fd) (u : Bytes), c ∉ s.clientInChatRoom → sessionOf c (logOf cs) = some u →
      ClosedByCreator (logOf cs) s c u) ∧ RemovedByCreator (logOf cs) s := by
  have hs := calls_inv ⟨cs, h⟩
  have ha := run_agrees h
  exact ⟨fun c u hc hu => closedByCreator hs ha hc hu, removedByCreator hs ha⟩

/-- A room whose creator logged out and came back on another connection, with a guest in it. -/
def ownerReturned : List (Fd × Bytes) :=
  [(4, ascii "register a 1"), (5, ascii "register b 2"), (4, ascii "login a 1"),
    (5, ascii "login b 2"), (4, ascii "enter-chat-room 7"), (5, ascii "enter-chat-room 7"),
    (4, ascii "/exit-chat-room"), (4, ascii "logout"), (6, ascii "login a 1")]

theorem closing_owned_ownerReturned :
    ∃ t es, (handleCommand 6 (ascii "close-chat-room 7") []).run (serverAfter ownerReturned) =
        .ok ([], t, es) ∧
      Closes (serverAfter ownerReturned) 6 (ascii "7") 7 t es ∧
      sentTo 5 es = [ascii "Chat room 7 was closed.\n% "] := by
  obtain ⟨hclose, -⟩ := closing_owned (afterLines_run ownerReturned)
  obtain ⟨t, es, hrun, hown, -⟩ := hclose 6 (ascii "a") (by decide +kernel) (by decide +kernel)
    (ascii "7") (ascii "close-chat-room 7") 7 [] (by decide) (by decide +kernel) (by decide)
  have hcloses := hown (by decide +kernel)
  refine ⟨t, es, hrun, hcloses, ?_⟩
  rw [hcloses.sent, if_pos (.inl (by decide +kernel))]
  decide

end InpLabs.Chat
