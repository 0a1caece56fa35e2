/-
  File:      InpLabs/Chat/Delivery.lean
  Subject:   **Exactly-once delivery**: what every connection receives when a member of a room
             writes a line or pins one.

  The sender's copy is the answer of the handler, the others' come from the loop over the member
  list. That the two together are one copy for each member rests on the invariant: the list has no
  duplicates and agrees with `client_in_chat_room`.

  * `Delivers`: a call sends its text once to each member of the room and nothing else, and leaves
    the given server;
  * `chat_delivery`: so for chat lines and for pins, on every reachable server.
-/
import InpLabs.Chat.Output
import InpLabs.Chat.Steps

namespace InpLabs.Chat

open InpLabs.Lib
open ServerM (run)

/-! ## 1. Single spaces -/

/-- Appending a space to each token and dropping the last is joining them with single spaces. -/
theorem joinTokens_eq (tokens : List Bytes) :
    joinTokens tokens = List.intercalate (ascii " ") tokens := by
  induction tokens with
  | nil => rfl
  | cons a tokens ih =>
    cases tokens with
    | nil => simp [joinTokens, List.intercalate, ascii]
    | cons b l =>
      have hne : (b :: l).flatMap (· ++ ascii " ") ≠ [] := by simp [ascii]
      rw [List.intercalate_cons_cons, ← ih, joinTokens, List.flatMap_cons,
        List.dropLast_append_of_ne_nil hne, joinTokens]

/-! ## 2. Delivery -/

/-- A line of `c` sends `bytes` once to each member of room `n` and nothing else, and leaves the
    server `t`. -/
def Delivers (s : Server) (c : Fd) (line : Bytes) (n : Int) (bytes : Bytes) (t : Server) : Prop :=
  ∀ list : List Fd, ∃ es, (handleCommand c line list).run s = .ok (list, t, es) ∧
    (∀ e ∈ es, ∃ d, e = .send d bytes) ∧
    ∀ d : Fd, sentTo d es = if s.clientInChatRoom[d]? = some n then [bytes] else []

section Delivery

variable {s : Server} {c : Fd} {line : Bytes} {n : Int} {r : ChatRoom} {p : Ptr}

/-- A room command that answers what it sends to the other members delivers it. -/
theorem delivers_of_roomStep (hs : s.Inv) (hin : s.clientInChatRoom[c]? = some n)
    (hr : s.chatRooms[n]? = some r) {bytes : Bytes} {t : Server}
    (h : ∀ list, (handleCommand c line list).run s =
      .ok (list, t, toOthers r.clients c bytes ++ [.send c bytes])) :
    Delivers s c line n bytes t := by
  have hnd := (hs.rooms.ok n r hr).nodup
  have hmem : ∀ d : Fd, s.clientInChatRoom[d]? = some n ↔ d ∈ r.clients := fun d =>
    ⟨fun hin => hs.listed hin hr, fun hd => (hs.rooms.member d n).mpr ⟨r, hr, hd⟩⟩
  intro list
  refine ⟨_, h list, fun e he => ?_, fun d => ?_⟩
  · rcases List.mem_append.mp he with he | he
    · obtain ⟨d, _, rfl⟩ := List.mem_map.mp he
      exact ⟨d, rfl⟩
    · exact ⟨c, List.mem_singleton.mp he⟩
  · rw [sentTo_room hnd ((hmem c).mp hin)]
    simp only [hmem]

theorem roomCommand_chat {w : Bytes} {ws : List Bytes} (hw : w.head? ≠ some 47) :
    roomCommand (w :: ws) c = sendMessage (w :: ws) c := by
  have hne : ∀ x : Bytes, x.head? = some 47 → w ≠ x := fun x hx e => hw (e ▸ hx)
  have h1 := hne (ascii "/pin") rfl
  have h2 := hne (ascii "/delete-pin") rfl
  have h3 := hne (ascii "/exit-chat-room") rfl
  have h4 := hne (ascii "/list-user") rfl
  simp only [roomCommand, token, List.getD_cons_zero, if_neg h1, if_neg h2, if_neg h3, if_neg h4,
    if_neg hw]

theorem roomCommand_pin {ws : List Bytes} :
    roomCommand (ascii "/pin" :: ws) c = setPinMessage (ascii "/pin" :: ws) c := by
  simp only [roomCommand, token, List.getD_cons_zero, if_true]

/-- **Chat delivery** on every reachable server. `c` is in room `n` and logged in to `p`; a line
    that does not begin with a slash goes, filtered, to each member once and to the end of the
    history, and `/pin` with its words goes to each member once and becomes the pinned message. -/
theorem chat_delivery (h : Calls.Reachable s) (hin : s.clientInChatRoom[c]? = some n)
    (hp : s.clients[c]? = some (some p)) :
    ∃ r, s.chatRooms[n]? = some r ∧
      (∀ (line w : Bytes) (ws : List Bytes), tokenize line = w :: ws → w.head? ≠ some 47 →
        ∃ m, filterMessage r.filterList (List.intercalate (ascii " ") (w :: ws)) = some m ∧
          Delivers s c line n (ascii "[" ++ s.name p ++ ascii "]: " ++ m ++ ascii "\n")
            (s.putRoom n { r with history := r.history ++ [⟨s.name p, m⟩] })) ∧
      (∀ (line : Bytes) (ws : List Bytes), tokenize line = ascii "/pin" :: ws → ws ≠ [] →
        ∃ m, filterMessage r.filterList (List.intercalate (ascii " ") ws) = some m ∧
          Delivers s c line n
            (ascii "Pin -> " ++ (ascii "[" ++ s.name p ++ ascii "]: " ++ m ++ ascii "\n"))
            (s.putRoom n { r with pinnedMessage := (s.name p, m) })) := by
  have hs := calls_inv h
  obtain ⟨_, r, _, hr, _⟩ := hs.member_data hin
  have hfilter := (hs.rooms.ok n r hr).filter
  refine ⟨r, hr, fun line w ws hline hw => ?_, fun line ws hline hws => ?_⟩
  · obtain ⟨m, hm⟩ := filter_isSome (joinTokens (w :: ws))
    rw [← hfilter] at hm
    refine ⟨m, joinTokens_eq (w :: ws) ▸ hm, delivers_of_roomStep hs hin hr fun list => ?_⟩
    have hrun := sendMessage_ok hin hp hr hm
    rw [← roomCommand_chat hw, ← hline] at hrun
    exact handleCommand_room (hline ▸ List.cons_ne_nil w ws) (Map.mem_of_get? hin) hrun
  · obtain ⟨m, hm⟩ := filter_isSome (joinTokens ws)
    rw [← hfilter] at hm
    refine ⟨m, joinTokens_eq ws ▸ hm, delivers_of_roomStep hs hin hr fun list => ?_⟩
    have hrun := setPinMessage_ok (c := ascii "/pin") hs hin hp hr hws hm
    rw [← roomCommand_pin, ← hline] at hrun
    exact handleCommand_room (hline ▸ List.cons_ne_nil _ ws) (Map.mem_of_get? hin) hrun

end Delivery

/-- Two members of room 7 and a user who is in no room. -/
def twoMembers : List (Fd × Bytes) :=
  [(4, ascii "register a 1"), (5, ascii "register b 2"), (6, ascii "register c 3"),
    (4, ascii "login a 1"), (5, ascii "login b 2"), (6, ascii "login c 3"),
    (4, ascii "enter-chat-room 7"), (5, ascii "enter-chat-room 7")]

/-- The room they are in. -/
def roomOfTwo : ChatRoom := ⟨ascii "a", [4, 5], [], ([], []), filterWords⟩

theorem chat_delivery_twoMembers :
    Delivers (serverAfter twoMembers) 4 (ascii "say  Hello") 7 (ascii "[a]: say *****\n")
      ((serverAfter twoMembers).putRoom 7
        { roomOfTwo with history := [⟨ascii "a", ascii "say *****"⟩] }) := by
  obtain ⟨r, hr, hchat, -⟩ :=
    chat_delivery (s := serverAfter twoMembers) (c := 4) (n := 7) (p := 0)
      (serverAfter_reachable twoMembers) (by decide) (by decide)
  have hroom : (serverAfter twoMembers).chatRooms[(7 : Int)]? = some roomOfTwo := by decide
  have hname : (serverAfter twoMembers).name 0 = ascii "a" := by decide
  have hmask : filterMessage roomOfTwo.filterList
      (List.intercalate (ascii " ") [ascii "say", ascii "Hello"]) = some (ascii "say *****") := by
    decide
  rw [hroom] at hr
  cases hr
  obtain ⟨m, hm, hd⟩ := hchat (ascii "say  Hello") (ascii "say") [ascii "Hello"] (by decide)
    (by decide)
  rw [hmask] at hm
  cases hm
  rw [hname] at hd
  exact hd

end InpLabs.Chat
