/-
  File:      InpLabs/Chat/Independent.lean
  Subject:   Commands in different rooms can be handled in either order.

  * `RoomStep.run`: a room command does what its step says, the converse of `roomCommand_ok`;
  * `Server.editRoom`: all a room command changes; `RoomStep.local`: what it changes and sends is
    read from the accounts, the sessions and its own room;
  * `editRoom_comm`, `sentTo_roomStep`: edits of different rooms commute, and a command reaches only
    members of its room;
  * `rooms_independent`: two lines of members of different rooms, handled in both orders.
-/
import InpLabs.Chat.Delivery

namespace InpLabs.Chat

open InpLabs.Lib
open ServerM (run)

/-! ## 1. Steps are calls -/

section Run

variable {s t : Server} {fd : Fd} {n : Int} {r : ChatRoom} {p : Ptr} {tokens : List Bytes}
  {reply : Bytes} {es : List Effect}

theorem roomCommand_unpin {ws : List Bytes} : roomCommand (ascii "/delete-pin" :: ws) fd =
    deletePinMessage (ascii "/delete-pin" :: ws) fd := rfl

theorem roomCommand_leave {ws : List Bytes} : roomCommand (ascii "/exit-chat-room" :: ws) fd =
    exitChatRoom (ascii "/exit-chat-room" :: ws) fd := rfl

theorem roomCommand_list {ws : List Bytes} : roomCommand (ascii "/list-user" :: ws) fd =
    listUserinChatRoom (ascii "/list-user" :: ws) fd := rfl

/-- A room command with more words than it takes. -/
theorem roomCommand_usage {c x w : Bytes} {ws : List Bytes}
    (hu : (c, x) ∈ [(ascii "/delete-pin", ascii "Usage: /delete-pin\n"),
      (ascii "/exit-chat-room", ascii "Usage: /exit-chat-room\n"),
      (ascii "/list-user", ascii "Usage: /list-user\n")]) :
    (roomCommand (c :: w :: ws) fd).run s = .ok (x, s, []) := by
  have hlen : decide ((c :: w :: ws).length = 1) = false := by simp
  simp only [List.mem_cons, Prod.mk.injEq, List.not_mem_nil, or_false] at hu
  rcases hu with ⟨rfl, rfl⟩ | ⟨rfl, rfl⟩ | ⟨rfl, rfl⟩
  · rw [roomCommand_unpin]
    unfold deletePinMessage
    rw [hlen, withSession_usage]
  · rw [roomCommand_leave]
    unfold exitChatRoom
    rw [hlen, withSession_usage]
  · rw [roomCommand_list]
    unfold listUserinChatRoom
    rw [hlen, withSession_usage]

theorem roomCommand_unknown {w : Bytes} {ws : List Bytes} (hw : w.head? = some 47)
    (hno : w ∉ [ascii "/pin", ascii "/delete-pin", ascii "/exit-chat-room", ascii "/list-user"]) :
    (roomCommand (w :: ws) fd).run s = .ok (ascii "Error: Unknown command\n", s, []) := by
  simp only [List.mem_cons, List.not_mem_nil, or_false, not_or] at hno
  obtain ⟨h1, h2, h3, h4⟩ := hno
  simp only [roomCommand, token, List.getD_cons_zero, if_neg h1, if_neg h2, if_neg h3, if_neg h4,
    if_pos hw]
  rfl

/-- **A room command does what its step says.** -/
theorem RoomStep.run (hs : s.Inv) (hin : s.clientInChatRoom[fd]? = some n)
    (hp : s.clients[fd]? = some (some p)) (hr : s.chatRooms[n]? = some r)
    (h : RoomStep s fd n r p tokens reply es t) :
    (roomCommand tokens fd).run s = .ok (reply, t, es) := by
  have hfilter := (hs.rooms.ok n r hr).filter
  cases h with
  | answers hx =>
    cases hx with
    | usagePin =>
      rw [roomCommand_pin]
      exact withSession_usage
    | usage hu => exact roomCommand_usage hu
    | noPin hpin =>
      rw [roomCommand_unpin]
      exact deletePinMessage_none hs hin hr hpin
    | users hne =>
      rw [roomCommand_list]
      exact listUserinChatRoom_ok hs hin hr
    | unknown hw hno => exact roomCommand_unknown hw hno
  | pin hws hm =>
    rw [roomCommand_pin]
    exact setPinMessage_ok hs hin hp hr hws (hfilter ▸ hm)
  | unpin hpin =>
    rw [roomCommand_unpin]
    exact deletePinMessage_ok hs hin hr hpin
  | leave =>
    rw [roomCommand_leave]
    exact exitChatRoom_ok hs hin hp hr
  | chat hw hm =>
    rw [roomCommand_chat hw]
    exact sendMessage_ok hin hp hr (hfilter ▸ hm)

end Run

/-! ## 2. What a room command reads and changes -/

/-- Room `n` holds `r` now, and `fd` may have left it. -/
def Server.editRoom (s : Server) (fd : Fd) (n : Int) (r : ChatRoom) (left : Bool) : Server :=
  { s with
    chatRooms := s.chatRooms.insert n r
    clientInChatRoom := if left then s.clientInChatRoom.erase fd else s.clientInChatRoom }

section Local

variable {s s' t : Server} {fd : Fd} {n : Int} {r : ChatRoom} {p : Ptr} {tokens : List Bytes}
  {reply : Bytes} {es : List Effect}

/-- Putting back what a room holds changes nothing. -/
theorem editRoom_same (hr : s.chatRooms[n]? = some r) : s.editRoom fd n r false = s := by
  have hrooms : s.chatRooms.insert n r = s.chatRooms := by
    refine Map.ext_get? fun k => ?_
    rw [Map.get?_insert]
    split
    · rename_i e
      rw [← e, hr]
    · rfl
  unfold Server.editRoom
  rw [hrooms]
  rfl

/-- **A room command is local**: on any server with the same accounts and sessions whose room `n`
    holds the same, it answers and sends the same and makes the same edit. -/
theorem RoomStep.local (hr : s.chatRooms[n]? = some r) (h : RoomStep s fd n r p tokens reply es t) :
    ∃ r' left, t = s.editRoom fd n r' left ∧
      ∀ s' : Server, s'.heap = s.heap → s'.clients = s.clients → s'.chatRooms[n]? = some r →
        RoomStep s' fd n r p tokens reply es (s'.editRoom fd n r' left) := by
  have hname : ∀ s' : Server, s'.heap = s.heap → s'.name p = s.name p := fun s' e => by
    rw [Server.name, e]
    rfl
  cases h with
  | answers hx =>
    refine ⟨r, false, (editRoom_same hr).symm, fun s' hheap hcl hr' => ?_⟩
    rw [editRoom_same hr']
    refine .answers ?_
    cases hx with
    | usagePin => exact .usagePin
    | usage hu => exact .usage hu
    | noPin hpin => exact .noPin hpin
    | users hne =>
      have husers := RoomAnswer.users (s := s') (n := n) hne
      rw [memberPtrs, hcl, hheap] at husers
      exact husers
    | unknown hw hno => exact .unknown hw hno
  | pin hws hm =>
    refine ⟨_, false, rfl, fun s' hheap hcl hr' => ?_⟩
    rw [← hname s' hheap]
    exact .pin hws hm
  | unpin hpin => exact ⟨_, false, rfl, fun s' hheap hcl hr' => .unpin hpin⟩
  | leave =>
    refine ⟨_, true, rfl, fun s' hheap hcl hr' => ?_⟩
    rw [← hname s' hheap]
    exact .leave
  | chat hw hm =>
    refine ⟨_, false, rfl, fun s' hheap hcl hr' => ?_⟩
    rw [← hname s' hheap]
    exact .chat hw hm

theorem sentTo_toOthers_of_not_mem {members : List Fd} {d : Fd} (h : d ∉ members) (bytes : Bytes) :
    sentTo d (toOthers members fd bytes) = [] := by
  have hd : d ∉ members.filter (· ≠ fd) := fun hmem => h (List.mem_filter.mp hmem).1
  rw [toOthers, sentTo_map, List.count_eq_zero_of_not_mem hd]
  rfl

/-- A room command sends nothing to those who are not in the room. -/
theorem sentTo_roomStep (h : RoomStep s fd n r p tokens reply es t) (hfd : fd ∈ r.clients) {d : Fd}
    (hd : d ∉ r.clients) : sentTo d (es ++ [.send fd reply]) = [] := by
  have hne : fd ≠ d := fun e => hd (e ▸ hfd)
  rw [sentTo_append]
  have hreply : sentTo d [.send fd reply] = [] := if_neg hne
  rw [hreply, List.append_nil]
  cases h with
  | answers hx => rfl
  | unpin hpin => rfl
  | leave => exact sentTo_toOthers_of_not_mem (fun hmem => hd (List.mem_of_mem_erase hmem)) _
  | pin hws hm => exact sentTo_toOthers_of_not_mem hd _
  | chat hw hm => exact sentTo_toOthers_of_not_mem hd _

/-- Edits of different rooms by their members commute. -/
theorem editRoom_comm {a b : Fd} {m : Int} {q : ChatRoom} {la lb : Bool} (hnm : n ≠ m) :
    (s.editRoom a n r la).editRoom b m q lb = (s.editRoom b m q lb).editRoom a n r la := by
  have hrooms : (s.chatRooms.insert n r).insert m q = (s.chatRooms.insert m q).insert n r := by
    refine Map.ext_get? fun k => ?_
    simp only [Map.get?_insert]
    split_ifs with h1 h2
    · exact absurd (h2.trans h1.symm) hnm
    · rfl
    · rfl
    · rfl
  have hin : (s.clientInChatRoom.erase a).erase b = (s.clientInChatRoom.erase b).erase a := by
    refine Map.ext_get? fun k => ?_
    simp only [Map.get?_erase]
    split_ifs <;> rfl
  unfold Server.editRoom
  rw [hrooms]
  cases la <;> cases lb <;> simp [hin]

end Local

/-! ## 3. Two lines -/

section Lines

variable {s : Server} {fd : Fd} {n : Int} {r : ChatRoom}

theorem editRoom_inv (hs : s.Inv) {line : Bytes} {list list' : List Fd} {es : List Effect}
    {r' : ChatRoom} {left : Bool} (h : (handleCommand fd line list).run s =
      .ok (list', s.editRoom fd n r' left, es)) : (s.editRoom fd n r' left).Inv :=
  (handleCommand_step hs h).inv hs

/-- A line of a member of room `n`: one edit and one output, on every server that has the same
    accounts, sessions and content of the room. -/
theorem roomLine_local (hs : s.Inv) (hin : s.clientInChatRoom[fd]? = some n)
    (hr : s.chatRooms[n]? = some r) (line : Bytes) : ∃ r' left es,
    (∀ d, d ∉ r.clients → sentTo d es = []) ∧
    ∀ s' : Server, s'.Inv → s'.heap = s.heap → s'.clients = s.clients →
      s'.chatRooms[n]? = some r → ∀ list,
        (handleCommand fd line list).run s' = .ok (list, s'.editRoom fd n r' left, es) := by
  obtain ⟨p, r₀, hp, hr₀, hfd⟩ := hs.member_data hin
  obtain rfl : r = r₀ := Option.some.inj (hr.symm.trans hr₀)
  have hmember : ∀ s' : Server, s'.Inv → s'.chatRooms[n]? = some r →
      s'.clientInChatRoom[fd]? = some n := fun s' hs' hr' =>
    (hs'.rooms.member fd n).mpr ⟨r, hr', hfd⟩
  by_cases hne : tokenize line = []
  · refine ⟨r, false, [.send fd []], fun d hd => ?_, fun s' hs' _ _ hr' list => ?_⟩
    · exact if_neg fun e : fd = d => hd (e ▸ hfd)
    · have hrun : (handleCommand fd line list).run s' = _ := handleCommand_blank hne
      rw [if_pos (Map.mem_of_get? (hmember s' hs' hr'))] at hrun
      rw [hrun, editRoom_same hr']
  · obtain ⟨reply, es, t, -, hstep⟩ := roomCommand_ok hs hin hp hr hne
    obtain ⟨r', left, rfl, hlocal⟩ := hstep.local hr
    refine ⟨r', left, es ++ [.send fd reply], fun d hd => sentTo_roomStep hstep hfd hd, ?_⟩
    intro s' hs' hheap hcl hr' list
    have hin' := hmember s' hs' hr'
    have hp' : s'.clients[fd]? = some (some p) := by rw [hcl, hp]
    exact handleCommand_room hne (Map.mem_of_get? hin')
      ((hlocal s' hheap hcl hr').run hs' hin' hp' hr')

end Lines

/-- Two lines, one after the other. -/
def handleTwo (a : Fd) (lineA : Bytes) (b : Fd) (lineB : Bytes) (list : List Fd) :
    ServerM (List Fd) := do
  let list ← handleCommand a lineA list
  handleCommand b lineB list

/-! ## 4. Rooms are independent -/

section Independent

variable {s : Server} {a b : Fd} {n m : Int}

/-- **Lines of members of different rooms can be handled in either order**: the server is the same
    afterwards, and every connection is sent the same. -/
theorem rooms_independent (h : Calls.Reachable s) (ha : s.clientInChatRoom[a]? = some n)
    (hb : s.clientInChatRoom[b]? = some m) (hnm : n ≠ m) (lineA lineB : Bytes) (list : List Fd) :
    ∃ t es fs, (handleTwo a lineA b lineB list).run s = .ok (list, t, es) ∧
      (handleTwo b lineB a lineA list).run s = .ok (list, t, fs) ∧
      ∀ d, sentTo d es = sentTo d fs := by
  have hs := calls_inv h
  obtain ⟨_, r, _, hr, -⟩ := hs.member_data ha
  obtain ⟨_, q, _, hq, -⟩ := hs.member_data hb
  obtain ⟨r', la, ea, hsilentA, hrunA⟩ := roomLine_local hs ha hr lineA
  obtain ⟨q', lb, eb, hsilentB, hrunB⟩ := roomLine_local hs hb hq lineB
  have hA := hrunA s hs rfl rfl hr list
  have hB := hrunB s hs rfl rfl hq list
  have hr' : (s.editRoom b m q' lb).chatRooms[n]? = some r := by
    simp [Server.editRoom, hnm.symm, hr]
  have hq' : (s.editRoom a n r' la).chatRooms[m]? = some q := by
    simp [Server.editRoom, hnm, hq]
  have hAB := hrunB _ (editRoom_inv hs hA) rfl rfl hq' list
  have hBA := hrunA _ (editRoom_inv hs hB) rfl rfl hr' list
  refine ⟨(s.editRoom a n r' la).editRoom b m q' lb, ea ++ eb, eb ++ ea, ?_, ?_, fun d => ?_⟩
  · rw [handleTwo, run_bind hA, hAB]
    rfl
  · rw [handleTwo, run_bind hB, hBA, editRoom_comm hnm]
    rfl
  · rw [sentTo_append, sentTo_append]
    -- nobody is a member of both rooms
    by_cases hd : d ∈ r.clients
    · have hdq : d ∉ q.clients := fun hmem => hnm (hs.member_unique hr hq hd hmem)
      rw [hsilentB d hdq, List.append_nil, List.nil_append]
    · rw [hsilentA d hd, List.append_nil, List.nil_append]

end Independent

/-- Two rooms with two members each. -/
def twoRooms : List (Fd × Bytes) :=
  [(4, ascii "register a 1"), (5, ascii "register b 2"), (6, ascii "register c 3"),
    (7, ascii "register d 4"), (4, ascii "login a 1"), (5, ascii "login b 2"),
    (6, ascii "login c 3"), (7, ascii "login d 4"), (4, ascii "enter-chat-room 1"),
    (5, ascii "enter-chat-room 1"), (6, ascii "enter-chat-room 2"), (7, ascii "enter-chat-room 2")]

theorem rooms_independent_twoRooms : ∃ t es fs,
    (handleTwo 4 (ascii "hello") 6 (ascii "/exit-chat-room") []).run (serverAfter twoRooms) =
      .ok ([], t, es) ∧
    (handleTwo 6 (ascii "/exit-chat-room") 4 (ascii "hello") []).run (serverAfter twoRooms) =
      .ok ([], t, fs) ∧ ∀ d, sentTo d es = sentTo d fs :=
  rooms_independent (n := 1) (m := 2) (serverAfter_reachable twoRooms) (by decide) (by decide)
    (by decide) _ _ []

end InpLabs.Chat
