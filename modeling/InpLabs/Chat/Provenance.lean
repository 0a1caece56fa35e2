/-
  File:      InpLabs/Chat/Provenance.lean
  Subject:   **Where a line that reads `"[u]: m"` comes from**: a chat message of `u`, or a notice
             about a user who is registered as `"[u]:"`.

  * `FromChat`, `Notice`: the two origins of such a line, as the log has them;
  * `RoomLine`: the lines a connection can read in a room, sorted by how they can be taken for one
    another; `Step.roomLine`: a call completes no other line;
  * `chat_lines`: so after every run. User names have no white space, so the first blank of a line
    tells the formats apart, except where a name itself ends in `"]:"`.
-/
import InpLabs.Chat.Stream
import InpLabs.Chat.Words
import InpLabs.Chat.Replay
import InpLabs.Chat.Authentication
import InpLabs.Chat.Independent
import InpLabs.Chat.Atomic

namespace InpLabs.Chat

open InpLabs.Lib

/-! ## 1. The origin of a line -/

/-- How a message of `u` reads. -/
def chatText (u m : Bytes) : Bytes := ascii "[" ++ u ++ ascii "]: " ++ m

/-- The call `c`, after the calls of `log`, brings `d` a chat message of `u` in room `n`: one that
    it sends, or one of the last ten, which are replayed as `d` enters. -/
inductive FromChat (log : Log) (c : Call) (d : Fd) (n : Int) (u m : Bytes) : Prop where
  | live (hroom : roomOf c.fd log = some n) (hu : sessionOf c.fd log = some u)
      (h : eventOf log c = some (.chat n u m))
  | replayed {v : Bytes} (hd : c.fd = d) (h : eventOf log c = some (.enter d n v))
      (hm : ⟨u, m⟩ ∈ (chatsOf n log).rtake 10)

/-- The call brings `d` a notice about the user `v` of room `n`, with this text behind the name:
    that `v` has entered or left, or a line of the listing that `d` has asked for. -/
inductive Notice (log : Log) (c : Call) (d : Fd) (n : Int) (v : Bytes) : Bytes → Prop where
  | entered (hd : c.fd ≠ d) (hv : sessionOf c.fd log = some v)
      (h : eventOf log c = some (.enter c.fd n v)) :
      Notice log c d n v (ascii "had enter the chat room.")
  | left (hd : c.fd ≠ d) (hroom : roomOf c.fd log = some n) (hv : sessionOf c.fd log = some v)
      (h : eventOf log c = some (.leave c.fd)) :
      Notice log c d n v (ascii "had left the chat room.")
  | listed {d' : Fd} {status : Bytes} (hd : c.fd = d)
      (ht : tokenize c.line = [ascii "/list-user"]) (hroom : roomOf d' log = some n)
      (hv : sessionOf d' log = some v) (hst : validStatus status) : Notice log c d n v status

/-- The lines the call can bring `d` in room `n`. A line that does not open with a bracket is like
    no message. -/
inductive RoomLine (log : Log) (c : Call) (d : Fd) (n : Int) : Bytes → Prop where
  | other {line : Bytes} (h : line.head? ≠ some 91) : RoomLine log c d n line
  | chat {v x : Bytes} (hv : IsWord v) (h : FromChat log c d n v x) :
      RoomLine log c d n (chatText v x)
  | notice {v x : Bytes} (hv : IsWord v) (h : Notice log c d n v x) :
      RoomLine log c d n (v ++ ascii " " ++ x)

/-! ## 2. The texts as lines -/

section Texts

variable {u m line : Bytes} {log : Log} {n : Int}

theorem newline_toUInt8 : '\n'.toUInt8 = 10 := rfl

theorem chatLine_eq (u m : Bytes) : chatLine u m = chatText u m ++ ascii "\n" := rfl

theorem pinLine_eq (u m : Bytes) :
    pinLine u m = (ascii "Pin -> " ++ chatText u m) ++ ascii "\n" := by
  rw [pinLine, chatLine_eq, List.append_assoc]

/-- A text of one line. -/
theorem mem_complete_line {l : Bytes} (h : 10 ∉ l) (hl : line ∈ complete 10 (l ++ ascii "\n")) :
    line = l := by
  have hlines : l ++ ascii "\n" = unlines 10 [l] ++ [] := by
    simp [unlines, ascii, newline_toUInt8]
  rw [hlines, complete_unlines_append (by simpa using h)] at hl
  exact List.mem_singleton.mp hl

/-- A text of one line that some are sent. -/
theorem mem_complete_ite {P : Prop} [Decidable P] {l : Bytes} (h : 10 ∉ l)
    (hl : line ∈ complete 10 (if P then [l ++ ascii "\n"] else []).flatten) : P ∧ line = l := by
  split at hl
  · rw [List.flatten_singleton] at hl
    exact ⟨‹P›, mem_complete_line h hl⟩
  · cases hl

theorem chatText_no_newline (hu : IsWord u) (hm : 10 ∉ m) : 10 ∉ chatText u m := by
  have h1 : 10 ∉ ascii "[" := by decide
  have h2 : 10 ∉ ascii "]: " := by decide
  simp only [chatText, List.mem_append, not_or]
  exact ⟨⟨⟨h1, hu.no_newline⟩, h2⟩, hm⟩

theorem notice_no_newline (hu : IsWord u) (hm : 10 ∉ m) : 10 ∉ u ++ ascii " " ++ m := by
  have hblank : 10 ∉ ascii " " := by decide
  simp [hu.no_newline, hblank, hm]

/-- The lines a newcomer reads. -/
def entryLines (n : Int) (owner : Bytes) (log : Log) : List Bytes :=
  [ascii "Welcome to the public chat room.", ascii "Room number: " ++ toStringInt n,
    ascii "Owner: " ++ owner] ++
  ((chatsOf n log).rtake 10).map (fun r => chatText r.username r.message) ++
  (pinOf n log).toList.map fun p => ascii "Pin -> " ++ chatText p.1 p.2

theorem entryReply_lines (n : Int) (owner : Bytes) (log : Log) :
    entryReply n owner log = unlines 10 (entryLines n owner log) := by
  unfold entryReply entryLines
  rw [unlines_append, unlines_append]
  congr 1
  · congr 1
    · simp [roomHeader, unlines, ascii, newline_toUInt8]
    · rw [unlines, List.flatMap_map]
      rfl
  · cases h : pinOf n log with
    | none => rfl
    | some p => simp [unlines, pinLine_eq, ascii, newline_toUInt8]

end Texts

/-! ## 3. What a call completes -/

section Steps

variable {s t : Server} {log : Log} {c : Call} {d fd : Fd} {n : Int} {r : ChatRoom} {p : Ptr}
  {tokens : List Bytes} {reply line x U : Bytes} {es : List Effect}

theorem session_of_get (ha : Agrees log s) (hp : s.clients[fd]? = some (some p)) :
    sessionOf fd log = some (s.name p) := (ha.session fd).trans (user_of_get hp)

theorem isWord_name (ha : Agrees log s) (hlog : ∀ e ∈ log, e.Plain)
    (hp : s.clients[fd]? = some (some p)) : IsWord (s.name p) :=
  hlog _ (login_of_session (session_of_get ha hp))

/-- A line that opens with a text of its own. -/
theorem RoomLine.of_start (start rest : Bytes) (h : start.head?.any (· != 91) = true) :
    RoomLine log c d n (start ++ rest) := by
  refine .other ?_
  cases start with
  | nil => cases h
  | cons b start => simpa using h

theorem toStringInt_no_newline (n : Int) : 10 ∉ toStringInt n := fun hmem =>
  absurd (toStringInt_bytes hmem) (by decide)

theorem entryLines_no_newline (hlog : ∀ e ∈ log, e.Plain) {o : Bytes} (ho : IsWord o) :
    ∀ l ∈ entryLines n o log, 10 ∉ l := by
  have h1 : 10 ∉ ascii "Welcome to the public chat room." := by decide
  have h2 : 10 ∉ ascii "Room number: " := by decide
  have h3 : 10 ∉ ascii "Owner: " := by decide
  have h4 : 10 ∉ ascii "Pin -> " := by decide
  intro l hl
  rcases List.mem_append.mp hl with hl | hl
  · rcases List.mem_append.mp hl with hl | hl
    · simp only [List.mem_cons, List.not_mem_nil, or_false] at hl
      rcases hl with rfl | rfl | rfl
      · exact h1
      · simp [h2, toStringInt_no_newline]
      · simp [h3, ho.no_newline]
    · obtain ⟨x, hx, rfl⟩ := List.mem_map.mp hl
      obtain ⟨hu, hm⟩ := chatsOf_plain hlog (List.mem_of_mem_drop hx)
      exact chatText_no_newline hu hm
  · obtain ⟨x, hx, rfl⟩ := List.mem_map.mp hl
    obtain ⟨hu, hm⟩ := pinOf_plain hlog (Option.mem_toList.mp hx)
    simp [h4, chatText_no_newline hu hm]

/-- What `d` reads as it enters. The first of these lines goes on with a prompt. -/
theorem RoomLine.of_entry {v o : Bytes} (hlog : ∀ e ∈ .enter d n v :: log, e.Plain)
    (hd : c.fd = d) (h : eventOf log c = some (.enter d n v))
    (ho : ownerOf n (.enter d n v :: log) = some o) (hfree : 10 ∉ U)
    (hU : ∀ b ∈ U.head?, b = 37)
    (hl : line ∈ complete 10 (U ++ entryReply n o (.enter d n v :: log))) :
    RoomLine log c d n line := by
  have hword := ownerOf_isWord hlog ho
  have hchats : chatsOf n (.enter d n v :: log) = chatsOf n log := by
    rw [chatsOf_cons, if_neg nofun]
    exact List.append_nil _
  rw [entryReply_lines] at hl
  rcases mem_complete_unlines hfree (entryLines_no_newline hlog hword) (by simp [entryLines]) hl
    with ⟨x, hx, rfl⟩ | hl
  · obtain rfl : ascii "Welcome to the public chat room." = x := by simpa [entryLines] using hx
    refine .other ?_
    cases U with
    | nil => decide
    | cons b U =>
      obtain rfl : b = 37 := hU b rfl
      exact fun hhead => absurd (Option.some.inj hhead) (by decide)
  · unfold entryLines at hl
    rw [hchats] at hl
    simp only [List.cons_append, List.nil_append, List.tail_cons, List.mem_cons,
      List.mem_append, List.mem_map] at hl
    rcases hl with rfl | rfl | ⟨x, hx, rfl⟩ | ⟨x, hx, rfl⟩
    · exact .of_start _ _ (by decide)
    · exact .of_start _ _ (by decide)
    · have hu := (chatsOf_plain hlog (hchats ▸ List.mem_of_mem_drop hx)).1
      exact .chat hu (.replayed hd h hx)
    · exact .of_start _ _ (by decide)

/-- The members of a room have their sessions, -/
theorem mem_memberPtrs (hs : s.Inv) (hr : s.chatRooms[n]? = some r) (hp : p ∈ memberPtrs s r) :
    ∃ d' : Fd, s.clientInChatRoom[d']? = some n ∧ s.clients[d']? = some (some p) := by
  obtain ⟨d', hd', rfl⟩ := List.mem_map.mp hp
  have hin := (hs.rooms.member d' n).mpr ⟨r, hr, hd'⟩
  obtain ⟨q, -, hq, -⟩ := hs.session_of_mem (hs.rooms.session d' n hin)
  refine ⟨d', hin, ?_⟩
  rw [hq]
  rfl

theorem status_no_newline {status : Bytes} (h : validStatus status) : 10 ∉ status := by
  rcases h with rfl | rfl | rfl <;> decide

/-- and a listing has a line for each. -/
theorem RoomLine.of_listing (hs : s.Inv) (ha : Agrees log s) (hlog : ∀ e ∈ log, e.Plain)
    (hst : s.Statuses) (hr : s.chatRooms[n]? = some r)
    (ht : tokenize c.line = [ascii "/list-user"])
    (hl : line ∈ complete 10 (((memberPtrs s r).insertionSort (byName s.heap)).flatMap
      fun p => userLine (s.heap p))) : RoomLine log c c.fd n line := by
  have hmem : ∀ p ∈ (memberPtrs s r).insertionSort (byName s.heap), ∃ d' : Fd,
      roomOf d' log = some n ∧ s.clients[d']? = some (some p) := by
    intro p hp
    obtain ⟨d', hin, hp⟩ := mem_memberPtrs hs hr ((List.mem_insertionSort _).mp hp)
    exact ⟨d', (ha.room d').trans hin, hp⟩
  generalize (memberPtrs s r).insertionSort (byName s.heap) = ps at hl hmem
  have htext : ps.flatMap (fun p => userLine (s.heap p)) =
      unlines 10 (ps.map fun p => s.name p ++ ascii " " ++ (s.heap p).status) ++ [] := by
    rw [unlines, List.flatMap_map, List.append_nil]
    rfl
  rw [htext, complete_unlines_append] at hl
  · obtain ⟨p, hp, rfl⟩ := List.mem_map.mp ((List.mem_append.mp hl).resolve_right List.not_mem_nil)
    obtain ⟨d', hroom, hclient⟩ := hmem p hp
    exact .notice (isWord_name ha hlog hclient)
      (.listed rfl ht hroom (session_of_get ha hclient) (hst p (hs.session_of_get hclient).1))
  · intro l hl
    obtain ⟨p, hp, rfl⟩ := List.mem_map.mp hl
    obtain ⟨d', -, hclient⟩ := hmem p hp
    exact notice_no_newline (isWord_name ha hlog hclient)
      (status_no_newline (hst p (hs.session_of_get hclient).1))

/-- A command that changes nothing. -/
theorem RoomAnswer.roomLine (hs : s.Inv) (ha : Agrees log s) (hlog : ∀ e ∈ log, e.Plain)
    (hst : s.Statuses) (hr : s.chatRooms[n]? = some r)
    (h : RoomAnswer s n r tokens x) (ht : tokenize c.line = tokens) (hl : line ∈ complete 10 x) :
    RoomLine log c c.fd n line := by
  cases h with
  | usagePin =>
    have htexts : ∀ l ∈ complete 10 (ascii "Usage: /pin <message>\n"), l.head? ≠ some 91 := by
      decide
    exact .other (htexts line hl)
  | usage hu =>
    have htexts : ∀ u ∈ [(ascii "/delete-pin", ascii "Usage: /delete-pin\n"),
        (ascii "/exit-chat-room", ascii "Usage: /exit-chat-room\n"),
        (ascii "/list-user", ascii "Usage: /list-user\n")],
        ∀ l ∈ complete 10 u.2, l.head? ≠ some 91 := by decide
    exact .other (htexts _ hu line hl)
  | noPin hpin =>
    have hnumber : 10 ∉ ascii "No pin message in chat room " ++ toStringInt n := by
      have htext : 10 ∉ ascii "No pin message in chat room " := by decide
      simp [htext, toStringInt_no_newline]
    rw [mem_complete_line hnumber hl]
    exact .of_start _ _ (by decide)
  | users hne => exact .of_listing hs ha hlog hst hr ht hl
  | unknown hw hno =>
    have htexts : ∀ l ∈ complete 10 (ascii "Error: Unknown command\n"), l.head? ≠ some 91 := by
      decide
    exact .other (htexts line hl)

/-- A lobby command after which its connection is in a room has entered it. -/
theorem LobbyStep.enters (hl : fd ∉ s.clientInChatRoom)
    (h : LobbyStep s fd tokens reply es t)
    (hin : t.clientInChatRoom[fd]? = some n) :
    sentTo fd es = [] ∧ ∃ v, lobbyEvent log fd reply tokens = some (.enter fd n v) := by
  have hmem : fd ∈ t.clientInChatRoom := Map.mem_of_get? hin
  have hroom : ∀ {m : Int}, (s.clientInChatRoom.insert fd m)[fd]? = some n → m = n := by
    intro m h
    rw [Map.get?_insert, if_pos rfl] at h
    exact Option.some.inj h
  cases h with
  | create hp hn h1 hnew =>
    obtain rfl := hroom hin
    exact ⟨rfl, _, lobbyEvent_enter hn (roomHeader_welcome _ _)⟩
  | enter hp hn hr =>
    obtain rfl := hroom hin
    refine ⟨sentTo_self _ _ _, (sessionOf fd log).getD [], ?_⟩
    rw [List.append_assoc]
    exact lobbyEvent_enter hn ((roomHeader_welcome _ _).trans (List.prefix_append _ _))
  | close hp hn hr ho => exact absurd (mem_eraseAll.mp hmem).2 hl
  | _ => exact absurd hmem hl

/-- What a lobby command brings the others. -/
theorem LobbyStep.roomLine (hs : s.Inv) (ha : Agrees log s) (hlog : ∀ e ∈ log, e.Plain)
    (ht : ∀ w ∈ tokens, IsWord w) (hl : c.fd ∉ s.clientInChatRoom)
    (hd : c.fd ≠ d) (h : LobbyStep s c.fd tokens reply es t)
    (hev : eventOf log c = lobbyEvent log c.fd reply tokens)
    (hroom : s.clientInChatRoom[d]? = some n ∨ t.clientInChatRoom[d]? = some n)
    (hline : line ∈ complete 10 (sentTo d es).flatten) : RoomLine log c d n line := by
  cases h with
  | @enter x m p r hp hn hr =>
    have hin : s.clientInChatRoom[d]? = some n := by
      refine hroom.elim id fun h => ?_
      have h' : (s.clientInChatRoom.insert c.fd m)[d]? = some n := h
      rwa [Map.get?_insert, if_neg hd] at h'
    have htext : s.name p ++ ascii " had enter the chat room.\n" =
        s.name p ++ ascii " " ++ ascii "had enter the chat room." ++ ascii "\n" := by
      simp [ascii]
    rw [sentTo_toOthers (hs.joined_nodup hl hr), htext] at hline
    have hname := isWord_name ha hlog hp
    obtain ⟨hmem, rfl⟩ := mem_complete_ite (notice_no_newline hname (by decide)) hline
    -- the room that is entered is the one `d` is in
    have hlisted : d ∈ r.clients := by simpa [hd.symm] using hmem.1
    have hm := (hs.rooms.member d m).mpr ⟨r, hr, hlisted⟩
    obtain rfl : m = n := Option.some.inj (hm.symm.trans hin)
    rw [List.append_assoc,
      lobbyEvent_enter hn ((roomHeader_welcome _ _).trans (List.prefix_append _ _)),
      session_of_get ha hp] at hev
    exact .notice hname (.entered hd (session_of_get ha hp) hev)
  | @close x m p r hp hn hr ho =>
    have hx : 10 ∉ ascii "Chat room " ++ x ++ ascii " was closed." := by
      have h1 : 10 ∉ ascii "Chat room " := by decide
      have h2 : 10 ∉ ascii " was closed." := by decide
      simp [h1, h2, (ht x (by simp)).no_newline]
    have htext : roomWasClosed x ++ ascii "% " =
        unlines 10 [ascii "Chat room " ++ x ++ ascii " was closed."] ++ ascii "% " := by
      simp [roomWasClosed, unlines, ascii, newline_toUInt8]
    have hprompt : complete 10 (ascii "% ") = [] := by decide
    rw [sentTo_toOthers (hs.rooms.ok m r hr).nodup] at hline
    split at hline
    · rw [List.flatten_singleton, htext, complete_unlines_append (by simpa using hx), hprompt,
        List.append_nil, List.mem_singleton] at hline
      rw [hline, List.append_assoc]
      exact .of_start _ _ (by decide)
    · cases hline
  | _ => cases hline

/-- What a room command brings the members of the room. -/
theorem RoomStep.roomLine (hs : s.Inv) (ha : Agrees log s) (hlog : ∀ e ∈ log, e.Plain)
    (hst : s.Statuses) (hin : s.clientInChatRoom[c.fd]? = some n)
    (hp : s.clients[c.fd]? = some (some p)) (hr : s.chatRooms[n]? = some r)
    (h : RoomStep s c.fd n r p tokens reply es t) (ht : tokenize c.line = tokens)
    (hev : eventOf log c = roomEvent log c.fd n reply tokens)
    (hline : line ∈ complete 10 (sentTo d (es ++ [.send c.fd reply])).flatten) :
    RoomLine log c d n line := by
  have hnd := (hs.rooms.ok n r hr).nodup
  have hname := isWord_name ha hlog hp
  have hmember := hs.listed hin hr
  have htokens : ∀ w ∈ tokens, IsWord w := fun w hw => isWord_of_mem_tokenize (ht ▸ hw)
  cases h with
  | answers hx =>
    by_cases hd : c.fd = d
    · subst hd
      rw [sentTo_reply, if_pos rfl] at hline
      exact hx.roomLine hs ha hlog hst hr ht hline
    · rw [sentTo_reply, if_neg hd] at hline
      cases hline
  | @pin ws m hws hm =>
    have hfree : 10 ∉ ascii "Pin -> " ++ chatText (s.name p) m := by
      have h1 : 10 ∉ ascii "Pin -> " := by decide
      have hm' := filtered_no_newline fun w hw => htokens w (List.mem_cons_of_mem _ hw)
      simp [h1, chatText_no_newline hname (filtered_eq hm ▸ hm')]
    rw [sentTo_room hnd hmember, pinLine_eq] at hline
    obtain ⟨-, rfl⟩ := mem_complete_ite hfree hline
    exact .of_start _ _ (by decide)
  | unpin hpin =>
    have hnone : (sentTo d ([] ++ [.send c.fd []])).flatten = [] := by
      rw [sentTo_reply]
      split <;> rfl
    rw [hnone] at hline
    cases hline
  | leave =>
    by_cases hd : c.fd = d
    · subst hd
      have hprompt : complete 10 (ascii "% ") = [] := by decide
      rw [sentTo_reply, sentTo_self, if_pos rfl, List.flatten_nil, List.nil_append, hprompt]
        at hline
      cases hline
    · have htext : s.name p ++ ascii " had left the chat room.\n" =
          s.name p ++ ascii " " ++ ascii "had left the chat room." ++ ascii "\n" := by
        simp [ascii]
      rw [sentTo_reply, if_neg hd, List.append_nil, sentTo_toOthers (hnd.erase c.fd), htext]
        at hline
      obtain ⟨-, rfl⟩ := mem_complete_ite (notice_no_newline hname (by decide)) hline
      exact .notice hname (.left hd ((ha.room c.fd).trans hin) (session_of_get ha hp) hev)
  | chat hw hm =>
    have hm' := filtered_no_newline htokens
    rw [sentTo_room hnd hmember, chatLine_eq] at hline
    obtain ⟨-, rfl⟩ :=
      mem_complete_ite (chatText_no_newline hname (filtered_eq hm ▸ hm')) hline
    rw [roomEvent_chat hw, session_of_get ha hp, filtered_eq hm] at hev
    exact .chat hname (.live ((ha.room c.fd).trans hin) (session_of_get ha hp) hev)

/-- A room command takes no one into a room. -/
theorem RoomStep.room_before (h : RoomStep s fd n r p tokens reply es t) {m : Int}
    (hd : t.clientInChatRoom[d]? = some m) : s.clientInChatRoom[d]? = some m := by
  cases h with
  | leave =>
    have hd' : (s.clientInChatRoom.erase fd)[d]? = some m := hd
    rw [Map.get?_erase] at hd'
    split at hd'
    · cases hd'
    · exact hd'
  | _ => exact hd

/-- No text completes nothing. -/
theorem RoomLine.of_nil (hfree : 10 ∉ U) {text : Bytes} (htext : text = [])
    (hline : line ∈ complete 10 (U ++ text)) : RoomLine log c d n line := by
  rw [htext, List.append_nil, complete_of_not_mem hfree] at hline
  cases hline

/-- **The lines a call completes** for a connection that is in room `n` before it or after it, where
    `U` was unfinished: nothing in a room, a prompt in the lobby. -/
theorem Step.roomLine (hs : s.Inv) (ha : Agrees log s) (hst : s.Statuses)
    (hlog : ∀ e ∈ (eventOf log c).toList ++ log, e.Plain)
    (h : Step s c.fd c.list (tokenize c.line) c.effects t c.list')
    (hroom : s.clientInChatRoom[d]? = some n ∨ t.clientInChatRoom[d]? = some n)
    (hfree : 10 ∉ U) (hU : ∀ b ∈ U.head?, b = 37) (hin : d ∈ s.clientInChatRoom → U = [])
    (hline : line ∈ complete 10 (U ++ (sentTo d c.effects).flatten)) :
    RoomLine log c d n line := by
  have hold : ∀ e ∈ log, e.Plain := fun e he => hlog e (List.mem_append_right _ he)
  have hwords : ∀ w ∈ tokenize c.line, IsWord w := fun w => isWord_of_mem_tokenize
  have hkept := h.kept (hroom.imp Map.mem_of_get? Map.mem_of_get?)
  have hbefore : d ∈ s.clientInChatRoom ∨ d = c.fd := by
    rcases hroom with h' | h'
    · exact .inl (Map.mem_of_get? h')
    · exact (h.new_member (Map.mem_of_get? h')).imp_right And.left
  generalize ht : tokenize c.line = tokens at h hwords
  generalize he : c.effects = es at h hline hkept
  generalize c.list = list, c.list' = list' at h
  cases h with
  | blank =>
    refine .of_nil hfree ?_ hline
    by_cases hd : c.fd = d
    · -- the caller is in the room, and is sent the empty text
      have hmem : c.fd ∈ s.clientInChatRoom := hd ▸ Map.mem_of_get? (hroom.elim id id)
      simp [sentTo, hmem]
    · simp [sentTo, hd]
  | lobby hl hne h =>
    have hev := eventOf_lobby _ ha hl ht he
    rw [sentTo_reply] at hline
    by_cases hd : c.fd = d
    · subst hd
      have hafter := hroom.resolve_left fun h' => hl (Map.mem_of_get? h')
      obtain ⟨hnone, v, henter⟩ := h.enters hl hafter
      obtain ⟨o, ho, hreply⟩ := h.entry ha henter
      have hev' := hev.trans henter
      rw [hev'] at hlog
      rw [hnone, if_pos rfl, List.flatten_nil, List.nil_append, hreply] at hline
      exact .of_entry hlog rfl hev' ho hfree hU hline
    · rw [if_neg hd, List.append_nil, hin (hbefore.resolve_right (Ne.symm hd)),
        List.nil_append] at hline
      exact h.roomLine hs ha hold hwords hl hd hev hroom hline
  | exit hl hfd =>
    have hd : ¬ c.fd = d := fun hd => hkept (by simp [closedBy, hd])
    exact .of_nil hfree (by simp [sentTo, hd]) hline
  | exitSession hl hp =>
    have hd : ¬ c.fd = d := fun hd => hkept (by simp [closedBy, hd])
    exact .of_nil hfree (by simp [sentTo, hd]) hline
  | @room tokens reply es t k r p hfd hp hr hne h =>
    have hmember := hs.listed hfd hr
    have hd := hroom.elim id h.room_before
    by_cases hlisted : d ∈ r.clients
    · have hk := (hs.rooms.member d k).mpr ⟨r, hr, hlisted⟩
      obtain rfl : k = n := Option.some.inj (hk.symm.trans hd)
      rw [hin (Map.mem_of_get? hd), List.nil_append] at hline
      exact h.roomLine hs ha hold hst hfd hp hr ht (eventOf_room _ ha hfd ht he) hline
    · exact .of_nil hfree (by rw [sentTo_roomStep h hmember hlisted]; rfl) hline

end Steps

/-! ## 4. Every run -/

/-- The name that reads like the head of a message of `u`. -/
def bracketed (u : Bytes) : Bytes := ascii "[" ++ u ++ ascii "]:"

section Origin

variable {log : Log} {c : Call} {d : Fd} {n : Int} {u m a b x y : Bytes}

theorem chatText_bracketed (u m : Bytes) : chatText u m = bracketed u ++ ascii " " ++ m := by
  simp [chatText, bracketed, ascii]

theorem isWord_bracketed (hu : IsWord u) : IsWord (bracketed u) := by
  have h1 : IsWord (ascii "[") := isspace_of_all (by decide)
  have h2 : IsWord (ascii "]:") := isspace_of_all (by decide)
  intro b hb
  rcases List.mem_append.mp hb with hb | hb
  · exact (List.mem_append.mp hb).elim (h1 b) (hu b)
  · exact h2 b hb

theorem bracketed_inj (h : bracketed a = bracketed b) : a = b :=
  List.append_cancel_left (List.append_cancel_right h)

/-- The first blank ends the first word. -/
theorem first_blank (ha : IsWord a) (hb : IsWord b)
    (h : a ++ ascii " " ++ x = b ++ ascii " " ++ y) : a = b ∧ x = y := by
  -- where one word is longer, the blank behind the other stands in it
  have key : ∀ {a b rest x z : Bytes}, IsWord b → b = a ++ rest → ascii " " ++ x = rest ++ z →
      rest = [] := by
    intro a b rest x z hb heq hrest
    cases rest with
    | nil => rfl
    | cons e rest =>
      obtain rfl : 32 = e := List.head_eq_of_cons_eq hrest
      exact absurd (heq ▸ by simp) hb.no_blank
  rw [List.append_assoc, List.append_assoc] at h
  rcases List.append_eq_append_iff.mp h with ⟨rest, heq, hrest⟩ | ⟨rest, heq, hrest⟩
  · obtain rfl := key hb heq hrest
    exact ⟨(heq.trans (List.append_nil a)).symm, List.append_cancel_left hrest⟩
  · obtain rfl := key ha heq hrest
    exact ⟨heq.trans (List.append_nil b), (List.append_cancel_left hrest).symm⟩

/-- A line of a room that reads like a message. -/
theorem RoomLine.origin (hu : IsWord u) (h : RoomLine log c d n (chatText u m)) :
    FromChat log c d n u m ∨ Notice log c d n (bracketed u) m := by
  generalize hline : chatText u m = line at h
  cases h with
  | other hhead => exact absurd (hline ▸ rfl) hhead
  | @chat v x hv h =>
    rw [chatText_bracketed, chatText_bracketed] at hline
    obtain ⟨hname, rfl⟩ := first_blank (isWord_bracketed hu) (isWord_bracketed hv) hline
    obtain rfl := bracketed_inj hname
    exact .inl h
  | @notice v x hv h =>
    rw [chatText_bracketed] at hline
    obtain ⟨rfl, rfl⟩ := first_blank (isWord_bracketed hu) hv hline
    exact .inr h

/-- A message that is brought has been accepted. -/
theorem FromChat.accepted {cs : List Call} (h : FromChat (logOf cs) c d n u m) :
    Event.chat n u m ∈ logOf (c :: cs) := by
  refine List.mem_append.mpr ?_
  cases h with
  | live hroom hu h => exact .inl (Option.mem_toList.mpr h)
  | replayed hd h hm =>
    obtain ⟨e, he, hrecord⟩ := List.mem_filterMap.mp (List.mem_of_mem_drop hm)
    refine .inr ?_
    have hmem := mem_era (List.mem_reverse.mp he)
    cases e with
    | chat k v x =>
      obtain ⟨rfl, rfl, rfl⟩ : k = n ∧ v = u ∧ x = m := by simpa [recordIn] using hrecord
      exact hmem
    | _ => cases hrecord

/-- Whom a notice is about is logged in. -/
theorem Notice.session (h : Notice log c d n u m) : ∃ fd, sessionOf fd log = some u := by
  cases h with
  | entered hd hv h => exact ⟨_, hv⟩
  | left hd hroom hv h => exact ⟨_, hv⟩
  | listed hd ht hroom hv hst => exact ⟨_, hv⟩

end Origin

/-- **Chat lines are authentic, up to names in brackets.** A line that reads `"[u]: m"`, for a
    registered `u`, and that a connection completes while it is in a room, is a message of `u` in
    that room, sent by this call or replayed, or a notice about the user registered as `"[u]:"`. -/
theorem chat_lines {cs : List Call} {c : Call} {t : Server} (h : Calls.Run (c :: cs) t) {d : Fd}
    {n : Int} (hroom : roomOf d (logOf cs) = some n ∨ roomOf d (logOf (c :: cs)) = some n)
    {u w m : Bytes} (hu : Event.register u w ∈ logOf (c :: cs))
    (hline : chatText u m ∈ arrived d c cs) :
    FromChat (logOf cs) c d n u m ∨
      (∃ w', Event.register (bracketed u) w' ∈ logOf cs) ∧
        Notice (logOf cs) c d n (bracketed u) m := by
  obtain ⟨s, hrun, hcall⟩ := h.step_inv
  have hs := calls_inv ⟨cs, hrun⟩
  have ha := run_agrees hrun
  have hstep := handleCommand_step hs hcall
  have hstream := run_streams hrun
  have hplain := logOf_plain (c :: cs)
  have hserver : s.clientInChatRoom[d]? = some n ∨ t.clientInChatRoom[d]? = some n := by
    rwa [ha.room, (run_agrees h).room] at hroom
  have hkept := hstep.kept (hserver.imp Map.mem_of_get? Map.mem_of_get?)
  rw [arrived_eq hkept] at hline
  have hkind : RoomLine (logOf cs) c d n (chatText u m) :=
    hstep.roomLine hs ha (calls_statuses ⟨cs, hrun⟩) hplain hserver (not_mem_unfinished _ _)
      (hstream.prompting d) (fun hd => unfinished_of_suffix (hstream.line d hd)) hline
  refine (hkind.origin (hplain _ hu)).imp_right fun hnotice => ⟨?_, hnotice⟩
  obtain ⟨fd, hfd⟩ := hnotice.session
  obtain ⟨p, hp, hname⟩ := (session_some_iff ha).mp hfd
  exact (registered_iff ha).mp (hname ▸ hs.registered_of_get hp)

/-- Something holds of the last call and the calls before it. -/
def lastCall (P : Call → List Call → Bool) : List Call → Bool
  | [] => false
  | c :: cs => P c cs

theorem of_lastCall {P : Call → List Call → Bool} {calls : List Call}
    (h : lastCall P calls = true) : ∃ c cs, calls = c :: cs ∧ P c cs = true := by
  cases calls with
  | nil => cases h
  | cons c cs => exact ⟨c, cs, rfl, h⟩

/-- Two users in a room; one of them speaks. -/
def spoken : List (Fd × Bytes) :=
  [(4, ascii "register bob 1"), (4, ascii "register carol 2"), (4, ascii "login carol 2"),
    (5, ascii "login bob 1"), (4, ascii "enter-chat-room 1"), (5, ascii "enter-chat-room 1"),
    (5, ascii "good morning")]

theorem chat_lines_spoken : ∃ c cs, callsAfter spoken = c :: cs ∧
    chatText (ascii "bob") (ascii "good morning") ∈ arrived 4 c cs ∧
    (FromChat (logOf cs) c 4 1 (ascii "bob") (ascii "good morning") ∨
      (∃ w', Event.register (bracketed (ascii "bob")) w' ∈ logOf cs) ∧
        Notice (logOf cs) c 4 1 (bracketed (ascii "bob")) (ascii "good morning")) := by
  have key : lastCall (fun c cs => decide (roomOf 4 (logOf cs) = some 1 ∧
      Event.register (ascii "bob") (ascii "1") ∈ logOf (c :: cs) ∧
      chatText (ascii "bob") (ascii "good morning") ∈ arrived 4 c cs))
      (callsAfter spoken) = true := by decide +kernel
  obtain ⟨c, cs, hcs, hkey⟩ := of_lastCall key
  obtain ⟨hroom, hu, hline⟩ := of_decide_eq_true hkey
  exact ⟨c, cs, hcs, hline, chat_lines (hcs ▸ afterLines_run spoken) (.inl hroom) hu hline⟩

/-- With the last of these lines, connection 4 in room 1 reads what looks like the message `m` of
    the registered user `bob`, and is not. -/
def Imposture (lines : List (Fd × Bytes)) (m : Bytes) : Prop :=
  ∃ c cs, callsAfter lines = c :: cs ∧ Calls.Run (c :: cs) (serverAfter lines) ∧
    roomOf 4 (logOf cs) = some 1 ∧ Event.register (ascii "bob") (ascii "1") ∈ logOf cs ∧
    chatText (ascii "bob") m ∈ arrived 4 c cs ∧ ¬ FromChat (logOf cs) c 4 1 (ascii "bob") m

theorem Imposture.of_calls {lines : List (Fd × Bytes)} {m : Bytes}
    (h : lastCall (fun c cs => decide (roomOf 4 (logOf cs) = some 1 ∧
      Event.register (ascii "bob") (ascii "1") ∈ logOf cs ∧
      chatText (ascii "bob") m ∈ arrived 4 c cs ∧
      Event.chat 1 (ascii "bob") m ∉ logOf (c :: cs))) (callsAfter lines) = true) :
    Imposture lines m := by
  obtain ⟨c, cs, hcs, hkey⟩ := of_lastCall h
  obtain ⟨hroom, hu, hline, hno⟩ := of_decide_eq_true hkey
  exact ⟨c, cs, hcs, hcs ▸ afterLines_run lines, hroom, hu, hline, fun h => hno h.accepted⟩

/-- A user `bob`, and one who is called `[bob]:`. -/
def impostor : List (Fd × Bytes) :=
  [(4, ascii "register bob 1"), (4, ascii "register carol 2"), (4, ascii "register [bob]: 3"),
    (4, ascii "login carol 2"), (5, ascii "login [bob]: 3"), (4, ascii "enter-chat-room 1"),
    (5, ascii "enter-chat-room 1")]

/-- The second user is taken for the first as it enters, is listed, and leaves. -/
theorem impostor_read :
    Imposture impostor (ascii "had enter the chat room.") ∧
    Imposture (impostor ++ [(4, ascii "/list-user")]) (ascii "online") ∧
    Imposture (impostor ++ [(5, ascii "/exit-chat-room")]) (ascii "had left the chat room.") :=
  ⟨.of_calls (by decide +kernel), .of_calls (by decide +kernel), .of_calls (by decide +kernel)⟩

end InpLabs.Chat
