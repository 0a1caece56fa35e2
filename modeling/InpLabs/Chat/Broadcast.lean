/-
  File:      InpLabs/Chat/Broadcast.lean
  Subject:   **A room is a broadcast in one order**: while a connection stays in a room, it is sent
             what is announced there, all of it and in order, whatever else the server does.

  The server has no queue of announcements; it sends each at once, in a loop over the members. What
  is announced is read off the log, in which no member is singled out, so any two members who stay
  read the same.

  * `announcement`, `announced`: what the log says the members of a room are told;
  * `Spoken`, `heard`: what a connection is sent, less the answers to its own commands that are for
    it alone;
  * `Step.heard`: one call; `room_order`: a stay.
-/
import InpLabs.Chat.Provenance

namespace InpLabs.Chat

open InpLabs.Lib

/-! ## 1. What is announced and what is heard -/

/-- What the members of room `n` are told of an event that follows those of `log`. -/
def announcement (n : Int) (log : Log) : Event → Option Bytes
  | .enter _ m u => if m = n then some (u ++ ascii " had enter the chat room.\n") else none
  | .leave fd =>
    if roomOf fd log = some n then
      some ((sessionOf fd log).getD [] ++ ascii " had left the chat room.\n")
    else none
  | .chat m u x => if m = n then some (chatLine u x) else none
  | .pin m u x => if m = n then some (pinLine u x) else none
  | _ => none

/-- All that has been announced in room `n`. -/
def announced (n : Int) : List Call → List Bytes
  | [] => []
  | c :: cs => announced n cs ++ ((eventOf (logOf cs) c).bind (announcement n (logOf cs))).toList

/-- A line of a room that is meant for all: a message, or one to be pinned. -/
def Spoken (tokens : List Bytes) : Prop :=
  (token tokens 0 = ascii "/pin" ∧ 2 ≤ tokens.length) ∨
    (tokens ≠ [] ∧ (token tokens 0).head? ≠ some 47)

instance (tokens : List Bytes) : Decidable (Spoken tokens) :=
  inferInstanceAs (Decidable (_ ∨ _))

/-- What a call brings a connection, unless it is the answer to a command of its own that is not
    meant for all. -/
def Call.heard (d : Fd) (c : Call) : List Bytes :=
  if c.fd = d ∧ ¬ Spoken (tokenize c.line) then [] else sentTo d c.effects

/-- What some calls bring it. -/
def heard (d : Fd) : List Call → List Bytes
  | [] => []
  | c :: cs => heard d cs ++ c.heard d

/-- After the calls `old`, and after each of the calls `new`, the connection is in room `n`. -/
def Stays (d : Fd) (n : Int) (new old : List Call) : Prop :=
  ∀ cs ∈ new.tails, roomOf d (logOf (cs ++ old)) = some n

/-! ## 2. One call -/

section Steps

variable {s t : Server} {log : Log} {fd d : Fd} {n m : Int} {r : ChatRoom} {p : Ptr}
  {tokens : List Bytes} {reply : Bytes} {es : List Effect}

/-- A lobby command tells those who stay what is announced. -/
theorem LobbyStep.heard (hs : s.Inv) (ha : Agrees log s) (hl : fd ∉ s.clientInChatRoom)
    (hd : fd ≠ d) (hin : s.clientInChatRoom[d]? = some n)
    (hstay : t.clientInChatRoom[d]? = some n) (h : LobbyStep s fd tokens reply es t) :
    sentTo d es = ((lobbyEvent log fd reply tokens).bind (announcement n log)).toList := by
  cases h with
  | answers hx =>
    rw [hx.no_event]
    rfl
  | register hu hfree =>
    rw [lobbyEvent_register]
    rfl
  | login hfd hp hu hw hout =>
    rw [lobbyEvent_login]
    rfl
  | logout hp =>
    rw [List.append_assoc, List.append_assoc, lobbyEvent_logout]
    rfl
  | setStatus hp hst =>
    rw [lobbyEvent_two (fun h => absurd h.1 (by decide)) fun h => absurd h.1 (by decide)]
    rfl
  | listUser hfd => rfl
  | @create x m p hp hn h1 hnew =>
    rw [lobbyEvent_enter hn (roomHeader_welcome _ _)]
    obtain ⟨-, r, -, hr, -⟩ := hs.member_data hin
    have hne : m ≠ n := fun e => hnew (e ▸ Map.mem_of_get? hr)
    simp only [Option.bind_some, announcement, if_neg hne]
    rfl
  | @enter x m p r hp hn hr =>
    rw [List.append_assoc,
      lobbyEvent_enter hn ((roomHeader_welcome _ _).trans (List.prefix_append _ _)),
      session_of_get ha hp, sentTo_toOthers (hs.joined_nodup hl hr)]
    have hmem : (d ∈ r.clients ++ [fd] ∧ d ≠ fd) ↔ m = n := by
      rw [List.mem_append, List.mem_singleton, and_comm, and_iff_right (Ne.symm hd),
        or_iff_left (Ne.symm hd)]
      constructor
      · intro hlisted
        have hm := (hs.rooms.member d m).mpr ⟨r, hr, hlisted⟩
        exact Option.some.inj (hm.symm.trans hin)
      · rintro rfl
        exact hs.listed hin hr
    simp only [Option.bind_some, announcement, Option.getD_some, hmem]
    split <;> rfl
  | @close x m p r hp hn hr ho =>
    -- who stays is not in the room that is closed
    rw [lobbyEvent_close hn, sentTo_toOthers (hs.rooms.ok m r hr).nodup, if_neg ?_]
    · rfl
    · rintro ⟨hlisted, -⟩
      have hgone : (Map.eraseAll s.clientInChatRoom r.clients)[d]? = some n := hstay
      rw [Map.get?_eraseAll, if_pos hlisted] at hgone
      cases hgone

/-- An answer that changes nothing is not meant for all. -/
theorem RoomAnswer.not_spoken (h : RoomAnswer s n r tokens reply) : ¬ Spoken tokens := by
  unfold Spoken
  cases h with
  | usagePin => decide
  | @usage c x w ws hu =>
    simp only [List.mem_cons, Prod.mk.injEq, List.not_mem_nil, or_false] at hu
    have hc : c ≠ ascii "/pin" ∧ c.head? = some 47 := by
      rcases hu with ⟨rfl, -⟩ | ⟨rfl, -⟩ | ⟨rfl, -⟩ <;> decide
    rintro (⟨h0, -⟩ | ⟨-, h0⟩)
    · exact hc.1 h0
    · exact h0 hc.2
  | noPin hpin => decide
  | users hne => decide
  | @unknown w ws hw hno =>
    rintro (⟨h0, -⟩ | ⟨-, h0⟩)
    · exact hno (h0 ▸ List.mem_cons_self)
    · exact h0 hw

theorem spoken_pin {ws : List Bytes} (hws : ws ≠ []) : Spoken (ascii "/pin" :: ws) :=
  .inl ⟨rfl, Nat.succ_le_succ (List.length_pos_iff.mpr hws)⟩

theorem spoken_chat {w : Bytes} {ws : List Bytes} (hw : w.head? ≠ some 47) : Spoken (w :: ws) :=
  .inr ⟨List.cons_ne_nil w ws, hw⟩

/-- A command in room `m` tells those who stay in room `n` what is announced. -/
theorem RoomStep.heard (hs : s.Inv) (ha : Agrees log s) (hfd : s.clientInChatRoom[fd]? = some m)
    (hp : s.clients[fd]? = some (some p)) (hr : s.chatRooms[m]? = some r)
    (hin : s.clientInChatRoom[d]? = some n) (hstay : t.clientInChatRoom[d]? = some n)
    (h : RoomStep s fd m r p tokens reply es t) :
    (if fd = d ∧ ¬ Spoken tokens then [] else sentTo d (es ++ [.send fd reply])) =
      ((roomEvent log fd m reply tokens).bind (announcement n log)).toList := by
  have hnd := (hs.rooms.ok m r hr).nodup
  have hmember := hs.listed hfd hr
  have hmem : d ∈ r.clients ↔ m = n := by
    constructor
    · intro hlisted
      have hm := (hs.rooms.member d m).mpr ⟨r, hr, hlisted⟩
      exact Option.some.inj (hm.symm.trans hin)
    · rintro rfl
      exact hs.listed hin hr
  -- an answer for the caller alone
  have hprivate : ¬ Spoken tokens →
      (if fd = d ∧ ¬ Spoken tokens then [] else sentTo d ([] ++ [.send fd reply])) = [] := by
    intro hnot
    by_cases hd : fd = d
    · rw [if_pos ⟨hd, hnot⟩]
    · rw [if_neg fun h => hd h.1]
      exact if_neg hd
  cases h with
  | answers hx =>
    rw [hx.no_event, hprivate hx.not_spoken]
    rfl
  | pin hws hm =>
    rw [roomEvent_pin hws, session_of_get ha hp, filtered_eq hm,
      if_neg fun h => h.2 (spoken_pin hws), sentTo_room hnd hmember]
    simp only [Option.bind_some, announcement, Option.getD_some, hmem]
    split <;> rfl
  | unpin hpin =>
    rw [hprivate (by decide)]
    rfl
  | leave =>
    have hd : fd ≠ d := by
      rintro rfl
      have hgone : (s.clientInChatRoom.erase fd)[fd]? = some n := hstay
      rw [Map.get?_erase, if_pos rfl] at hgone
      cases hgone
    have hevent : roomEvent log fd m (ascii "% ") [ascii "/exit-chat-room"] =
        some (.leave fd) := rfl
    have hreply : sentTo d [.send fd (ascii "% ")] = [] := if_neg hd
    have hothers : (d ∈ r.clients.erase fd ∧ d ≠ fd) ↔ m = n := by
      rw [← hmem, List.mem_erase_of_ne (Ne.symm hd)]
      exact and_iff_left (Ne.symm hd)
    rw [hevent, if_neg fun h => hd h.1, sentTo_append, hreply, List.append_nil,
      sentTo_toOthers (hnd.erase fd)]
    simp only [Option.bind_some, announcement, session_of_get ha hp, Option.getD_some, ha.room, hfd,
      Option.some.injEq, hothers]
    split <;> rfl
  | chat hw hm =>
    rw [roomEvent_chat hw, session_of_get ha hp, filtered_eq hm,
      if_neg fun h => h.2 (spoken_chat hw), sentTo_room hnd hmember]
    simp only [Option.bind_some, announcement, Option.getD_some, hmem]
    split <;> rfl

/-- **A call tells those who stay what it announces.** -/
theorem Step.heard (hs : s.Inv) (ha : Agrees log s) {c : Call}
    (hin : s.clientInChatRoom[d]? = some n) (hstay : t.clientInChatRoom[d]? = some n)
    (h : Step s c.fd c.list (tokenize c.line) c.effects t c.list') :
    c.heard d = ((eventOf log c).bind (announcement n log)).toList := by
  have hne : c.fd ∉ s.clientInChatRoom → c.fd ≠ d := by
    rintro hl rfl
    exact hl (Map.mem_of_get? hin)
  unfold Call.heard
  generalize ht : tokenize c.line = tokens at h
  generalize he : c.effects = es at h
  generalize c.list = list, c.list' = list' at h
  cases h with
  | blank =>
    rw [eventOf_blank ht]
    by_cases hd : c.fd = d
    · exact if_pos ⟨hd, by decide⟩
    · rw [if_neg fun h => hd h.1]
      exact if_neg hd
  | lobby hl hnil h =>
    have hsent : ∀ x, sentTo d [.send c.fd x] = [] := fun x => if_neg (hne hl)
    rw [eventOf_lobby _ ha hl ht he, if_neg fun h => hne hl h.1, sentTo_append, hsent,
      List.append_nil]
    exact h.heard hs ha hl (hne hl) hin hstay
  | exit hl hfd =>
    have hev : eventOf log c = some (.exit c.fd) := eventOf_lobby [.close c.fd] ha hl ht he
    rw [hev, if_neg fun h => hne hl h.1]
    exact if_neg (hne hl)
  | @exitSession p hl hp =>
    have hev : eventOf log c = some (.exit c.fd) :=
      eventOf_lobby [.send c.fd _, .close c.fd] ha hl ht he
    rw [hev, if_neg fun h => hne hl h.1]
    simp only [sentTo, if_neg (hne hl)]
    rfl
  | room hfd hp hr hnil h =>
    rw [eventOf_room _ ha hfd ht he]
    exact h.heard hs ha hfd hp hr hin hstay

end Steps

/-! ## 3. A stay -/

/-- **One order for all**: over any calls during which a connection is in room `n`, it hears exactly
what they announce there, in order. -/
theorem room_order {new old : List Call} {s : Server} (h : Calls.Run (new ++ old) s) {d : Fd}
    {n : Int} (hstay : Stays d n new old) :
    announced n (new ++ old) = announced n old ++ heard d new := by
  induction new generalizing s with
  | nil => exact (List.append_nil _).symm
  | cons c new ih =>
    have hrest : Stays d n new old := fun cs hcs => hstay cs (List.mem_cons_of_mem _ hcs)
    obtain ⟨u, hu, hstep⟩ : ∃ u, Calls.Run (new ++ old) u ∧ Calls.step u c s := h.step_inv
    have hinv := calls_inv ⟨_, hu⟩
    have hagree := run_agrees hu
    have hin : u.clientInChatRoom[d]? = some n :=
      (hagree.room d).symm.trans (hrest new ((List.mem_tails _ _).mpr (List.suffix_refl _)))
    have hout : s.clientInChatRoom[d]? = some n :=
      ((run_agrees h).room d).symm.trans (hstay _ ((List.mem_tails _ _).mpr (List.suffix_refl _)))
    have hcall := (handleCommand_step hinv hstep).heard hinv hagree hin hout
    calc announced n (c :: (new ++ old))
        = announced n (new ++ old) ++ c.heard d := by rw [hcall, announced]
      _ = (announced n old ++ heard d new) ++ c.heard d := by rw [ih hu hrest]
      _ = announced n old ++ heard d (c :: new) := List.append_assoc _ _ _

/-- Connection 5 stays in room 7, while others speak, ask for the list, come and go. -/
def talk : List (Fd × Bytes) :=
  twoMembers ++ [(4, ascii "hello  there"), (5, ascii "/list-user"), (6, ascii "enter-chat-room 7"),
    (5, ascii "/pin read me"), (4, ascii "/exit-chat-room")]

theorem room_order_talk : announced 7 (callsAfter talk) =
    [ascii "a had enter the chat room.\n", ascii "b had enter the chat room.\n"] ++
      [ascii "[a]: ***** there\n", ascii "c had enter the chat room.\n",
        ascii "Pin -> [b]: read me\n", ascii "a had left the chat room.\n"] := by
  have hsplit := List.take_append_drop 5 (callsAfter talk)
  have hrun := afterLines_run talk
  rw [← hsplit] at hrun ⊢
  rw [room_order hrun (d := 5) (n := 7) (by unfold Stays; decide +kernel)]
  decide +kernel

end InpLabs.Chat
