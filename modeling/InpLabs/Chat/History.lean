/-
  File:      InpLabs/Chat/History.lean
  Subject:   **The server remembers its log**: accounts, sessions and rooms are what the log of the
             calls so far says they are.

  * `RoomsAgree`, `Agrees`: the coupling of a log with a server;
  * `LobbyStep.agrees`, `RoomStep.agrees`, `Step.agrees`: a call adds its event, if it has one, and
    the server follows;
  * `run_agrees`: so after every run.
-/
import InpLabs.Chat.Log

namespace InpLabs.Chat

open InpLabs.Lib

/-! ## 1. The coupling -/

/-- The message pinned in a room. An empty user name stands for no pin. -/
def ChatRoom.pin (r : ChatRoom) : Option (Bytes × Bytes) :=
  if r.pinnedMessage.1 = [] then none else some r.pinnedMessage

/-- The user a connection is logged in as. -/
def Server.user (s : Server) (fd : Fd) : Option Bytes := (s.clients[fd]?).bind (·.map s.name)

/-- The rooms hold what the log says. -/
structure RoomsAgree (log : Log) (rooms : RoomMap) : Prop where
  owner : ∀ n : Int, ownerOf n log = (rooms[n]?).map (·.owner)
  chats : ∀ n : Int, chatsOf n log = ((rooms[n]?).map (·.history)).getD []
  pin : ∀ n : Int, pinOf n log = (rooms[n]?).bind (·.pin)

/-- The server holds what the log says. -/
structure Agrees (log : Log) (s : Server) : Prop where
  account : ∀ u w, s.HasAccount u w ↔ Event.register u w ∈ log
  session : ∀ fd, sessionOf fd log = s.user fd
  room : ∀ fd, roomOf fd log = s.clientInChatRoom[fd]?
  rooms : RoomsAgree log s.chatRooms

theorem Server.new_agrees : Agrees [] Server.new := by
  refine ⟨?_, ?_, ?_, ?_, ?_, ?_⟩ <;> intros <;>
    simp [Server.new, Server.HasAccount, Server.user, sessionOf, roomOf, ownerOf, chatsOf, pinOf,
      era]

/-! ## 2. Accounts and sessions -/

section Sessions

variable {s : Server} {log : Log} {fd : Fd} {p : Ptr}

theorem user_of_get (hp : s.clients[fd]? = some (some p)) : s.user fd = some (s.name p) := by
  simp [Server.user, hp]

theorem user_of_not_mem (hfd : fd ∉ s.clients) : s.user fd = none := by
  simp [Server.user, Map.not_mem_iff.mp hfd]

theorem addUser_hasAccount (hs : s.Inv) (u w u' w' : Bytes) :
    (s.addUser u w).HasAccount u' w' ↔ (u' = u ∧ w' = w) ∨ s.HasAccount u' w' := by
  have hold : ∀ q ∈ s.registerdUser, (s.addUser u w).heap q = s.heap q := fun q hq =>
    Function.update_of_ne (Nat.ne_of_lt (hs.accounts.lt_allocated q hq)) _ _
  have hnew : (s.addUser u w).heap s.allocated = ⟨u, w, ascii "offline"⟩ :=
    Function.update_self _ _ _
  unfold Server.HasAccount
  constructor
  · intro ⟨q, hq, hu, hw⟩
    rcases mem_addUser.mp hq with hq | rfl
    · rw [hold q hq] at hw
      rw [addUser_name hs u w hq] at hu
      exact .inr ⟨q, hq, hu, hw⟩
    · rw [hnew] at hw
      rw [addUser_name_self] at hu
      exact .inl ⟨hu.symm, hw.symm⟩
  · rintro (⟨rfl, rfl⟩ | ⟨q, hq, hu, hw⟩)
    · exact ⟨s.allocated, mem_addUser.mpr (.inr rfl), addUser_name_self s _ _, by rw [hnew]⟩
    · refine ⟨q, mem_addUser.mpr (.inl hq), (addUser_name hs u w hq).trans hu, ?_⟩
      rw [hold q hq]
      exact hw

theorem addUser_user (hs : s.Inv) (u w : Bytes) (fd : Fd) :
    (s.addUser u w).user fd = s.user fd := by
  show (s.clients[fd]?).bind _ = (s.clients[fd]?).bind _
  cases h : s.clients[fd]? with
  | none => rfl
  | some o =>
    obtain ⟨q, hq, rfl, -⟩ := hs.sessions.account fd o h
    exact congrArg some (addUser_name hs u w hq)

/-- A new status leaves passwords as they are. -/
theorem withStatus_hasAccount (status u w : Bytes) :
    (s.withStatus p status).HasAccount u w ↔ s.HasAccount u w := by
  have hw : ∀ q, ((s.withStatus p status).heap q).password = (s.heap q).password := by
    intro q
    simp only [Server.withStatus, Function.update_apply]
    split
    · rename_i e
      rw [e]
    · rfl
  simp only [Server.HasAccount, withStatus_name, hw]
  rfl

theorem logIn_user (fd' : Fd) :
    (s.logIn fd p).user fd' = if fd = fd' then some (s.name p) else s.user fd' := by
  unfold Server.user
  rw [logIn_name]
  show ((s.clients.insert fd (some p))[fd']?).bind _ = _
  rw [Map.get?_insert]
  split <;> rfl

theorem logOut_user (fd' : Fd) :
    (s.logOut fd p).user fd' = if fd = fd' then none else s.user fd' := by
  unfold Server.user
  rw [logOut_name]
  show ((s.clients.erase fd)[fd']?).bind _ = _
  rw [Map.get?_erase]
  split <;> rfl

/-- The order of the accounts does not matter. -/
theorem sortUsers_hasAccount (u w : Bytes) : s.sortUsers.HasAccount u w ↔ s.HasAccount u w := by
  have hp : s.sortUsers.registerdUser.Perm s.registerdUser := List.perm_insertionSort _ _
  simp only [Server.HasAccount, hp.mem_iff]
  rfl

end Sessions

/-! ## 3. Rooms -/

section Rooms

variable {log : Log} {rooms : RoomMap} {e : Event} {n : Int} {r : ChatRoom}

/-- An event that is about no room. -/
theorem RoomsAgree.skip (h : RoomsAgree log rooms)
    (he : ∀ m, e ≠ .close m ∧ enteredBy m e = none ∧ recordIn m e = none ∧ pinIn m e = none) :
    RoomsAgree (e :: log) rooms := by
  refine ⟨fun m => ?_, fun m => ?_, fun m => ?_⟩ <;> obtain ⟨h1, h2, h3, h4⟩ := he m
  · rw [ownerOf_cons, if_neg h1, h2, Option.or_none, h.owner]
  · rw [chatsOf_cons, if_neg h1, h3, Option.toList_none, List.append_nil, h.chats]
  · rw [pinOf_cons, if_neg h1, h4, Option.none_or, Option.join_some, h.pin]

/-- An event in the room `n`, which exists: its owner stays, and its history and its pin follow. -/
theorem RoomsAgree.put (h : RoomsAgree log rooms) (hr : rooms[n]? = some r) {r' : ChatRoom}
    (he : ∀ m, e ≠ .close m)
    (hother : ∀ m, m ≠ n → enteredBy m e = none ∧ recordIn m e = none ∧ pinIn m e = none)
    (ho : r'.owner = r.owner) (hc : r'.history = r.history ++ (recordIn n e).toList)
    (hp : r'.pin = ((pinIn n e).or (some r.pin)).join) :
    RoomsAgree (e :: log) (rooms.insert n r') := by
  refine ⟨fun m => ?_, fun m => ?_, fun m => ?_⟩ <;> rw [Map.get?_insert]
  · rw [ownerOf_cons, if_neg (he m), h.owner]
    by_cases hm : n = m
    · subst hm
      simp [hr, ho]
    · simp [hm, (hother m (Ne.symm hm)).1]
  · rw [chatsOf_cons, if_neg (he m), h.chats]
    by_cases hm : n = m
    · subst hm
      simp [hr, hc]
    · simp [hm, (hother m (Ne.symm hm)).2.1]
  · rw [pinOf_cons, if_neg (he m), h.pin]
    by_cases hm : n = m
    · subst hm
      simp [hr, hp]
    · simp [hm, (hother m (Ne.symm hm)).2.2]

theorem RoomsAgree.create (h : RoomsAgree log rooms) (hnew : n ∉ rooms) (fd : Fd) (u : Bytes) :
    RoomsAgree (.enter fd n u :: log)
      (rooms.insert n { ChatRoom.new u with clients := [fd] }) := by
  have hnone := Map.not_mem_iff.mp hnew
  refine ⟨fun m => ?_, fun m => ?_, fun m => ?_⟩ <;> rw [Map.get?_insert]
  · rw [ownerOf_cons, if_neg (by simp), h.owner]
    by_cases hm : n = m
    · subst hm
      simp [hnone, enteredBy, ChatRoom.new]
    · simp [hm, enteredBy]
  · rw [chatsOf_cons, if_neg (by simp), h.chats]
    by_cases hm : n = m
    · subst hm
      simp [hnone, recordIn, ChatRoom.new]
    · simp [hm, recordIn]
  · rw [pinOf_cons, if_neg (by simp), h.pin]
    by_cases hm : n = m
    · subst hm
      simp [hnone, pinIn, ChatRoom.new, ChatRoom.pin]
    · simp [hm, pinIn]

theorem RoomsAgree.close (h : RoomsAgree log rooms) :
    RoomsAgree (.close n :: log) (rooms.erase n) := by
  refine ⟨fun m => ?_, fun m => ?_, fun m => ?_⟩ <;> rw [Map.get?_erase]
  · rw [ownerOf_cons, h.owner]
    by_cases hm : n = m <;> simp [hm, enteredBy]
  · rw [chatsOf_cons, h.chats]
    by_cases hm : n = m <;> simp [hm, recordIn]
  · rw [pinOf_cons, h.pin]
    by_cases hm : n = m <;> simp [hm, pinIn]

end Rooms

/-! ## 4. The event of a step -/

section Events

variable {s t : Server} {log : Log} {fd : Fd} {tokens : List Bytes} {y : Bytes}

/-- The lobby commands with the number of tokens each takes. -/
def lobbyShapes : List (Bytes × Nat) := lobbyUsages.map fun u => (u.1, u.2.1)

/-- A command takes one number of tokens. -/
theorem lobbyShapes_arity : ∀ u ∈ lobbyShapes, ∀ v ∈ lobbyShapes, u.1 = v.1 → u.2 = v.2 := by
  decide

/-- A lobby command that achieves something is known and complete, and one that asks for a session
    is not answered with the refusal. -/
theorem lobbyEvent_shape {e : Event} (h : lobbyEvent log fd y tokens = some e) :
    (token tokens 0, tokens.length) ∈ lobbyShapes ∧
      (token tokens 0 ∈ sessionCommands → y.head? ≠ some 80) := by
  have key : ∀ c k, token tokens 0 = c → tokens.length = k → (c, k) ∈ lobbyShapes →
      (c ∈ sessionCommands → y.head? ≠ some 80) →
      (token tokens 0, tokens.length) ∈ lobbyShapes ∧
        (token tokens 0 ∈ sessionCommands → y.head? ≠ some 80) := by
    rintro c k rfl rfl hx hy
    exact ⟨hx, hy⟩
  unfold lobbyEvent at h
  split at h
  · split_ifs at h with h1 h2
    · exact key _ 1 h1 rfl (by decide) fun hc => absurd hc (by decide)
    · obtain ⟨h1, x, rfl⟩ := h2
      exact key _ 1 h1 rfl (by decide) fun _ => nofun
  · split at h
    · split_ifs at h with h1 h2
      · obtain ⟨h1, x, rfl⟩ := h1
        exact key _ 2 h1 rfl (by decide) fun _ => nofun
      · obtain ⟨h2, rfl⟩ := h2
        exact key _ 2 h2 rfl (by decide) fun _ => nofun
    · cases h
  · split_ifs at h with h1 h2
    · exact key _ 3 h1.1 rfl (by decide) fun hc => absurd hc (by decide)
    · exact key _ 3 h2.1 rfl (by decide) fun hc => absurd hc (by decide)
  · cases h

theorem lobbyEvent_two {c t : Bytes} (h1 : ¬ (c = ascii "enter-chat-room" ∧ ascii "Welcome " <+: y))
    (h2 : ¬ (c = ascii "close-chat-room" ∧ y = roomWasClosed t ++ ascii "% ")) :
    lobbyEvent log fd y [c, t] = none := by
  unfold lobbyEvent
  dsimp only
  split
  · rw [if_neg h1, if_neg h2]
  · rfl

/-- A lobby command that changes nothing has no event. -/
theorem LobbyAnswer.no_event (h : LobbyAnswer s fd tokens y) :
    lobbyEvent log fd (y ++ ascii "% ") tokens = none := by
  cases h with
  | usage hu h0 hk =>
    refine Option.eq_none_iff_forall_ne_some.mpr fun e he => ?_
    have hshape := (lobbyEvent_shape he).1
    exact hk (lobbyShapes_arity _ hshape _ (List.mem_map_of_mem hu) h0)
  | pleaseLogin h0 hfd =>
    refine Option.eq_none_iff_forall_ne_some.mpr fun e he => ?_
    exact (lobbyEvent_shape he).2 h0 (by decide)
  | nameUsed hu => rfl
  | logoutFirst hfd => rfl
  | loginFailed hfd h => rfl
  | whoami hp => rfl
  | statusFailed hst =>
    exact lobbyEvent_two (fun h => absurd h.1 (by decide)) fun h => absurd h.1 (by decide)
  | notValid hn =>
    refine lobbyEvent_two (fun h => ?_) fun h => absurd h.1 (by decide)
    obtain ⟨-, x, hx⟩ := h
    have hhead := congrArg List.head? hx
    cases hhead
  | roomList hfd => rfl
  | doesNotExist hn =>
    refine lobbyEvent_two (fun h => absurd h.1 (by decide)) fun h => ?_
    have h2 := h.2
    simp [roomDoesNotExist, roomWasClosed, ascii] at h2
  | onlyOwner hp hn hr ho =>
    refine lobbyEvent_two (fun h => absurd h.1 (by decide)) fun h => ?_
    have hhead := congrArg List.head? h.2
    cases hhead
  | unknown h0 =>
    refine Option.eq_none_iff_forall_ne_some.mpr fun e he => ?_
    obtain ⟨u, hu, heq⟩ := List.mem_map.mp (lobbyEvent_shape he).1
    exact h0 u hu (congrArg Prod.fst heq).symm

theorem lobbyEvent_register {u w : Bytes} :
    lobbyEvent log fd (ascii "Register successfully.\n" ++ ascii "% ") [ascii "register", u, w] =
      some (.register u w) := rfl

theorem lobbyEvent_login {u w : Bytes} :
    lobbyEvent log fd (ascii "Welcome, " ++ u ++ ascii ".\n" ++ ascii "% ")
      [ascii "login", u, w] = some (.login fd u) := by
  unfold lobbyEvent
  dsimp only
  rw [if_neg fun h => absurd h.1 (by decide), if_pos ⟨rfl, by simp [ascii]⟩]

theorem lobbyEvent_logout {u : Bytes} :
    lobbyEvent log fd (ascii "Bye, " ++ u) [ascii "logout"] = some (.logout fd) := by
  unfold lobbyEvent
  dsimp only
  rw [if_neg (by decide), if_pos ⟨rfl, List.prefix_append _ _⟩]

theorem lobbyEvent_enter {x : Bytes} {n : Int} (hn : stoi x = .ok n)
    (hy : ascii "Welcome " <+: y) :
    lobbyEvent log fd y [ascii "enter-chat-room", x] =
      some (.enter fd n ((sessionOf fd log).getD [])) := by
  unfold lobbyEvent
  dsimp only
  rw [hn]
  dsimp only
  rw [if_pos ⟨rfl, hy⟩]

theorem roomHeader_welcome (n : Int) (u : Bytes) : ascii "Welcome " <+: roomHeader n u := ⟨_, rfl⟩

theorem lobbyEvent_close {x : Bytes} {n : Int} (hn : stoi x = .ok n) :
    lobbyEvent log fd (roomWasClosed x ++ ascii "% ") [ascii "close-chat-room", x] =
      some (.close n) := by
  unfold lobbyEvent
  dsimp only
  rw [hn]
  dsimp only
  rw [if_neg fun h => absurd h.1 (by decide), if_pos ⟨rfl, rfl⟩]

variable {n : Int}

/-- A command with a slash that is not accepted has no event. -/
theorem roomEvent_none (h0 : (token tokens 0).head? = some 47)
    (h1 : tokens ≠ [ascii "/exit-chat-room"]) (h2 : tokens = [ascii "/delete-pin"] → y ≠ [])
    (h3 : token tokens 0 = ascii "/pin" → ¬ 2 ≤ tokens.length) :
    roomEvent log fd n y tokens = none := by
  unfold roomEvent
  dsimp only
  rw [if_neg h1]
  split
  · rw [if_neg (h2 ‹_›)]
  split
  · rw [if_neg (h3 ‹_›)]
  · rw [if_pos (.inr h0)]

/-- A room command that changes nothing has no event. -/
theorem RoomAnswer.no_event {r : ChatRoom} (h : RoomAnswer s n r tokens y) :
    roomEvent log fd n y tokens = none := by
  cases h with
  | usagePin => rfl
  | @usage c x w ws hu =>
    have hc : c = ascii "/delete-pin" ∨ c = ascii "/exit-chat-room" ∨ c = ascii "/list-user" := by
      simp only [List.mem_cons, Prod.mk.injEq, List.not_mem_nil, or_false] at hu
      exact hu.imp And.left (Or.imp And.left And.left)
    have h0 : c.head? = some 47 ∧ c ≠ ascii "/pin" := by
      rcases hc with rfl | rfl | rfl <;> decide
    exact roomEvent_none h0.1 (by simp) (by simp) fun h => absurd h h0.2
  | noPin hpin => rfl
  | users hne => rfl
  | @unknown w ws hw hno =>
    simp only [List.mem_cons, List.not_mem_nil, or_false, not_or] at hno
    obtain ⟨h1, h2, h3, -⟩ := hno
    refine roomEvent_none hw (fun h => h3 (List.head_eq_of_cons_eq h)) (fun h => ?_)
      fun h => absurd h h1
    exact absurd (List.head_eq_of_cons_eq h) h2

theorem roomEvent_pin {ws : List Bytes} (hws : ws ≠ []) :
    roomEvent log fd n y (ascii "/pin" :: ws) =
      some (.pin n ((sessionOf fd log).getD []) (filtered ws)) := by
  have hne : ∀ c, c ≠ ascii "/pin" → ascii "/pin" :: ws ≠ [c] := fun c hc h =>
    hc (List.head_eq_of_cons_eq h).symm
  have h0 : token (ascii "/pin" :: ws) 0 = ascii "/pin" := rfl
  have hlen : 2 ≤ (ascii "/pin" :: ws).length := Nat.succ_le_succ (List.length_pos_iff.mpr hws)
  unfold roomEvent
  dsimp only
  rw [if_neg (hne _ (by decide)), if_neg (hne _ (by decide)), if_pos h0, if_pos hlen]
  rfl

theorem roomEvent_chat {w : Bytes} {ws : List Bytes} (hw : w.head? ≠ some 47) :
    roomEvent log fd n y (w :: ws) =
      some (.chat n ((sessionOf fd log).getD []) (filtered (w :: ws))) := by
  have hne : ∀ c : Bytes, c.head? = some 47 → w ≠ c := fun c hc h => hw (h ▸ hc)
  have hlist : ∀ c : Bytes, c.head? = some 47 → w :: ws ≠ [c] := fun c hc h =>
    hne c hc (List.head_eq_of_cons_eq h)
  have hpin : token (w :: ws) 0 ≠ ascii "/pin" := hne _ rfl
  have hcond : ¬ (w :: ws = [] ∨ (token (w :: ws) 0).head? = some 47) := by
    rintro (h | h)
    · cases h
    · exact hw h
  unfold roomEvent
  dsimp only
  rw [if_neg (hlist _ rfl), if_neg (hlist _ rfl), if_neg hpin, if_neg hcond]

/-- The filter always answers. -/
theorem filtered_eq {ws : List Bytes} {m : Bytes}
    (h : filterMessage filterWords (joinTokens ws) = some m) : filtered ws = m := by
  rw [filtered, h]
  rfl

end Events

/-! ## 5. Steps and runs -/

section Steps

variable {s t : Server} {log : Log} {fd : Fd} {tokens : List Bytes} {reply : Bytes}
  {es : List Effect}

theorem Agrees.register (hs : s.Inv) (ha : Agrees log s) (u w : Bytes) :
    Agrees (.register u w :: log) (s.addUser u w) where
  account u' w' := by
    rw [addUser_hasAccount hs, ha.account, List.mem_cons, Event.register.injEq]
  session fd' := (ha.session fd').trans (addUser_user hs u w fd').symm
  room := ha.room
  rooms := ha.rooms.skip fun _ => ⟨nofun, rfl, rfl, rfl⟩

theorem Agrees.logIn {p : Ptr} (ha : Agrees log s) :
    Agrees (.login fd (s.name p) :: log) (s.logIn fd p) where
  account u w := by
    rw [List.mem_cons, or_iff_right nofun, ← ha.account]
    exact withStatus_hasAccount (s := s) (p := p) (ascii "online") u w
  session fd' := by
    rw [logIn_user, ← ha.session]
    rfl
  room := ha.room
  rooms := ha.rooms.skip fun _ => ⟨nofun, rfl, rfl, rfl⟩

/-- Logging out, by `logout` or by `exit`. -/
theorem Agrees.logOut {p : Ptr} (ha : Agrees log s) {e : Event}
    (he : e = .logout fd ∨ e = .exit fd) : Agrees (e :: log) (s.logOut fd p) where
  account u w := by
    have hlog : Event.register u w ∈ e :: log ↔ Event.register u w ∈ log := by
      rcases he with rfl | rfl <;> simp
    rw [hlog, ← ha.account]
    exact withStatus_hasAccount (s := s) (p := p) (ascii "offline") u w
  session fd' := by
    rw [logOut_user, ← ha.session]
    rcases he with rfl | rfl <;> rfl
  room fd' := by
    rcases he with rfl | rfl <;> exact ha.room fd'
  rooms := ha.rooms.skip fun m => by rcases he with rfl | rfl <;> exact ⟨nofun, rfl, rfl, rfl⟩

/-- The descriptors the process watches are not part of the log. -/
theorem Agrees.of_masterSet (ha : Agrees log s) (m : Finset Fd) :
    Agrees log { s with masterSet := m } := ⟨ha.account, ha.session, ha.room, ha.rooms⟩

/-- An `exit` without a session. -/
theorem Agrees.exitLobby (ha : Agrees log s) (hfd : fd ∉ s.clients) :
    Agrees (.exit fd :: log) s where
  account u w := by
    rw [List.mem_cons, or_iff_right nofun]
    exact ha.account u w
  session fd' := by
    show (if fd = fd' then none else sessionOf fd' log) = s.user fd'
    split
    · rename_i e
      rw [← e, user_of_not_mem hfd]
    · exact ha.session fd'
  room := ha.room
  rooms := ha.rooms.skip fun _ => ⟨nofun, rfl, rfl, rfl⟩

theorem Agrees.withStatus {p : Ptr} (ha : Agrees log s) (status : Bytes) :
    Agrees log (s.withStatus p status) where
  account u w := by
    rw [withStatus_hasAccount]
    exact ha.account u w
  session fd' := by
    unfold Server.user
    rw [withStatus_name]
    exact ha.session fd'
  room := ha.room
  rooms := ha.rooms

theorem Agrees.sortUsers (ha : Agrees log s) : Agrees log s.sortUsers where
  account u w := by
    rw [sortUsers_hasAccount]
    exact ha.account u w
  session := ha.session
  room := ha.room
  rooms := ha.rooms

/-- An event that concerns the room `n` only, where no connection comes or goes. -/
theorem Agrees.putRoom (ha : Agrees log s) {e : Event} {n : Int} {r : ChatRoom}
    (haccount : ∀ u w, e ≠ .register u w)
    (hsession : ∀ fd, sessionOf fd (e :: log) = sessionOf fd log)
    (hroom : ∀ fd, roomOf fd (e :: log) = roomOf fd log)
    (hrooms : RoomsAgree (e :: log) (s.chatRooms.insert n r)) :
    Agrees (e :: log) (s.putRoom n r) where
  account u w := by
    rw [List.mem_cons, or_iff_right (haccount u w).symm, ← ha.account]
    rfl
  session fd := (hsession fd).trans (ha.session fd)
  room fd := (hroom fd).trans (ha.room fd)
  rooms := hrooms

theorem Agrees.create (ha : Agrees log s) {n : Int} (hnew : n ∉ s.chatRooms) (p : Ptr) :
    Agrees (.enter fd n (s.name p) :: log) (s.createRoom fd n p) where
  account u w := by
    rw [List.mem_cons, or_iff_right nofun, ← ha.account]
    rfl
  session := ha.session
  room fd' := by
    show _ = (s.clientInChatRoom.insert fd n)[fd']?
    rw [Map.get?_insert, ← ha.room]
    rfl
  rooms := ha.rooms.create hnew fd (s.name p)

theorem Agrees.enter (ha : Agrees log s) {n : Int} {r : ChatRoom} (hr : s.chatRooms[n]? = some r)
    (u : Bytes) : Agrees (.enter fd n u :: log) (s.enterRoom fd n r) where
  account u w := by
    rw [List.mem_cons, or_iff_right nofun, ← ha.account]
    rfl
  session := ha.session
  room fd' := by
    show _ = (s.clientInChatRoom.insert fd n)[fd']?
    rw [Map.get?_insert, ← ha.room]
    rfl
  rooms := by
    refine ha.rooms.put hr nofun (fun m hm => ⟨if_neg (Ne.symm hm), rfl, rfl⟩) rfl ?_ rfl
    simp [recordIn]

theorem Agrees.leave (ha : Agrees log s) {n : Int} {r : ChatRoom} (hr : s.chatRooms[n]? = some r) :
    Agrees (.leave fd :: log) (s.leaveRoom fd n r) where
  account u w := by
    rw [List.mem_cons, or_iff_right nofun, ← ha.account]
    rfl
  session := ha.session
  room fd' := by
    show _ = (s.clientInChatRoom.erase fd)[fd']?
    rw [Map.get?_erase, ← ha.room]
    rfl
  rooms := by
    refine ha.rooms.put hr nofun (fun m hm => ⟨rfl, rfl, rfl⟩) rfl ?_ rfl
    simp [recordIn]

theorem Agrees.close (hs : s.Inv) (ha : Agrees log s) {n : Int} {r : ChatRoom}
    (hr : s.chatRooms[n]? = some r) : Agrees (.close n :: log) (s.closeRoom n r) where
  account u w := by
    rw [List.mem_cons, or_iff_right nofun, ← ha.account]
    rfl
  session := ha.session
  room fd' := by
    have hmem : fd' ∈ r.clients ↔ s.clientInChatRoom[fd']? = some n := by
      rw [hs.rooms.member fd' n, hr]
      simp
    show _ = (Map.eraseAll s.clientInChatRoom r.clients)[fd']?
    rw [Map.get?_eraseAll]
    simp only [hmem, roomOf, ha.room]
  rooms := ha.rooms.close

/-- **A lobby command adds its event.** -/
theorem LobbyStep.agrees (hs : s.Inv) (ha : Agrees log s)
    (h : LobbyStep s fd tokens reply es t) :
    Agrees ((lobbyEvent log fd reply tokens).toList ++ log) t := by
  cases h with
  | answers hx =>
    rw [hx.no_event]
    exact ha
  | register hu hfree =>
    rw [lobbyEvent_register]
    exact ha.register hs _ _
  | login hfd hp hu hw hout =>
    rw [lobbyEvent_login, ← hu]
    exact ha.logIn
  | logout hp =>
    rw [List.append_assoc, List.append_assoc, lobbyEvent_logout]
    exact ha.logOut (.inl rfl)
  | setStatus hp hst =>
    rw [lobbyEvent_two (fun h => absurd h.1 (by decide)) fun h => absurd h.1 (by decide)]
    exact ha.withStatus _
  | listUser hfd => exact ha.sortUsers
  | create hp hn h1 hnew =>
    rw [lobbyEvent_enter hn (roomHeader_welcome _ _), ha.session, user_of_get hp]
    exact ha.create hnew _
  | enter hp hn hr =>
    rw [List.append_assoc,
      lobbyEvent_enter hn ((roomHeader_welcome _ _).trans (List.prefix_append _ _))]
    exact ha.enter hr _
  | close hp hn hr ho =>
    rw [lobbyEvent_close hn]
    exact ha.close hs hr

/-- **A room command adds its event.** -/
theorem RoomStep.agrees {n : Int} {r : ChatRoom} {p : Ptr} (hs : s.Inv) (ha : Agrees log s)
    (hp : s.clients[fd]? = some (some p)) (hr : s.chatRooms[n]? = some r)
    (h : RoomStep s fd n r p tokens reply es t) :
    Agrees ((roomEvent log fd n reply tokens).toList ++ log) t := by
  have hu : (sessionOf fd log).getD [] = s.name p := by
    rw [ha.session, user_of_get hp]
    rfl
  have hname : s.name p ≠ [] := hs.accounts.name_ne_nil p (hs.session_of_get hp).1
  cases h with
  | answers hx =>
    rw [hx.no_event]
    exact ha
  | pin hws hm =>
    rw [roomEvent_pin hws, hu, filtered_eq hm]
    refine ha.putRoom nofun (fun _ => rfl) (fun _ => rfl) ?_
    refine ha.rooms.put hr nofun (fun m hm => ⟨rfl, rfl, if_neg (Ne.symm hm)⟩) rfl ?_ ?_
    · simp [recordIn]
    · simp [pinIn, ChatRoom.pin, hname]
  | unpin hpin =>
    refine ha.putRoom (e := .unpin n) nofun (fun _ => rfl) (fun _ => rfl) ?_
    refine ha.rooms.put hr nofun (fun m hm => ⟨rfl, rfl, if_neg (Ne.symm hm)⟩) rfl ?_ ?_
    · simp [recordIn]
    · simp [pinIn, ChatRoom.pin]
  | leave => exact ha.leave hr
  | chat hw hm =>
    rw [roomEvent_chat hw, hu, filtered_eq hm]
    refine ha.putRoom nofun (fun _ => rfl) (fun _ => rfl) ?_
    refine ha.rooms.put hr nofun (fun m hm => ⟨rfl, if_neg (Ne.symm hm), rfl⟩) rfl ?_ rfl
    simp [recordIn]

/-- The answer is the last text the caller is sent. -/
theorem reply_eq {c : Call} {es : List Effect} (h : c.effects = es ++ [.send c.fd reply]) :
    c.reply = reply := by
  rw [Call.reply, h, replyTo_send]

theorem eventOf_lobby (es : List Effect) (ha : Agrees log s) {c : Call}
    (hl : c.fd ∉ s.clientInChatRoom)
    (ht : tokenize c.line = tokens) (h : c.effects = es ++ [.send c.fd reply]) :
    eventOf log c = lobbyEvent log c.fd reply tokens := by
  rw [eventOf, ha.room, Map.not_mem_iff.mp hl, ht, reply_eq h]

theorem eventOf_room (es : List Effect) (ha : Agrees log s) {c : Call} {n : Int}
    (hin : s.clientInChatRoom[c.fd]? = some n) (ht : tokenize c.line = tokens)
    (h : c.effects = es ++ [.send c.fd reply]) :
    eventOf log c = roomEvent log c.fd n reply tokens := by
  rw [eventOf, ha.room, hin, ht, reply_eq h]

/-- A blank line is no event. -/
theorem eventOf_blank {c : Call} (ht : tokenize c.line = []) : eventOf log c = none := by
  unfold eventOf
  rw [ht]
  split <;> rfl

/-- **A call adds its event.** -/
theorem Step.agrees (hs : s.Inv) (ha : Agrees log s) {c : Call}
    (h : Step s c.fd c.list (tokenize c.line) c.effects t c.list') :
    Agrees ((eventOf log c).toList ++ log) t := by
  generalize ht : tokenize c.line = tokens at h
  generalize he : c.effects = es at h
  generalize c.list = list, c.list' = list' at h
  cases h with
  | blank =>
    rw [eventOf_blank ht]
    exact ha
  | lobby hl hne h =>
    rw [eventOf_lobby _ ha hl ht he]
    exact h.agrees hs ha
  | exit hl hfd =>
    have hev : eventOf log c = some (.exit c.fd) :=
      eventOf_lobby [.close c.fd] ha hl ht he
    rw [hev]
    exact (ha.exitLobby hfd).of_masterSet _
  | @exitSession p hl hp =>
    have hev : eventOf log c = some (.exit c.fd) :=
      eventOf_lobby [.send c.fd _, .close c.fd] ha hl ht he
    rw [hev]
    exact (ha.logOut (.inr rfl)).of_masterSet _
  | room hin hp hr hne h =>
    rw [eventOf_room _ ha hin ht he]
    exact h.agrees hs ha hp hr

end Steps

/-- **The server remembers its log**, after every run. -/
theorem run_agrees {cs : List Call} {s : Server} (h : Calls.Run cs s) : Agrees (logOf cs) s := by
  refine h.history_invariant (I := fun cs s => Agrees (logOf cs) s) (fun s hs => ?_)
    fun cs s c t hrun ha hstep => ?_
  · obtain rfl : s = Server.new := hs
    exact Server.new_agrees
  · have hinv := calls_inv ⟨cs, hrun⟩
    exact (handleCommand_step hinv hstep).agrees hinv ha

end InpLabs.Chat
