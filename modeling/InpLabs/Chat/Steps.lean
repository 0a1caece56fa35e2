/-
  File:      InpLabs/Chat/Steps.lean
  Subject:   Everything one call of `handleCommand` can do, and the invariant over whole runs.

  * `LobbyAnswer`, `RoomAnswer`: the replies that leave the server as it is;
  * `LobbyStep`, `RoomStep`, `Step`: the outcomes of a call, each with its guard, the bytes sent
    and the server it leaves;
  * `handleCommand_spec`: on the invariant a call takes one of these steps, or a room number beyond
    `int` ends the process. Nothing else ends it, and no step leaves a silently created room;
  * `Calls`: the runs of `handleCommand`; `calls_inv` is the invariant on every reachable server.
-/
import InpLabs.Chat.Handlers
import InpLabs.Chat.Filter
import InpLabs.Lib.Lts

namespace InpLabs.Chat

open InpLabs.Lib
open ServerM (run)

/-! ## 1. The steps -/

/-- The lobby commands with the number of tokens each takes and the text it refuses others with. -/
def lobbyUsages : List (Bytes × Nat × Bytes) :=
  [(ascii "register", 3, ascii "Usage: register <username> <password>\n"),
    (ascii "login", 3, ascii "Usage: login <username> <password>\n"),
    (ascii "logout", 1, ascii "Usage: logout\n"),
    (ascii "exit", 1, ascii "Usage: exit\n"),
    (ascii "whoami", 1, ascii "Usage: whoami\n"),
    (ascii "set-status", 2, ascii "Usage: set-status <status>\n"),
    (ascii "list-user", 1, ascii "Usage: list-user\n"),
    (ascii "enter-chat-room", 2, ascii "Usage: enter-chat-room <number>\n"),
    (ascii "list-chat-room", 1, ascii "Usage: list-chat-room\n"),
    (ascii "close-chat-room", 2, ascii "Usage: close-chat-room <number>\n")]

/-- The lobby commands that ask for a session. -/
def sessionCommands : List Bytes :=
  [ascii "logout", ascii "whoami", ascii "set-status", ascii "list-user",
    ascii "enter-chat-room", ascii "list-chat-room", ascii "close-chat-room"]

/-- A reply to a lobby command, less the prompt, that changes nothing: the tokens and the text. -/
inductive LobbyAnswer (s : Server) (fd : Fd) : List Bytes → Bytes → Prop where
  | usage {tokens : List Bytes} {c x : Bytes} {k : Nat} (hu : (c, k, x) ∈ lobbyUsages)
      (h0 : token tokens 0 = c) (hk : tokens.length ≠ k) : LobbyAnswer s fd tokens x
  | pleaseLogin {tokens : List Bytes} (h0 : token tokens 0 ∈ sessionCommands)
      (hfd : fd ∉ s.clients) : LobbyAnswer s fd tokens pleaseLogin
  | nameUsed {u w : Bytes} (hu : s.Registered u) :
      LobbyAnswer s fd [ascii "register", u, w] (ascii "Username is already used.\n")
  | logoutFirst {u w : Bytes} (hfd : fd ∈ s.clients) :
      LobbyAnswer s fd [ascii "login", u, w] (ascii "Please logout first.\n")
  | loginFailed {u w : Bytes} (hfd : fd ∉ s.clients)
      (h : u ∈ s.loggedInUsers ∨ ¬ s.HasAccount u w) :
      LobbyAnswer s fd [ascii "login", u, w] (ascii "Login failed.\n")
  | whoami {p : Ptr} (hp : s.clients[fd]? = some (some p)) :
      LobbyAnswer s fd [ascii "whoami"] (s.name p ++ ascii "\n")
  | statusFailed {status : Bytes} (hst : ¬ validStatus status) :
      LobbyAnswer s fd [ascii "set-status", status] (ascii "set-status failed\n")
  | notValid {t : Bytes} (hn : stoi t = .error .invalidArgument ∨
        ∃ n, stoi t = .ok n ∧ (n < 1 ∨ 100 < n)) :
      LobbyAnswer s fd [ascii "enter-chat-room", t]
        (ascii "Number " ++ t ++ ascii " is not valid.\n")
  | roomList (hfd : fd ∈ s.clients) : LobbyAnswer s fd [ascii "list-chat-room"] (roomList s)
  | doesNotExist {t : Bytes} (hn : stoi t = .error .invalidArgument ∨
        ∃ n, stoi t = .ok n ∧ n ∉ s.chatRooms) :
      LobbyAnswer s fd [ascii "close-chat-room", t] (roomDoesNotExist t)
  | onlyOwner {t : Bytes} {n : Int} {p : Ptr} {r : ChatRoom} (hp : s.clients[fd]? = some (some p))
      (hn : stoi t = .ok n) (hr : s.chatRooms[n]? = some r) (ho : r.owner ≠ s.name p) :
      LobbyAnswer s fd [ascii "close-chat-room", t]
        (ascii "Only the owner can close this chat room.\n")
  | unknown {tokens : List Bytes} (h0 : ∀ u ∈ lobbyUsages, token tokens 0 ≠ u.1) :
      LobbyAnswer s fd tokens (ascii "Error: Unknown command\n")

/-- The room commands that take a fixed form, and the text each refuses other forms with. -/
inductive RoomAnswer (s : Server) (n : Int) (r : ChatRoom) : List Bytes → Bytes → Prop where
  | usagePin : RoomAnswer s n r [ascii "/pin"] (ascii "Usage: /pin <message>\n")
  | usage {c x w : Bytes} {ws : List Bytes}
      (hu : (c, x) ∈ [(ascii "/delete-pin", ascii "Usage: /delete-pin\n"),
        (ascii "/exit-chat-room", ascii "Usage: /exit-chat-room\n"),
        (ascii "/list-user", ascii "Usage: /list-user\n")]) : RoomAnswer s n r (c :: w :: ws) x
  | noPin (hpin : r.pinnedMessage.1 = []) :
      RoomAnswer s n r [ascii "/delete-pin"]
        (ascii "No pin message in chat room " ++ toStringInt n ++ ascii "\n")
  | users (hne : r.clients ≠ []) : RoomAnswer s n r [ascii "/list-user"]
        (((memberPtrs s r).insertionSort (byName s.heap)).flatMap fun p => userLine (s.heap p))
  | unknown {w : Bytes} {ws : List Bytes} (hw : w.head? = some 47)
      (hno : w ∉ [ascii "/pin", ascii "/delete-pin", ascii "/exit-chat-room", ascii "/list-user"]) :
      RoomAnswer s n r (w :: ws) (ascii "Error: Unknown command\n")

/-- A lobby command of `fd` that leaves the connection open: its tokens, its reply, what it sends
    to others first, and the server after it. -/
inductive LobbyStep (s : Server) (fd : Fd) :
    List Bytes → Bytes → List Effect → Server → Prop where
  | answers {tokens : List Bytes} {x : Bytes} (hx : LobbyAnswer s fd tokens x) :
      LobbyStep s fd tokens (x ++ ascii "% ") [] s
  | register {u w : Bytes} (hu : u ≠ []) (hfree : ¬ s.Registered u) :
      LobbyStep s fd [ascii "register", u, w] (ascii "Register successfully.\n" ++ ascii "% ") []
        (s.addUser u w)
  | login {u w : Bytes} {p : Ptr} (hfd : fd ∉ s.clients) (hp : p ∈ s.registerdUser)
      (hu : s.name p = u) (hw : (s.heap p).password = w) (hout : u ∉ s.loggedInUsers) :
      LobbyStep s fd [ascii "login", u, w] (ascii "Welcome, " ++ u ++ ascii ".\n" ++ ascii "% ") []
        (s.logIn fd p)
  | logout {p : Ptr} (hp : s.clients[fd]? = some (some p)) :
      LobbyStep s fd [ascii "logout"] (ascii "Bye, " ++ s.name p ++ ascii ".\n" ++ ascii "% ") []
        (s.logOut fd p)
  | setStatus {p : Ptr} {status : Bytes} (hp : s.clients[fd]? = some (some p))
      (hst : validStatus status) :
      LobbyStep s fd [ascii "set-status", status]
        (s.name p ++ ascii " " ++ status ++ ascii "\n" ++ ascii "% ") [] (s.withStatus p status)
  | listUser (hfd : fd ∈ s.clients) :
      LobbyStep s fd [ascii "list-user"]
        ((s.sortUsers.registerdUser.flatMap fun p => userLine (s.heap p)) ++ ascii "% ") []
        s.sortUsers
  | create {t : Bytes} {n : Int} {p : Ptr} (hp : s.clients[fd]? = some (some p))
      (hn : stoi t = .ok n) (h1 : 1 ≤ n ∧ n ≤ 100) (hnew : n ∉ s.chatRooms) :
      LobbyStep s fd [ascii "enter-chat-room", t] (roomHeader n (s.name p)) []
        (s.createRoom fd n p)
  | enter {t : Bytes} {n : Int} {p : Ptr} {r : ChatRoom} (hp : s.clients[fd]? = some (some p))
      (hn : stoi t = .ok n) (hr : s.chatRooms[n]? = some r) :
      LobbyStep s fd [ascii "enter-chat-room", t]
        (roomHeader n r.owner ++ latestRecords r.history ++ pinnedLine r)
        (toOthers (r.clients ++ [fd]) fd (s.name p ++ ascii " had enter the chat room.\n"))
        (s.enterRoom fd n r)
  | close {t : Bytes} {n : Int} {p : Ptr} {r : ChatRoom} (hp : s.clients[fd]? = some (some p))
      (hn : stoi t = .ok n) (hr : s.chatRooms[n]? = some r) (ho : r.owner = s.name p) :
      LobbyStep s fd [ascii "close-chat-room", t] (roomWasClosed t ++ ascii "% ")
        (toOthers r.clients fd (roomWasClosed t ++ ascii "% ")) (s.closeRoom n r)

/-- A command of `fd` in room `n`, which holds `r`, while logged in to the account `p`. -/
inductive RoomStep (s : Server) (fd : Fd) (n : Int) (r : ChatRoom) (p : Ptr) :
    List Bytes → Bytes → List Effect → Server → Prop where
  | answers {tokens : List Bytes} {x : Bytes} (hx : RoomAnswer s n r tokens x) :
      RoomStep s fd n r p tokens x [] s
  | pin {ws : List Bytes} {m : Bytes} (hws : ws ≠ [])
      (hm : filterMessage filterWords (joinTokens ws) = some m) :
      RoomStep s fd n r p (ascii "/pin" :: ws) (pinLine (s.name p) m)
        (toOthers r.clients fd (pinLine (s.name p) m))
        (s.putRoom n { r with pinnedMessage := (s.name p, m) })
  | unpin (hpin : r.pinnedMessage.1 ≠ []) :
      RoomStep s fd n r p [ascii "/delete-pin"] [] []
        (s.putRoom n { r with pinnedMessage := ([], []) })
  | leave : RoomStep s fd n r p [ascii "/exit-chat-room"] (ascii "% ")
        (toOthers (r.clients.erase fd) fd (s.name p ++ ascii " had left the chat room.\n"))
        (s.leaveRoom fd n r)
  | chat {w : Bytes} {ws : List Bytes} {m : Bytes} (hw : w.head? ≠ some 47)
      (hm : filterMessage filterWords (joinTokens (w :: ws)) = some m) :
      RoomStep s fd n r p (w :: ws) (chatLine (s.name p) m)
        (toOthers r.clients fd (chatLine (s.name p) m))
        (s.putRoom n { r with history := r.history ++ [⟨s.name p, m⟩] })

/-- One call of `handleCommand`: the tokens of its line, all it sends, the server and the socket
    list it leaves. -/
inductive Step (s : Server) (fd : Fd) (list : List Fd) :
    List Bytes → List Effect → Server → List Fd → Prop where
  | blank : Step s fd list [] [.send fd (if fd ∈ s.clientInChatRoom then [] else ascii "% ")] s list
  | lobby {tokens : List Bytes} {reply : Bytes} {es : List Effect} {t : Server}
      (hl : fd ∉ s.clientInChatRoom) (hne : tokens ≠ []) (h : LobbyStep s fd tokens reply es t) :
      Step s fd list tokens (es ++ [.send fd reply]) t list
  | exit (hl : fd ∉ s.clientInChatRoom) (hfd : fd ∉ s.clients) :
      Step s fd list [ascii "exit"] [.close fd, .send fd (ascii "% ")] (s.removeSocket fd)
        (freeSlot fd list)
  | exitSession {p : Ptr} (hl : fd ∉ s.clientInChatRoom) (hp : s.clients[fd]? = some (some p)) :
      Step s fd list [ascii "exit"]
        [.send fd (ascii "Bye, " ++ s.name p ++ ascii ".\n"), .close fd,
          .send fd (ascii "Bye, " ++ s.name p ++ ascii ".\n" ++ ascii "% ")]
        ((s.logOut fd p).removeSocket fd) (freeSlot fd list)
  | room {tokens : List Bytes} {reply : Bytes} {es : List Effect} {t : Server} {n : Int}
      {r : ChatRoom} {p : Ptr} (hin : s.clientInChatRoom[fd]? = some n)
      (hp : s.clients[fd]? = some (some p)) (hr : s.chatRooms[n]? = some r) (hne : tokens ≠ [])
      (h : RoomStep s fd n r p tokens reply es t) :
      Step s fd list tokens (es ++ [.send fd reply]) t list

/-- The lines on which `std::stoi` throws `out_of_range`, which nothing catches. -/
def Overflow (tokens : List Bytes) : Prop :=
  ∃ c t, tokens = [c, t] ∧ (c = ascii "enter-chat-room" ∨ c = ascii "close-chat-room") ∧
    stoi t = .error .outOfRange

/-! ## 2. Dispatch -/

section Dispatch

variable {s : Server} {fd : Fd} {tokens : List Bytes}

theorem prompted_run {x : ServerM Bytes} {reply : Bytes} {t : Server} {es : List Effect}
    (h : x.run s = .ok (reply, t, es)) :
    (prompted x).run s = .ok (reply ++ ascii "% ", t, es) := by
  unfold prompted
  rw [run_bind h]
  simp only [run_pure, after_ok, List.append_nil]

theorem prompted_error {x : ServerM Bytes} {e : Fault} (h : x.run s = .error e) :
    (prompted x).run s = .error e := run_bind_error h

/-- A handler's outcome is a lobby step, or the process ends on a room number. -/
def LobbyOk (s : Server) (fd : Fd) (tokens : List Bytes) (x : ServerM Bytes) : Prop :=
  (∃ reply es t, x.run s = .ok (reply, t, es) ∧ LobbyStep s fd tokens reply es t) ∨
    (x.run s = .error .outOfRange ∧ Overflow tokens)

theorem LobbyOk.answers {x : ServerM Bytes} {y : Bytes} (hy : LobbyAnswer s fd tokens y)
    (h : x.run s = .ok (y ++ ascii "% ", s, [])) : LobbyOk s fd tokens x :=
  .inl ⟨_, _, _, h, .answers hy⟩

theorem LobbyOk.prompted_answers {x : ServerM Bytes} {y : Bytes} (hy : LobbyAnswer s fd tokens y)
    (h : x.run s = .ok (y, s, [])) : LobbyOk s fd tokens (prompted x) :=
  .answers hy (prompted_run h)

/-- The two refusals of a handler that asks for a session, once its reply gets the prompt. -/
theorem LobbyOk.withSession (hs : s.Inv) {c usage : Bytes} {k : Nat} {body : ServerM Bytes}
    (hu : (c, k, usage) ∈ lobbyUsages) (hc : c ∈ sessionCommands) (h0 : token tokens 0 = c)
    (h : tokens.length = k → fd ∈ s.clients → LobbyOk s fd tokens
      (prompted (withSession (decide (tokens.length = k)) usage pleaseLogin fd body))) :
    LobbyOk s fd tokens
      (prompted (withSession (decide (tokens.length = k)) usage pleaseLogin fd body)) := by
  by_cases hk : tokens.length = k
  · by_cases hfd : fd ∈ s.clients
    · exact h hk hfd
    · rw [decide_eq_true hk]
      exact .prompted_answers (.pleaseLogin (h0 ▸ hc) hfd) (withSession_refused hs hfd)
  · rw [decide_eq_false hk]
    exact .prompted_answers (.usage hu h0 hk) withSession_usage

theorem one_token {tokens : List Bytes} {c : Bytes} (h : token tokens 0 = c)
    (hl : tokens.length = 1) : tokens = [c] := by
  obtain ⟨a, rfl⟩ := List.length_eq_one_iff.mp hl
  exact congrArg (fun x => [x]) h

theorem two_tokens {tokens : List Bytes} {c : Bytes} (h : token tokens 0 = c)
    (hl : tokens.length = 2) : ∃ t, tokens = [c, t] := by
  obtain ⟨a, b, rfl⟩ := List.length_eq_two.mp hl
  exact ⟨b, congrArg (fun x => [x, b]) h⟩

theorem three_tokens {tokens : List Bytes} {c : Bytes} (h : token tokens 0 = c)
    (hl : tokens.length = 3) : ∃ u w, tokens = [c, u, w] := by
  obtain ⟨a, b, d, rfl⟩ := List.length_eq_three.mp hl
  exact ⟨b, d, congrArg (fun x => [x, b, d]) h⟩

theorem register_lobby (hword : ∀ w ∈ tokens, w ≠ []) (h : token tokens 0 = ascii "register") :
    LobbyOk s fd tokens (prompted (registerUser tokens)) := by
  by_cases hl : tokens.length = 3
  · obtain ⟨u, w, rfl⟩ := three_tokens h hl
    by_cases hr : s.Registered u
    · exact .prompted_answers (.nameUsed hr) (registerUser_taken hr)
    · exact .inl ⟨_, _, _, prompted_run (registerUser_ok hr), .register (hword u (by simp)) hr⟩
  · exact .prompted_answers (.usage (by decide) h hl) (registerUser_usage hl)

theorem login_lobby (hs : s.Inv) (h : token tokens 0 = ascii "login") :
    LobbyOk s fd tokens (prompted (loginUser tokens fd)) := by
  by_cases hl : tokens.length = 3
  · obtain ⟨u, w, rfl⟩ := three_tokens h hl
    by_cases hfd : fd ∈ s.clients
    · exact .prompted_answers (.logoutFirst hfd) (loginUser_busy hs hfd)
    · by_cases hok : u ∈ s.loggedInUsers ∨ ¬ s.HasAccount u w
      · exact .prompted_answers (.loginFailed hfd hok) (loginUser_failed hs hfd hok)
      · obtain ⟨hout, hacc⟩ := not_or.mp hok
        obtain ⟨p, hp, hu, hw⟩ := not_not.mp hacc
        exact .inl ⟨_, _, _, prompted_run (loginUser_ok hs hfd hp hu hw hout),
          .login hfd hp hu hw hout⟩
  · exact .prompted_answers (.usage (by decide) h hl) (loginUser_usage hl)

theorem logout_lobby (hs : s.Inv) (h : token tokens 0 = ascii "logout") :
    LobbyOk s fd tokens (prompted (logoutUser tokens fd)) := by
  refine .withSession hs (by decide) (by decide) h fun hl hfd => ?_
  obtain rfl := one_token h hl
  obtain ⟨p, _, hp, _⟩ := hs.session_of_mem hfd
  exact .inl ⟨_, _, _, prompted_run (logoutUser_ok hs hp), .logout hp⟩

theorem whoami_lobby (hs : s.Inv) (h : token tokens 0 = ascii "whoami") :
    LobbyOk s fd tokens (prompted (getwhoami tokens fd)) := by
  refine .withSession hs (by decide) (by decide) h fun hl hfd => ?_
  obtain rfl := one_token h hl
  obtain ⟨p, _, hp, _⟩ := hs.session_of_mem hfd
  exact .prompted_answers (.whoami hp) (getwhoami_ok hs hp)

theorem setStatus_lobby (hs : s.Inv) (h : token tokens 0 = ascii "set-status") :
    LobbyOk s fd tokens (prompted (setClientStatus tokens fd)) := by
  refine .withSession hs (by decide) (by decide) h fun hl hfd => ?_
  obtain ⟨t, rfl⟩ := two_tokens h hl
  obtain ⟨p, _, hp, _⟩ := hs.session_of_mem hfd
  by_cases hst : validStatus t
  · exact .inl ⟨_, _, _, prompted_run (setClientStatus_ok hs hp hst), .setStatus hp hst⟩
  · exact .prompted_answers (.statusFailed hst) (setClientStatus_failed hs hfd hst)

theorem listUser_lobby (hs : s.Inv) (h : token tokens 0 = ascii "list-user") :
    LobbyOk s fd tokens (prompted (listUser tokens fd)) := by
  refine .withSession hs (by decide) (by decide) h fun hl hfd => ?_
  obtain rfl := one_token h hl
  exact .inl ⟨_, _, _, prompted_run (listUser_ok hs hfd), .listUser hfd⟩

theorem listChatRoom_lobby (hs : s.Inv) (h : token tokens 0 = ascii "list-chat-room") :
    LobbyOk s fd tokens (prompted (listChatRoom tokens fd)) := by
  refine .withSession hs (by decide) (by decide) h fun hl hfd => ?_
  obtain rfl := one_token h hl
  exact .prompted_answers (.roomList hfd) (listChatRoom_ok hs hfd)

theorem numberNotValid_eq (t : Bytes) :
    numberNotValid t = ascii "Number " ++ t ++ ascii " is not valid.\n" ++ ascii "% " := by
  simp [numberNotValid, ascii]

theorem enterChatRoom_lobby (hs : s.Inv) (h : token tokens 0 = ascii "enter-chat-room") :
    LobbyOk s fd tokens (enterChatRoom tokens fd) := by
  by_cases hl : tokens.length = 2
  · obtain ⟨t, rfl⟩ := two_tokens h hl
    by_cases hfd : fd ∈ s.clients
    · obtain ⟨p, _, hp, _⟩ := hs.session_of_mem hfd
      cases hn : stoi t with
      | error e =>
        cases e with
        | invalidArgument =>
          exact .answers (.notValid (.inl hn))
            (by rw [enterChatRoom_invalid hs hfd (.inl hn), numberNotValid_eq])
        | outOfRange =>
          exact .inr ⟨enterChatRoom_overflow hs hfd hn, _, t, rfl, .inl rfl, hn⟩
      | ok n =>
        by_cases hr : n < 1 ∨ 100 < n
        · exact .answers (.notValid (.inr ⟨n, hn, hr⟩))
            (by rw [enterChatRoom_invalid hs hfd (.inr ⟨n, hn, hr⟩), numberNotValid_eq])
        · have h1 : 1 ≤ n ∧ n ≤ 100 := by omega
          by_cases hnew : n ∈ s.chatRooms
          · obtain ⟨r, hr⟩ := Map.mem_iff.mp hnew
            exact .inl ⟨_, _, _, enterChatRoom_enter hs hp hn hr, .enter hp hn hr⟩
          · exact .inl ⟨_, _, _, enterChatRoom_create hs hp hn h1 hnew, .create hp hn h1 hnew⟩
    · exact .answers (.pleaseLogin (by rw [h]; decide) hfd) (withSession_refused hs hfd)
  · refine .answers (.usage (x := ascii "Usage: enter-chat-room <number>\n") (by decide) h hl) ?_
    unfold enterChatRoom
    rw [decide_eq_false hl, withSession_usage]
    rfl

theorem closeChatRoom_lobby (hs : s.Inv) (h : token tokens 0 = ascii "close-chat-room") :
    LobbyOk s fd tokens (prompted (closeChatRoom tokens fd)) := by
  refine .withSession hs (by decide) (by decide) h fun hl hfd => ?_
  obtain ⟨t, rfl⟩ := two_tokens h hl
  obtain ⟨p, _, hp, _⟩ := hs.session_of_mem hfd
  cases hn : stoi t with
  | error e =>
    cases e with
    | invalidArgument =>
      exact .prompted_answers (.doesNotExist (.inl hn)) (closeChatRoom_missing hs hfd (.inl hn))
    | outOfRange =>
      exact .inr ⟨prompted_error (closeChatRoom_overflow hs hfd hn), _, t, rfl, .inr rfl, hn⟩
  | ok n =>
    by_cases hnew : n ∈ s.chatRooms
    · obtain ⟨r, hr⟩ := Map.mem_iff.mp hnew
      by_cases ho : r.owner = s.name p
      · exact .inl ⟨_, _, _, prompted_run (closeChatRoom_ok hs hp hn hr ho), .close hp hn hr ho⟩
      · exact .prompted_answers (.onlyOwner hp hn hr ho) (closeChatRoom_notOwner hs hp hn hr ho)
    · exact .prompted_answers (.doesNotExist (.inr ⟨n, hn, hnew⟩))
        (closeChatRoom_missing hs hfd (.inr ⟨n, hn, hnew⟩))

/-- **A lobby command that leaves the connection open takes a lobby step.** -/
theorem lobbyReply_ok (hs : s.Inv) (hword : ∀ w ∈ tokens, w ≠ [])
    (hexit : token tokens 0 ≠ ascii "exit") : LobbyOk s fd tokens (lobbyReply tokens fd) := by
  unfold lobbyReply
  dsimp only
  split
  · exact register_lobby hword ‹_›
  split
  · exact login_lobby hs ‹_›
  split
  · exact logout_lobby hs ‹_›
  split
  · exact whoami_lobby hs ‹_›
  split
  · exact setStatus_lobby hs ‹_›
  split
  · exact listUser_lobby hs ‹_›
  split
  · exact enterChatRoom_lobby hs ‹_›
  split
  · exact listChatRoom_lobby hs ‹_›
  split
  · exact closeChatRoom_lobby hs ‹_›
  · refine .answers (.unknown ?_) rfl
    simp_all [lobbyUsages]

variable {n : Int} {r : ChatRoom} {p : Ptr}

/-- The outcome of a room command is a room step. -/
def RoomOutcome (s : Server) (fd : Fd) (n : Int) (r : ChatRoom) (p : Ptr) (tokens : List Bytes)
    (x : ServerM Bytes) : Prop :=
  ∃ reply es t, x.run s = .ok (reply, t, es) ∧ RoomStep s fd n r p tokens reply es t

theorem RoomOutcome.answers {x : ServerM Bytes} {y : Bytes} (hy : RoomAnswer s n r tokens y)
    (h : x.run s = .ok (y, s, [])) : RoomOutcome s fd n r p tokens x :=
  ⟨_, _, _, h, .answers hy⟩

theorem two_or_more {tokens : List Bytes} {c : Bytes} (hne : tokens ≠ []) (h : token tokens 0 = c)
    (hl : tokens.length ≠ 1) : ∃ w ws, tokens = c :: w :: ws := by
  match tokens, hne, hl with
  | [a], _, hl => exact absurd rfl hl
  | a :: w :: ws, _, _ => exact ⟨w, ws, congrArg (fun x => x :: w :: ws) h⟩

section RoomCommand

variable (hs : s.Inv) (hin : s.clientInChatRoom[fd]? = some n)
  (hp : s.clients[fd]? = some (some p)) (hr : s.chatRooms[n]? = some r)

include hs hin hr

theorem unpin_room (hne : tokens ≠ []) (h : token tokens 0 = ascii "/delete-pin") :
    RoomOutcome s fd n r p tokens (deletePinMessage tokens fd) := by
  by_cases hl : tokens.length = 1
  · obtain rfl := one_token h hl
    by_cases hpin : r.pinnedMessage.1 = []
    · exact .answers (.noPin hpin) (deletePinMessage_none hs hin hr hpin)
    · exact ⟨_, _, _, deletePinMessage_ok hs hin hr hpin, .unpin hpin⟩
  · obtain ⟨w, ws, rfl⟩ := two_or_more hne h hl
    refine .answers (.usage (x := ascii "Usage: /delete-pin\n") (by decide)) ?_
    unfold deletePinMessage
    rw [decide_eq_false hl, withSession_usage]

theorem list_room (hne : tokens ≠ []) (h : token tokens 0 = ascii "/list-user") :
    RoomOutcome s fd n r p tokens (listUserinChatRoom tokens fd) := by
  by_cases hl : tokens.length = 1
  · obtain rfl := one_token h hl
    -- the caller is a member, so the listing has a line
    have hfd := hs.listed hin hr
    exact .answers (.users (List.ne_nil_of_mem hfd)) (listUserinChatRoom_ok hs hin hr)
  · obtain ⟨w, ws, rfl⟩ := two_or_more hne h hl
    refine .answers (.usage (x := ascii "Usage: /list-user\n") (by decide)) ?_
    unfold listUserinChatRoom
    rw [decide_eq_false hl, withSession_usage]

omit hin in
/-- The filter of a room masks every message, as the whole list does. -/
theorem room_filter (message : Bytes) : ∃ m, filterMessage filterWords message = some m ∧
    filterMessage r.filterList message = some m := by
  obtain ⟨m, hm⟩ := filter_isSome message
  refine ⟨m, hm, ?_⟩
  rw [(hs.rooms.ok n r hr).filter]
  exact hm

include hp

theorem pin_room (hne : tokens ≠ []) (h : token tokens 0 = ascii "/pin") :
    RoomOutcome s fd n r p tokens (setPinMessage tokens fd) := by
  by_cases hl : 2 ≤ tokens.length
  · obtain ⟨c, d, ws, rfl⟩ : ∃ c d ws, tokens = c :: d :: ws := by
      match tokens, hl with
      | c :: d :: ws, _ => exact ⟨c, d, ws, rfl⟩
    obtain rfl : c = ascii "/pin" := h
    obtain ⟨m, hm, hm'⟩ := room_filter hs hr (joinTokens (d :: ws))
    exact ⟨_, _, _, setPinMessage_ok hs hin hp hr (List.cons_ne_nil d ws) hm',
      .pin (List.cons_ne_nil d ws) hm⟩
  · have hlen : tokens.length = 1 := by
      have := List.length_pos_iff.mpr hne
      omega
    obtain rfl := one_token h hlen
    refine .answers .usagePin ?_
    unfold setPinMessage
    rw [decide_eq_false hl, withSession_usage]

theorem leave_room (hne : tokens ≠ []) (h : token tokens 0 = ascii "/exit-chat-room") :
    RoomOutcome s fd n r p tokens (exitChatRoom tokens fd) := by
  by_cases hl : tokens.length = 1
  · obtain rfl := one_token h hl
    exact ⟨_, _, _, exitChatRoom_ok hs hin hp hr, .leave⟩
  · obtain ⟨w, ws, rfl⟩ := two_or_more hne h hl
    refine .answers (.usage (x := ascii "Usage: /exit-chat-room\n") (by decide)) ?_
    unfold exitChatRoom
    rw [decide_eq_false hl, withSession_usage]

theorem chat_room (hne : tokens ≠ []) (h : (token tokens 0).head? ≠ some 47) :
    RoomOutcome s fd n r p tokens (sendMessage tokens fd) := by
  obtain ⟨w, ws, rfl⟩ := List.exists_cons_of_ne_nil hne
  obtain ⟨m, hm, hm'⟩ := room_filter hs hr (joinTokens (w :: ws))
  exact ⟨_, _, _, sendMessage_ok hin hp hr hm', .chat h hm⟩

/-- **A room command takes a room step.** -/
theorem roomCommand_ok (hne : tokens ≠ []) :
    RoomOutcome s fd n r p tokens (roomCommand tokens fd) := by
  unfold roomCommand
  dsimp only
  split
  · exact pin_room hs hin hp hr hne ‹_›
  split
  · exact unpin_room hs hin hr hne ‹_›
  split
  · exact leave_room hs hin hp hr hne ‹_›
  split
  · exact list_room hs hin hr hne ‹_›
  split
  · obtain ⟨w, ws, rfl⟩ := List.exists_cons_of_ne_nil hne
    refine .answers (.unknown ‹_› ?_) rfl
    simp_all [token]
  · exact chat_room hs hin hp hr hne ‹_›

end RoomCommand

end Dispatch

/-! ## 3. The calls -/

section HandleCommand

variable {s : Server} {fd : Fd} {line : Bytes} {list : List Fd}

theorem handleCommand_blank (h : tokenize line = []) :
    (handleCommand fd line list).run s =
      .ok (list, s, [.send fd (if fd ∈ s.clientInChatRoom then [] else ascii "% ")]) := by
  simp [handleCommand, h, run_bind (send_run _ _)]

theorem handleCommand_room (hne : tokenize line ≠ []) (hin : fd ∈ s.clientInChatRoom)
    {reply : Bytes} {t : Server} {es : List Effect}
    (h : (roomCommand (tokenize line) fd).run s = .ok (reply, t, es)) :
    (handleCommand fd line list).run s = .ok (list, t, es ++ [.send fd reply]) := by
  simp [handleCommand, hne, hin, run_bind h, run_bind (send_run _ _)]

theorem handleCommand_lobby (hne : tokenize line ≠ []) (hl : fd ∉ s.clientInChatRoom)
    {reply : Bytes} {list' : List Fd} {t : Server} {es : List Effect}
    (h : (lobbyCommand (tokenize line) fd list).run s = .ok ((reply, list'), t, es)) :
    (handleCommand fd line list).run s = .ok (list', t, es ++ [.send fd reply]) := by
  simp [handleCommand, hne, hl, run_bind h, run_bind (send_run _ _)]

theorem handleCommand_error (hne : tokenize line ≠ []) (hl : fd ∉ s.clientInChatRoom) {e : Fault}
    (h : (lobbyCommand (tokenize line) fd list).run s = .error e) :
    (handleCommand fd line list).run s = .error e := by
  simp [handleCommand, hne, hl, run_bind_error h]

theorem lobbyCommand_reply {tokens : List Bytes} (h : token tokens 0 ≠ ascii "exit")
    {reply : Bytes} {t : Server} {es : List Effect}
    (hx : (lobbyReply tokens fd).run s = .ok (reply, t, es)) :
    (lobbyCommand tokens fd list).run s = .ok ((reply, list), t, es) := by
  simp [lobbyCommand, h, run_bind hx]

theorem lobbyCommand_exit {tokens : List Bytes} (h : tokens = [ascii "exit"]) {reply : Bytes}
    {list' : List Fd} {t : Server} {es : List Effect}
    (hx : (exitUser [ascii "exit"] fd list).run s = .ok ((reply, list'), t, es)) :
    (lobbyCommand tokens fd list).run s = .ok ((reply ++ ascii "% ", list'), t, es) := by
  subst h
  simp [lobbyCommand, token, run_bind hx]

/-- **What a call does on a server that keeps its invariant**: one of the steps, or the end of the
    process on a room number beyond `int`. -/
theorem handleCommand_spec (hs : s.Inv) (fd : Fd) (line : Bytes) (list : List Fd) :
    (∃ list' t es, (handleCommand fd line list).run s = .ok (list', t, es) ∧
      Step s fd list (tokenize line) es t list') ∨
    ((handleCommand fd line list).run s = .error .outOfRange ∧ Overflow (tokenize line)) := by
  by_cases hne : tokenize line = []
  · exact .inl ⟨_, _, _, handleCommand_blank hne, hne ▸ .blank⟩
  by_cases hin : fd ∈ s.clientInChatRoom
  · obtain ⟨n, hn⟩ := Map.mem_iff.mp hin
    obtain ⟨p, r, hp, hr, -⟩ := hs.member_data hn
    obtain ⟨reply, es, t, hx, hstep⟩ := roomCommand_ok hs hn hp hr hne
    exact .inl ⟨_, _, _, handleCommand_room hne hin hx, .room hn hp hr hne hstep⟩
  by_cases hexit : token (tokenize line) 0 = ascii "exit"
  · by_cases hlen : (tokenize line).length = 1
    · have htok := one_token hexit hlen
      by_cases hfd : fd ∈ s.clients
      · obtain ⟨p, _, hp, _⟩ := hs.session_of_mem hfd
        have hx := lobbyCommand_exit htok (exitUser_session hs hp list)
        refine .inl ⟨_, _, _, handleCommand_lobby hne hin hx, ?_⟩
        rw [htok]
        exact .exitSession hin hp
      · have hx := lobbyCommand_exit htok (exitUser_lobby hs hfd list)
        refine .inl ⟨_, _, _, handleCommand_lobby hne hin hx, ?_⟩
        rw [htok]
        exact .exit hin hfd
    · have hx : (lobbyCommand (tokenize line) fd list).run s =
          .ok ((ascii "Usage: exit\n" ++ ascii "% ", list), s, []) := by
        simp [lobbyCommand, hexit, run_bind (exitUser_usage hlen list)]
      exact .inl ⟨_, _, _, handleCommand_lobby hne hin hx,
        .lobby hin hne (.answers (.usage (by decide) hexit hlen))⟩
  · rcases lobbyReply_ok hs (fun w => ne_nil_of_mem_tokenize) hexit with
      ⟨reply, es, t, hx, hstep⟩ | ⟨hx, hov⟩
    · exact .inl ⟨_, _, _, handleCommand_lobby hne hin (lobbyCommand_reply hexit hx),
        .lobby hin hne hstep⟩
    · refine .inr ⟨handleCommand_error hne hin ?_, hov⟩
      simp [lobbyCommand, hexit, run_bind_error hx]

/-- A call that returns has taken a step. -/
theorem handleCommand_step (hs : s.Inv) {list' : List Fd} {t : Server} {es : List Effect}
    (h : (handleCommand fd line list).run s = .ok (list', t, es)) :
    Step s fd list (tokenize line) es t list' := by
  rcases handleCommand_spec hs fd line list with ⟨_, _, _, h', hstep⟩ | ⟨h', -⟩
  · rw [h] at h'
    cases h'
    exact hstep
  · rw [h] at h'
    cases h'

end HandleCommand

/-! ## 4. The invariant over whole runs -/

section Invariant

variable {s t : Server} {fd : Fd} {tokens : List Bytes} {es : List Effect}

theorem LobbyStep.inv (hs : s.Inv) (hl : fd ∉ s.clientInChatRoom) {reply : Bytes}
    (h : LobbyStep s fd tokens reply es t) : t.Inv := by
  cases h with
  | answers => exact hs
  | register hu hfree => exact addUser_inv hs _ hu hfree
  | login hfd hp hu hw hout => exact logIn_inv hs hfd hp (hu ▸ hout)
  | logout hp => exact logOut_inv hs hp hl
  | setStatus hp hst => exact withStatus_inv hs _ _
  | listUser hfd => exact sortUsers_inv hs
  | create hp hn h1 hnew => exact createRoom_inv hs hp hl h1 hnew
  | enter hp hn hr => exact enterRoom_inv hs (Map.mem_of_get? hp) hl hr
  | close hp hn hr ho => exact closeRoom_inv hs hr

theorem RoomStep.inv (hs : s.Inv) {n : Int} {r : ChatRoom} {p : Ptr} {reply : Bytes}
    (hin : s.clientInChatRoom[fd]? = some n) (hr : s.chatRooms[n]? = some r)
    (h : RoomStep s fd n r p tokens reply es t) : t.Inv := by
  cases h with
  | answers => exact hs
  | pin hws hm => exact putRoom_inv hs hr rfl rfl rfl
  | unpin hpin => exact putRoom_inv hs hr rfl rfl rfl
  | leave => exact leaveRoom_inv hs hr (hs.listed hin hr)
  | chat hw hm => exact putRoom_inv hs hr rfl rfl rfl

/-- **Every step keeps the invariant.** -/
theorem Step.inv (hs : s.Inv) {list list' : List Fd} (h : Step s fd list tokens es t list') :
    t.Inv := by
  cases h with
  | blank => exact hs
  | lobby hl hne h => exact h.inv hs hl
  | exit hl hfd => exact hs.of_masterSet _
  | exitSession hl hp => exact (logOut_inv hs hp hl).of_masterSet _
  | room hin hp hr hne h => exact h.inv hs hin hr

end Invariant

/-- A call of `handleCommand` that returned: its arguments, and what it did. -/
structure Call where
  fd : Fd
  line : Bytes
  list : List Fd
  list' : List Fd
  effects : List Effect

/-- The runs of `handleCommand`, from the empty server, by any connections with any lines. -/
def Calls : Lts Server Call where
  init s := s = Server.new
  step s c t := (handleCommand c.fd c.line c.list).run s = .ok (c.list', t, c.effects)

/-- **The invariant holds on every reachable server.** -/
theorem calls_inv {s : Server} (h : Calls.Reachable s) : s.Inv :=
  h.invariant (fun s (hs : s = Server.new) => hs ▸ Server.new_inv)
    fun s c _ hs (hstep : (handleCommand c.fd c.line c.list).run s = _) =>
      (handleCommand_step hs hstep).inv hs

/-- A list of lines, each from its connection, after the calls `cs`. -/
def runLines (cs : List Call) (s : Server) :
    List (Fd × Bytes) → Except Fault (List Call × Server)
  | [] => .ok (cs, s)
  | (fd, line) :: rest =>
    match (handleCommand fd line []).run s with
    | .error e => .error e
    | .ok (list', t, es) => runLines (⟨fd, line, [], list', es⟩ :: cs) t rest

theorem runLines_run {lines : List (Fd × Bytes)} {cs cs' : List Call} {s t : Server}
    (hs : Calls.Run cs s) (h : runLines cs s lines = .ok (cs', t)) : Calls.Run cs' t := by
  induction lines generalizing cs s with
  | nil =>
    cases h
    exact hs
  | cons c rest ih =>
    unfold runLines at h
    split at h
    · cases h
    · rename_i list' s' es hc
      have hstep : Calls.step s ⟨c.1, c.2, [], list', es⟩ s' := hc
      exact ih (hs.step hstep) h

/-- The calls these lines make on the empty server, and the server they lead to. -/
def afterLines (lines : List (Fd × Bytes)) : List Call × Server :=
  match runLines [] Server.new lines with
  | .ok r => r
  | .error _ => ([], Server.new)

def callsAfter (lines : List (Fd × Bytes)) : List Call := (afterLines lines).1

def serverAfter (lines : List (Fd × Bytes)) : Server := (afterLines lines).2

theorem afterLines_run (lines : List (Fd × Bytes)) :
    Calls.Run (callsAfter lines) (serverAfter lines) := by
  have hnew : Calls.Run [] Server.new := .start rfl
  unfold callsAfter serverAfter afterLines
  split
  · exact runLines_run hnew ‹_›
  · exact hnew

theorem serverAfter_reachable (lines : List (Fd × Bytes)) :
    Calls.Reachable (serverAfter lines) := ⟨_, afterLines_run lines⟩

end InpLabs.Chat
