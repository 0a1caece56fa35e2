/-
  File:      InpLabs/Chat/Handlers.lean
  Subject:   What each handler does on a server that keeps its invariant.

  * section 1: how `run` passes through the operations of `ServerM`;
  * section 2: the subscripts and the opening checks. On `Server.Inv` no subscript inserts and no
    pointer is null (`client_run`, `room_run`, `notLoggedIn_run`);
  * sections 3 to 5: one equation for each way a handler can end. Later modules cite these and
    never unfold a handler.
-/
import InpLabs.Chat.Inv

namespace InpLabs.Chat

open InpLabs.Lib
open ServerM (get modify emit fail run)

/-! ## 1. Running a handler -/

/-- The result of what follows, with the effects of what came before. -/
def after {α : Type} (es : List Effect) :
    Except Fault (α × Server × List Effect) → Except Fault (α × Server × List Effect)
  | .error e => .error e
  | .ok (a, s, es') => .ok (a, s, es ++ es')

section Run

variable {α β : Type} {s : Server}

@[simp] theorem after_nil (r : Except Fault (α × Server × List Effect)) : after [] r = r := by
  cases r <;> rfl

@[simp] theorem after_ok (es es' : List Effect) (a : α) :
    after es (.ok (a, s, es')) = .ok (a, s, es ++ es') := rfl

/-- A step that returns hands its answer, its server and its effects on. -/
theorem run_bind {x : ServerM α} {f : α → ServerM β} {a : α} {t : Server} {es : List Effect}
    (h : x.run s = .ok (a, t, es)) : (x >>= f).run s = after es ((f a).run t) := by
  show (match x s with | .error e => _ | .ok (a, s₁, e₁) => _) = _
  rw [show x s = .ok (a, t, es) from h]
  show (match f a t with | .error e => _ | .ok (b, s₂, e₂) => _) = after es (f a t)
  cases f a t <;> rfl

theorem run_bind_error {x : ServerM α} {f : α → ServerM β} {e : Fault} (h : x.run s = .error e) :
    (x >>= f).run s = .error e := by
  show (match x s with | .error e => _ | .ok (a, s₁, e₁) => _) = _
  rw [show x s = .error e from h]

@[simp] theorem run_pure (a : α) : (pure a : ServerM α).run s = .ok (a, s, []) := rfl

@[simp] theorem run_get : get.run s = .ok (s, s, []) := rfl

@[simp] theorem run_modify (f : Server → Server) : (modify f).run s = .ok ((), f s, []) := rfl

@[simp] theorem run_emit (es : List Effect) : (emit es).run s = .ok ((), s, es) := rfl

@[simp] theorem run_fail (e : Fault) : (fail e : ServerM α).run s = .error e := rfl

@[simp] theorem run_bind_get (f : Server → ServerM β) : (get >>= f).run s = (f s).run s := by
  rw [run_bind run_get, after_nil]

@[simp] theorem run_bind_modify (g : Server → Server) (f : Unit → ServerM β) :
    (modify g >>= f).run s = (f ()).run (g s) := by
  rw [run_bind (run_modify g), after_nil]

@[simp] theorem run_bind_emit (es : List Effect) (f : Unit → ServerM β) :
    (emit es >>= f).run s = after es ((f ()).run s) := run_bind (run_emit es)

@[simp] theorem run_ite {c : Prop} [Decidable c] (x y : ServerM α) :
    (if c then x else y).run s = if c then x.run s else y.run s := by
  split <;> rfl

@[simp] theorem send_run (fd : Fd) (bytes : Bytes) :
    (send fd bytes).run s = .ok ((), s, [.send fd bytes]) := rfl

/-- The messages a broadcast sends. -/
def toOthers (members : List Fd) (fd : Fd) (bytes : Bytes) : List Effect :=
  (members.filter (· ≠ fd)).map (.send · bytes)

@[simp] theorem broadcast_run (members : List Fd) (fd : Fd) (bytes : Bytes) :
    (broadcast members fd bytes).run s = .ok ((), s, toOthers members fd bytes) := rfl

end Run

/-! ## 2. Subscripts and opening checks -/

section Subscripts

variable {s : Server} {fd : Fd} {p : Ptr} {n : Int} {r : ChatRoom}

theorem clientPtr_run (h : s.clients[fd]? = some (some p)) :
    (clientPtr fd).run s = .ok (some p, s, []) := by
  simp [clientPtr, h]

theorem client_run (h : s.clients[fd]? = some (some p)) :
    (client fd).run s = .ok (s.heap p, s, []) := by
  unfold client
  rw [run_bind (clientPtr_run h)]
  rfl

theorem setStatus_run (h : s.clients[fd]? = some (some p)) (status : Bytes) :
    (setStatus fd status).run s = .ok ((), s.withStatus p status, []) := by
  unfold setStatus
  rw [run_bind (clientPtr_run h)]
  rfl

theorem room_run (h : s.chatRooms[n]? = some r) : (room n).run s = .ok (r, s, []) := by
  simp [room, h]

theorem modifyRoom_run (h : s.chatRooms[n]? = some r) (f : ChatRoom → ChatRoom) :
    (modifyRoom n f).run s = .ok ((), s.putRoom n (f r), []) := by
  unfold modifyRoom
  rw [run_bind (room_run h)]
  rfl

theorem currentRoom_run (h : s.clientInChatRoom[fd]? = some n) :
    (currentRoom fd).run s = .ok (n, s, []) := by
  simp [currentRoom, h]

/-- On the invariant the double check of the handlers is one: the descriptor has a session. -/
theorem notLoggedIn_run (hs : s.Inv) (fd : Fd) :
    (notLoggedIn fd).run s = .ok (decide (fd ∉ s.clients), s, []) := by
  unfold notLoggedIn
  by_cases h : fd ∈ s.clients
  · obtain ⟨p, _, hp, hl⟩ := hs.session_of_mem h
    have hl' : (s.heap p).username ∈ s.loggedInUsers := hl
    simp [h, run_bind (client_run hp), hl']
  · simp [h]

variable {usage refusal : Bytes} {body : ServerM Bytes}

theorem withSession_usage : (withSession false usage refusal fd body).run s =
    .ok (usage, s, []) := by
  simp [withSession]

theorem withSession_refused (hs : s.Inv) (h : fd ∉ s.clients) :
    (withSession true usage refusal fd body).run s = .ok (refusal, s, []) := by
  simp [withSession, run_bind (notLoggedIn_run hs fd), h]

theorem withSession_passed (hs : s.Inv) (h : fd ∈ s.clients) :
    (withSession true usage refusal fd body).run s = body.run s := by
  simp [withSession, run_bind (notLoggedIn_run hs fd), h]

theorem withRoom_passed (h : fd ∈ s.clientInChatRoom) :
    (withRoom refusal fd body).run s = body.run s := by
  simp [withRoom, h]

end Subscripts

/-! ## 3. Accounts and sessions -/

section Accounts

variable {s : Server} {fd : Fd} {p : Ptr} {tokens : List Bytes} {c u w : Bytes}

theorem registerUser_usage (h : tokens.length ≠ 3) : (registerUser tokens).run s =
    .ok (ascii "Usage: register <username> <password>\n", s, []) := by
  simp [registerUser, h]

theorem registered_any : (s.registerdUser.any fun p => (s.heap p).username = u) = true ↔
    s.Registered u := by
  simp [Server.Registered, Server.name]

theorem registerUser_taken (h : s.Registered u) : (registerUser [c, u, w]).run s =
    .ok (ascii "Username is already used.\n", s, []) := by
  have h' := registered_any.mpr h
  simp only [registerUser, List.length_cons, List.length_nil, token, List.getD_cons_succ,
    List.getD_cons_zero, run_bind_get, run_ite, h', if_true, run_pure]
  rfl

theorem registerUser_ok (h : ¬ s.Registered u) : (registerUser [c, u, w]).run s =
    .ok (ascii "Register successfully.\n", s.addUser u w, []) := by
  have h' := mt registered_any.mp h
  simp only [registerUser, List.length_cons, List.length_nil, token, List.getD_cons_succ,
    List.getD_cons_zero, run_bind_get, run_ite, h', run_bind_modify, run_pure]
  rfl

theorem loginUser_usage (h : tokens.length ≠ 3) : (loginUser tokens fd).run s =
    .ok (ascii "Usage: login <username> <password>\n", s, []) := by
  simp [loginUser, h]

theorem loginUser_busy (hs : s.Inv) (h : fd ∈ s.clients) : (loginUser [c, u, w] fd).run s =
    .ok (ascii "Please logout first.\n", s, []) := by
  simp [loginUser, run_bind (notLoggedIn_run hs fd), h]

/-- An account with the name and the password. -/
def Server.HasAccount (s : Server) (u w : Bytes) : Prop :=
  ∃ p ∈ s.registerdUser, s.name p = u ∧ (s.heap p).password = w

theorem findAccount_none (h : ¬ s.HasAccount u w) : s.findAccount u w = none := by
  refine List.find?_eq_none.mpr fun p hp he => ?_
  obtain ⟨h1, h2, _⟩ := of_decide_eq_true he
  exact h ⟨p, hp, h1, h2⟩

theorem findAccount_some (hs : s.Inv) (hp : p ∈ s.registerdUser) (hu : s.name p = u)
    (hw : (s.heap p).password = w) (hout : u ∉ s.loggedInUsers) : s.findAccount u w = some p := by
  cases hq : s.findAccount u w with
  | none => exact absurd (decide_eq_true ⟨hu, hw, hout⟩) (List.find?_eq_none.mp hq p hp)
  | some q =>
    have hq' : q ∈ s.registerdUser := List.mem_of_find?_eq_some hq
    have h1 := of_decide_eq_true (List.find?_some (p := fun p => decide ((s.heap p).username = u ∧
      (s.heap p).password = w ∧ u ∉ s.loggedInUsers)) hq)
    rw [hs.accounts.name_inj q hq' p hp (h1.1.trans hu.symm)]

theorem loginUser_failed (hs : s.Inv) (hfd : fd ∉ s.clients)
    (h : u ∈ s.loggedInUsers ∨ ¬ s.HasAccount u w) : (loginUser [c, u, w] fd).run s =
    .ok (ascii "Login failed.\n", s, []) := by
  by_cases hu : u ∈ s.loggedInUsers
  · simp [loginUser, run_bind (notLoggedIn_run hs fd), hfd, token, hu]
  · have hno := findAccount_none (h.resolve_left hu)
    simp [loginUser, run_bind (notLoggedIn_run hs fd), hfd, token, hno]

theorem loginUser_ok (hs : s.Inv) (hfd : fd ∉ s.clients) (hp : p ∈ s.registerdUser)
    (hu : s.name p = u) (hw : (s.heap p).password = w) (hout : u ∉ s.loggedInUsers) :
    (loginUser [c, u, w] fd).run s =
      .ok (ascii "Welcome, " ++ u ++ ascii ".\n", s.logIn fd p, []) := by
  have hfind := findAccount_some hs hp hu hw hout
  subst hu
  have hset : (setStatus fd (ascii "online")).run
      { s with clients := s.clients.insert fd (some p) } = .ok ((), _, []) :=
    setStatus_run (p := p) (by simp) _
  simp [loginUser, run_bind (notLoggedIn_run hs fd), hfd, token, hout, hfind, run_bind hset]
  rfl

theorem logoutUser_ok (hs : s.Inv) (hp : s.clients[fd]? = some (some p)) :
    (logoutUser [c] fd).run s =
      .ok (ascii "Bye, " ++ s.name p ++ ascii ".\n", s.logOut fd p, []) := by
  have hset := setStatus_run
    (s := { s with loggedInUsers := s.loggedInUsers.erase (s.heap p).username }) hp
    (ascii "offline")
  unfold logoutUser
  rw [show decide ([c].length = 1) = true from rfl, withSession_passed hs (Map.mem_of_get? hp),
    run_bind (client_run hp), after_nil, run_bind (client_run hp), after_nil, run_bind_modify,
    run_bind hset]
  rfl

theorem exitUser_usage (h : tokens.length ≠ 1) (list : List Fd) :
    (exitUser tokens fd list).run s = .ok ((ascii "Usage: exit\n", list), s, []) := by
  simp [exitUser, h]

theorem exitUser_lobby (hs : s.Inv) (h : fd ∉ s.clients) (list : List Fd) :
    (exitUser [c] fd list).run s =
      .ok (([], freeSlot fd list), s.removeSocket fd, [.close fd]) := by
  simp [exitUser, run_bind (notLoggedIn_run hs fd), h]

theorem exitUser_session (hs : s.Inv) (hp : s.clients[fd]? = some (some p)) (list : List Fd) :
    (exitUser [c] fd list).run s =
      .ok ((ascii "Bye, " ++ s.name p ++ ascii ".\n", freeSlot fd list),
        (s.logOut fd p).removeSocket fd,
        [.send fd (ascii "Bye, " ++ s.name p ++ ascii ".\n"), .close fd]) := by
  have h := Map.mem_of_get? hp
  simp [exitUser, run_bind (notLoggedIn_run hs fd), h, run_bind (logoutUser_ok hs hp),
    run_bind (send_run _ _)]

theorem getwhoami_ok (hs : s.Inv) (hp : s.clients[fd]? = some (some p)) :
    (getwhoami [c] fd).run s = .ok (s.name p ++ ascii "\n", s, []) := by
  unfold getwhoami
  rw [show decide ([c].length = 1) = true from rfl, withSession_passed hs (Map.mem_of_get? hp),
    run_bind (client_run hp)]
  rfl

/-- The three values `set-status` accepts. -/
def validStatus (status : Bytes) : Prop :=
  status = ascii "online" ∨ status = ascii "offline" ∨ status = ascii "busy"

theorem setClientStatus_failed (hs : s.Inv) (h : fd ∈ s.clients) (hu : ¬ validStatus u) :
    (setClientStatus [c, u] fd).run s = .ok (ascii "set-status failed\n", s, []) := by
  have hu' : u ≠ ascii "online" ∧ u ≠ ascii "offline" ∧ u ≠ ascii "busy" := by
    simpa [validStatus, not_or] using hu
  unfold setClientStatus
  rw [show decide ([c, u].length = 2) = true from rfl, withSession_passed hs h]
  simp [token, hu']

theorem setClientStatus_ok (hs : s.Inv) (hp : s.clients[fd]? = some (some p))
    (hu : validStatus u) : (setClientStatus [c, u] fd).run s =
      .ok (s.name p ++ ascii " " ++ u ++ ascii "\n", s.withStatus p u, []) := by
  have hu' : ¬ (u ≠ ascii "online" ∧ u ≠ ascii "offline" ∧ u ≠ ascii "busy") := by
    rcases hu with h | h | h <;> simp [h]
  have hp' : (s.withStatus p u).clients[fd]? = some (some p) := hp
  have hname : ((s.withStatus p u).heap p).username = s.name p :=
    congrFun (withStatus_name s p u) p
  unfold setClientStatus
  rw [show decide ([c, u].length = 2) = true from rfl, withSession_passed hs (Map.mem_of_get? hp)]
  simp only [token, List.getD_cons_succ, List.getD_cons_zero, if_neg hu',
    run_bind (setStatus_run hp u), run_bind (client_run hp'), after_nil, run_pure, hname]

theorem listUser_ok (hs : s.Inv) (h : fd ∈ s.clients) : (listUser [c] fd).run s =
    .ok (s.sortUsers.registerdUser.flatMap fun p => userLine (s.heap p), s.sortUsers, []) := by
  unfold listUser
  rw [show decide ([c].length = 1) = true from rfl, withSession_passed hs h]
  rfl

end Accounts

/-! ## 4. Rooms, seen from the lobby -/

section Lobby

variable {s : Server} {fd : Fd} {p : Ptr} {n : Int} {r : ChatRoom} {c t : Bytes}

theorem enterChatRoom_invalid (hs : s.Inv) (h : fd ∈ s.clients)
    (hn : stoi t = .error .invalidArgument ∨ ∃ n, stoi t = .ok n ∧ (n < 1 ∨ 100 < n)) :
    (enterChatRoom [c, t] fd).run s = .ok (numberNotValid t, s, []) := by
  unfold enterChatRoom
  rw [show decide ([c, t].length = 2) = true from rfl, withSession_passed hs h]
  rcases hn with hn | ⟨n, hn, hr⟩
  · simp [token, hn]
  · simp [token, hn, hr]

theorem enterChatRoom_overflow (hs : s.Inv) (h : fd ∈ s.clients)
    (hn : stoi t = .error .outOfRange) :
    (enterChatRoom [c, t] fd).run s = .error .outOfRange := by
  unfold enterChatRoom
  rw [show decide ([c, t].length = 2) = true from rfl, withSession_passed hs h]
  simp [token, hn]

theorem enterChatRoom_create (hs : s.Inv) (hp : s.clients[fd]? = some (some p))
    (hn : stoi t = .ok n) (h1 : 1 ≤ n ∧ n ≤ 100) (hnew : n ∉ s.chatRooms) :
    (enterChatRoom [c, t] fd).run s =
      .ok (roomHeader n (s.name p), s.createRoom fd n p, []) := by
  have hr : ¬ (n < 1 ∨ 100 < n) := by omega
  have hmod := modifyRoom_run (n := n)
    (s := { s with chatRooms := s.chatRooms.insert n (.new (s.heap p).username) })
    (r := .new (s.heap p).username) (by simp) fun r => { r with clients := r.clients ++ [fd] }
  unfold enterChatRoom
  rw [show decide ([c, t].length = 2) = true from rfl, withSession_passed hs (Map.mem_of_get? hp)]
  simp only [token, List.getD_cons_succ, List.getD_cons_zero, hn, if_neg hr, run_bind_get, hnew,
    not_false_eq_true, if_true, run_bind (client_run hp), after_nil, run_bind_modify,
    run_bind hmod]
  rw [run_bind (client_run (p := p) ?_)]
  · simp [Server.createRoom, Server.putRoom, ChatRoom.new, Server.name]
  · exact hp

/-- What the pinned message adds to the reply of `enter-chat-room`. -/
def pinnedLine (r : ChatRoom) : Bytes :=
  if r.pinnedMessage.1 ≠ [] then pinLine r.pinnedMessage.1 r.pinnedMessage.2 else []

theorem enterChatRoom_enter (hs : s.Inv) (hp : s.clients[fd]? = some (some p))
    (hn : stoi t = .ok n) (hr : s.chatRooms[n]? = some r) :
    (enterChatRoom [c, t] fd).run s =
      .ok (roomHeader n r.owner ++ latestRecords r.history ++ pinnedLine r, s.enterRoom fd n r,
        toOthers (r.clients ++ [fd]) fd (s.name p ++ ascii " had enter the chat room.\n")) := by
  have h1 := (hs.rooms.ok n r hr).number
  have hrange : ¬ (n < 1 ∨ 100 < n) := by omega
  have hmod := modifyRoom_run hr fun r => { r with clients := r.clients ++ [fd] }
  have hroom := room_run (n := n) (s := s.putRoom n { r with clients := r.clients ++ [fd] })
    (r := { r with clients := r.clients ++ [fd] }) (by simp [Server.putRoom])
  unfold enterChatRoom
  rw [show decide ([c, t].length = 2) = true from rfl, withSession_passed hs (Map.mem_of_get? hp)]
  simp only [token, List.getD_cons_succ, List.getD_cons_zero, hn, if_neg hrange, run_bind_get,
    Map.mem_of_get? hr, not_true_eq_false, if_false, run_bind hmod, after_nil, run_bind hroom,
    run_bind_modify]
  rw [run_bind (client_run (p := p) ?_), after_nil, run_bind (broadcast_run _ _ _)]
  · simp only [run_pure, after_ok, List.append_nil]
    rfl
  · exact hp

/-- One line for each room. -/
def roomList (s : Server) : Bytes :=
  (s.chatRooms.keys.insertionSort (· ≤ ·)).flatMap fun n =>
    match s.chatRooms[n]? with
    | some r => r.owner ++ ascii " " ++ toStringInt n ++ ascii "\n"
    | none => []

/-- A loop of reads gives the values read. -/
theorem mapM_run {α β : Type} {f : α → ServerM β} {g : α → β} {l : List α}
    (h : ∀ a ∈ l, (f a).run s = .ok (g a, s, [])) :
    (l.mapM f).run s = .ok (l.map g, s, []) := by
  -- the loop carries what it has read, last first
  have hloop : ∀ (l : List α) (acc : List β), (∀ a ∈ l, (f a).run s = .ok (g a, s, [])) →
      (List.mapM.loop f l acc).run s = .ok (acc.reverse ++ l.map g, s, []) := by
    intro l
    induction l with
    | nil =>
      intro acc _
      simp [List.mapM.loop]
    | cons a l ih =>
      intro acc h
      rw [List.mapM.loop, run_bind (h a List.mem_cons_self), after_nil,
        ih _ fun b hb => h b (List.mem_cons_of_mem _ hb)]
      simp
  exact hloop l [] h

theorem listChatRoom_ok (hs : s.Inv) (h : fd ∈ s.clients) :
    (listChatRoom [c] fd).run s = .ok (roomList s, s, []) := by
  have hm : ∀ n ∈ s.chatRooms.keys.insertionSort (· ≤ ·),
      (do return (← room n).owner ++ ascii " " ++ toStringInt n ++ ascii "\n" :
        ServerM Bytes).run s = .ok (match s.chatRooms[n]? with
          | some r => r.owner ++ ascii " " ++ toStringInt n ++ ascii "\n"
          | none => [], s, []) := by
    intro n hn
    have hn' : n ∈ s.chatRooms :=
      Std.ExtTreeMap.mem_keys.mp ((List.perm_insertionSort _ _).mem_iff.mp hn)
    obtain ⟨r, hr⟩ := Map.mem_iff.mp hn'
    rw [run_bind (room_run hr), hr]
    rfl
  unfold listChatRoom
  rw [show decide ([c].length = 1) = true from rfl, withSession_passed hs h, run_bind_get,
    run_bind (mapM_run hm)]
  simp only [run_pure, after_ok, List.append_nil, roomList, List.flatMap]

theorem closeChatRoom_missing (hs : s.Inv) (h : fd ∈ s.clients)
    (hn : stoi t = .error .invalidArgument ∨ ∃ n, stoi t = .ok n ∧ n ∉ s.chatRooms) :
    (closeChatRoom [c, t] fd).run s = .ok (roomDoesNotExist t, s, []) := by
  unfold closeChatRoom
  rw [show decide ([c, t].length = 2) = true from rfl, withSession_passed hs h]
  rcases hn with hn | ⟨n, hn, hr⟩
  · simp [token, hn]
  · simp [token, hn, hr]

theorem closeChatRoom_overflow (hs : s.Inv) (h : fd ∈ s.clients)
    (hn : stoi t = .error .outOfRange) :
    (closeChatRoom [c, t] fd).run s = .error .outOfRange := by
  unfold closeChatRoom
  rw [show decide ([c, t].length = 2) = true from rfl, withSession_passed hs h]
  simp [token, hn]

theorem closeChatRoom_notOwner (hs : s.Inv) (hp : s.clients[fd]? = some (some p))
    (hn : stoi t = .ok n) (hr : s.chatRooms[n]? = some r) (ho : r.owner ≠ s.name p) :
    (closeChatRoom [c, t] fd).run s =
      .ok (ascii "Only the owner can close this chat room.\n", s, []) := by
  have ho' : r.owner ≠ (s.heap p).username := ho
  unfold closeChatRoom
  rw [show decide ([c, t].length = 2) = true from rfl, withSession_passed hs (Map.mem_of_get? hp)]
  simp [token, hn, Map.mem_of_get? hr, run_bind (room_run hr), run_bind (client_run hp), ho']

theorem closeChatRoom_ok (hs : s.Inv) (hp : s.clients[fd]? = some (some p))
    (hn : stoi t = .ok n) (hr : s.chatRooms[n]? = some r) (ho : r.owner = s.name p) :
    (closeChatRoom [c, t] fd).run s =
      .ok (roomWasClosed t, s.closeRoom n r,
        toOthers r.clients fd (roomWasClosed t ++ ascii "% ")) := by
  have ho' : r.owner = (s.heap p).username := ho
  unfold closeChatRoom
  rw [show decide ([c, t].length = 2) = true from rfl, withSession_passed hs (Map.mem_of_get? hp)]
  simp [token, hn, Map.mem_of_get? hr, run_bind (room_run hr), run_bind (client_run hp), ho',
    run_bind (broadcast_run _ _ _), Server.closeRoom]

end Lobby

/-! ## 5. Commands inside a room -/

section Room

variable {s : Server} {fd : Fd} {p : Ptr} {n : Int} {r : ChatRoom} {c m : Bytes}
  {tokens ws : List Bytes}

theorem masked_run (hr : s.chatRooms[n]? = some r) {message : Bytes}
    (hm : filterMessage r.filterList message = some m) :
    (masked n message).run s = .ok (m, s, []) := by
  unfold masked
  rw [run_bind (room_run hr), after_nil, hm]
  rfl

/-- Reading a room that has just been changed. -/
theorem room_put_run (r' : ChatRoom) : (room n).run (s.putRoom n r') =
    .ok (r', s.putRoom n r', []) :=
  room_run (by simp [Server.putRoom])

theorem setPinMessage_ok (hs : s.Inv) (hin : s.clientInChatRoom[fd]? = some n)
    (hp : s.clients[fd]? = some (some p)) (hr : s.chatRooms[n]? = some r) (hws : ws ≠ [])
    (hm : filterMessage r.filterList (joinTokens ws) = some m) :
    (setPinMessage (c :: ws) fd).run s =
      .ok (pinLine (s.name p) m, s.putRoom n { r with pinnedMessage := (s.name p, m) },
        toOthers r.clients fd (pinLine (s.name p) m)) := by
  have hlen : decide (2 ≤ (c :: ws).length) = true := by
    have := List.length_pos_iff.mpr hws
    simp only [List.length_cons, decide_eq_true_eq]
    omega
  have hmod := modifyRoom_run hr fun r => { r with pinnedMessage := ((s.heap p).username, m) }
  unfold setPinMessage
  rw [hlen, withSession_passed hs (Map.mem_of_get? hp), withRoom_passed (Map.mem_of_get? hin),
    run_bind (currentRoom_run hin), after_nil, List.tail_cons, run_bind (masked_run hr hm),
    after_nil, run_bind (client_run hp), after_nil, run_bind hmod, after_nil,
    run_bind (room_put_run _), after_nil, run_bind (broadcast_run _ _ _)]
  simp only [run_pure, after_ok, List.append_nil]
  rfl

theorem deletePinMessage_none (hs : s.Inv) (hin : s.clientInChatRoom[fd]? = some n)
    (hr : s.chatRooms[n]? = some r) (hpin : r.pinnedMessage.1 = []) :
    (deletePinMessage [c] fd).run s =
      .ok (ascii "No pin message in chat room " ++ toStringInt n ++ ascii "\n", s, []) := by
  unfold deletePinMessage
  rw [show decide ([c].length = 1) = true from rfl,
    withSession_passed hs (hs.rooms.session fd n hin), withRoom_passed (Map.mem_of_get? hin),
    run_bind (currentRoom_run hin), after_nil, run_bind (room_run hr), after_nil, run_ite,
    if_pos hpin]
  rfl

theorem deletePinMessage_ok (hs : s.Inv) (hin : s.clientInChatRoom[fd]? = some n)
    (hr : s.chatRooms[n]? = some r) (hpin : r.pinnedMessage.1 ≠ []) :
    (deletePinMessage [c] fd).run s =
      .ok ([], s.putRoom n { r with pinnedMessage := ([], []) }, []) := by
  unfold deletePinMessage
  rw [show decide ([c].length = 1) = true from rfl,
    withSession_passed hs (hs.rooms.session fd n hin), withRoom_passed (Map.mem_of_get? hin),
    run_bind (currentRoom_run hin), after_nil, run_bind (room_run hr), after_nil, run_ite,
    if_neg hpin, run_bind (modifyRoom_run hr _)]
  rfl

theorem exitChatRoom_ok (hs : s.Inv) (hin : s.clientInChatRoom[fd]? = some n)
    (hp : s.clients[fd]? = some (some p)) (hr : s.chatRooms[n]? = some r) :
    (exitChatRoom [c] fd).run s =
      .ok (ascii "% ", s.leaveRoom fd n r,
        toOthers (r.clients.erase fd) fd (s.name p ++ ascii " had left the chat room.\n")) := by
  have hmod := modifyRoom_run hr fun r => { r with clients := r.clients.erase fd }
  have hcl := client_run (s := s.putRoom n { r with clients := r.clients.erase fd }) hp
  unfold exitChatRoom
  rw [show decide ([c].length = 1) = true from rfl,
    withSession_passed hs (Map.mem_of_get? hp), withRoom_passed (Map.mem_of_get? hin),
    run_bind (currentRoom_run hin), after_nil, run_bind hmod, after_nil, run_bind hcl, after_nil,
    run_bind (room_put_run _), after_nil, run_bind (broadcast_run _ _ _), run_bind_modify]
  simp only [run_pure, after_ok, List.append_nil]
  rfl

/-- The accounts of the members of a room, in the order of the list. -/
def memberPtrs (s : Server) (r : ChatRoom) : List Ptr :=
  r.clients.map fun d => (s.clients[d]?.bind id).getD 0

theorem listUserinChatRoom_ok (hs : s.Inv) (hin : s.clientInChatRoom[fd]? = some n)
    (hr : s.chatRooms[n]? = some r) : (listUserinChatRoom [c] fd).run s =
      .ok (((memberPtrs s r).insertionSort (byName s.heap)).flatMap fun p => userLine (s.heap p),
        s, []) := by
  have hm : ∀ d ∈ r.clients,
      (memberPtr d).run s = .ok ((s.clients[d]?.bind id).getD 0, s, []) := by
    intro d hd
    have hin' := (hs.rooms.member d n).mpr ⟨r, hr, hd⟩
    obtain ⟨q, _, hq, _⟩ := hs.session_of_mem (hs.rooms.session d n hin')
    unfold memberPtr
    rw [run_bind (clientPtr_run hq), hq]
    rfl
  unfold listUserinChatRoom
  rw [show decide ([c].length = 1) = true from rfl,
    withSession_passed hs (hs.rooms.session fd n hin), withRoom_passed (Map.mem_of_get? hin),
    run_bind (currentRoom_run hin), after_nil, run_bind (room_run hr), after_nil,
    run_bind (mapM_run hm), after_nil, run_bind_get]
  rfl

theorem sendMessage_ok (hin : s.clientInChatRoom[fd]? = some n)
    (hp : s.clients[fd]? = some (some p)) (hr : s.chatRooms[n]? = some r)
    (hm : filterMessage r.filterList (joinTokens tokens) = some m) :
    (sendMessage tokens fd).run s =
      .ok (chatLine (s.name p) m, s.putRoom n { r with history := r.history ++ [⟨s.name p, m⟩] },
        toOthers r.clients fd (chatLine (s.name p) m)) := by
  have hmod := modifyRoom_run hr fun r =>
    { r with history := r.history ++ [⟨(s.heap p).username, m⟩] }
  unfold sendMessage
  rw [withRoom_passed (Map.mem_of_get? hin), run_bind (currentRoom_run hin), after_nil,
    run_bind (masked_run hr hm), after_nil, run_bind (client_run hp), after_nil, run_bind hmod,
    after_nil, run_bind (room_put_run _), after_nil, run_bind (broadcast_run _ _ _)]
  simp only [run_pure, after_ok, List.append_nil]
  rfl

end Room

end InpLabs.Chat
