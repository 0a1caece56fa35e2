/-
  File:      InpLabs/Chat/Authentication.lean
  Subject:   **Authentication agrees with the history**: which registrations and logins succeed, and
             who is logged in, by the log alone.

  * `Authentic`: a name is registered once; the `clients` map holds the sessions of the log, and
    joins the connections with a session one to one with the users logged in;
  * `AuthenticCall`: what `register`, `login` and `whoami` answer in the lobby;
  * `authentication`: both, after every run and for every call that follows it.
-/
import InpLabs.Chat.History

namespace InpLabs.Chat

open InpLabs.Lib
open ServerM (run)

/-! ## 1. One call in the lobby -/

section Call

variable {s t : Server} {log : Log} {c : Call} {u w : Bytes}

/-- A lobby command that sends nothing but its answer: its reply and its event are those of its
    handler. -/
theorem lobby_call (ha : Agrees log s) (hstep : Calls.step s c t) (hl : roomOf c.fd log = none)
    {tokens : List Bytes} (ht : tokenize c.line = tokens) (hne : tokens ≠ [])
    (hexit : token tokens 0 ≠ ascii "exit") {reply : Bytes} {t' : Server}
    (hx : (lobbyReply tokens c.fd).run s = .ok (reply, t', [])) :
    c.reply = reply ∧ eventOf log c = lobbyEvent log c.fd reply tokens := by
  have hlobby : c.fd ∉ s.clientInChatRoom := Map.not_mem_iff.mpr ((ha.room c.fd).symm.trans hl)
  have heff : c.effects = [] ++ [.send c.fd reply] := by
    subst ht
    have hreply : (lobbyCommand (tokenize c.line) c.fd c.list).run s =
        .ok ((reply, c.list), t', []) := lobbyCommand_reply hexit hx
    have hrun := handleCommand_lobby hne hlobby hreply
    have hstep' : (handleCommand c.fd c.line c.list).run s = .ok (c.list', t, c.effects) := hstep
    rw [hstep'] at hrun
    exact congrArg (fun r => r.2.2) (Except.ok.inj hrun)
  exact ⟨reply_eq heff, eventOf_lobby _ ha hlobby ht heff⟩

theorem registered_iff (ha : Agrees log s) :
    s.Registered u ↔ ∃ w, Event.register u w ∈ log := by
  constructor
  · intro ⟨p, hp, hu⟩
    exact ⟨_, (ha.account u _).mp ⟨p, hp, hu, rfl⟩⟩
  · intro ⟨w, hw⟩
    obtain ⟨p, hp, hu, -⟩ := (ha.account u w).mpr hw
    exact ⟨p, hp, hu⟩

/-- A registration succeeds exactly when the name has not been registered. -/
theorem register_call (ha : Agrees log s) (hstep : Calls.step s c t)
    (hl : roomOf c.fd log = none) (ht : tokenize c.line = [ascii "register", u, w]) :
    eventOf log c = some (.register u w) ↔ ∀ w', Event.register u w' ∉ log := by
  have hexit : token [ascii "register", u, w] 0 ≠ ascii "exit" :=
    (by decide : ascii "register" ≠ ascii "exit")
  rw [← not_exists, ← registered_iff ha]
  by_cases hr : s.Registered u
  · have hx := prompted_run (registerUser_taken (c := ascii "register") (w := w) hr)
    rw [(lobby_call ha hstep hl ht (List.cons_ne_nil _ _) hexit hx).2,
      (LobbyAnswer.nameUsed hr).no_event]
    simp [hr]
  · have hx := prompted_run (registerUser_ok (c := ascii "register") (w := w) hr)
    rw [(lobby_call ha hstep hl ht (List.cons_ne_nil _ _) hexit hx).2, lobbyEvent_register]
    simp [hr]

theorem session_none_iff (hs : s.Inv) (ha : Agrees log s) {fd : Fd} :
    sessionOf fd log = none ↔ fd ∉ s.clients := by
  rw [ha.session]
  constructor
  · intro h hfd
    obtain ⟨p, -, hp, -⟩ := hs.session_of_mem hfd
    rw [user_of_get hp] at h
    cases h
  · exact user_of_not_mem

theorem session_some_iff (ha : Agrees log s) {fd : Fd} :
    sessionOf fd log = some u ↔ ∃ p, s.clients[fd]? = some (some p) ∧ s.name p = u := by
  rw [ha.session]
  unfold Server.user
  constructor
  · intro h
    obtain ⟨o, ho, h⟩ := Option.bind_eq_some_iff.mp h
    obtain ⟨p, rfl, hu⟩ := Option.map_eq_some_iff.mp h
    exact ⟨p, ho, hu⟩
  · rintro ⟨p, hp, rfl⟩
    simp [hp]

/-- A name is in use exactly when some connection has a session for it. -/
theorem loggedIn_iff (hs : s.Inv) (ha : Agrees log s) :
    u ∈ s.loggedInUsers ↔ ∃ fd, sessionOf fd log = some u := by
  constructor
  · intro hu
    obtain ⟨fd, p, hp, hname⟩ := hs.sessions.in_use u hu
    exact ⟨fd, (session_some_iff ha).mpr ⟨p, hp, hname⟩⟩
  · intro ⟨fd, hfd⟩
    obtain ⟨p, hp, rfl⟩ := (session_some_iff ha).mp hfd
    exact (hs.session_of_get hp).2

/-- A login succeeds exactly when the name was registered with this password, the connection has no
    session and no connection has one for the name. -/
theorem login_call (hs : s.Inv) (ha : Agrees log s) (hstep : Calls.step s c t)
    (hl : roomOf c.fd log = none) (ht : tokenize c.line = [ascii "login", u, w]) :
    eventOf log c = some (.login c.fd u) ↔ Event.register u w ∈ log ∧
      sessionOf c.fd log = none ∧ ∀ fd, sessionOf fd log ≠ some u := by
  have hexit : token [ascii "login", u, w] 0 ≠ ascii "exit" :=
    (by decide : ascii "login" ≠ ascii "exit")
  rw [← ha.account, session_none_iff hs ha, ← not_exists, ← loggedIn_iff hs ha]
  by_cases hfd : c.fd ∈ s.clients
  · have hx := prompted_run (loginUser_busy (c := ascii "login") (u := u) (w := w) hs hfd)
    rw [(lobby_call ha hstep hl ht (List.cons_ne_nil _ _) hexit hx).2,
      (LobbyAnswer.logoutFirst hfd).no_event]
    simp [hfd]
  by_cases hok : u ∈ s.loggedInUsers ∨ ¬ s.HasAccount u w
  · have hx := prompted_run (loginUser_failed (c := ascii "login") hs hfd hok)
    rw [(lobby_call ha hstep hl ht (List.cons_ne_nil _ _) hexit hx).2,
      (LobbyAnswer.loginFailed hfd hok).no_event]
    constructor
    · nofun
    · intro ⟨h1, _, h2⟩
      exact absurd hok (not_or.mpr ⟨h2, not_not.mpr h1⟩)
  · obtain ⟨hout, hacc⟩ := not_or.mp hok
    obtain ⟨p, hp, hu, hw⟩ := not_not.mp hacc
    have hx := prompted_run (loginUser_ok (c := ascii "login") hs hfd hp hu hw hout)
    rw [(lobby_call ha hstep hl ht (List.cons_ne_nil _ _) hexit hx).2, lobbyEvent_login]
    simp [hfd, hout, not_not.mp hacc]

/-- `whoami` answers the user of the session. -/
theorem whoami_call (hs : s.Inv) (ha : Agrees log s) (hstep : Calls.step s c t)
    (hl : roomOf c.fd log = none) (ht : tokenize c.line = [ascii "whoami"])
    (hu : sessionOf c.fd log = some u) : c.reply = u ++ ascii "\n% " := by
  obtain ⟨p, hp, rfl⟩ := (session_some_iff ha).mp hu
  have hx := prompted_run (getwhoami_ok (c := ascii "whoami") hs hp)
  have hreply := (lobby_call ha hstep hl ht (List.cons_ne_nil _ _) (by decide) hx).1
  rw [hreply, List.append_assoc]
  rfl

end Call

/-! ## 2. The sessions -/

/-- The name a registration took. -/
def registeredName : Event → Option Bytes
  | .register u _ => some u
  | _ => none

/-- The log and the server agree on who is registered and who is logged in. -/
structure Authentic (log : Log) (s : Server) : Prop where
  /-- A name is registered once at most. -/
  once : (log.filterMap registeredName).Nodup
  /-- The map `clients` holds the sessions of the log. -/
  session : ∀ (fd : Fd) (u : Bytes),
    sessionOf fd log = some u ↔ ∃ p, s.clients[fd]? = some (some p) ∧ s.name p = u
  /-- It joins the connections with a session and the users logged in, one to one. -/
  bijection : Set.BijOn (fun fd => (sessionOf fd log).getD []) {fd | fd ∈ s.clients}
    s.loggedInUsers

/-- What the lobby commands about accounts and sessions answer after a log. -/
structure AuthenticCall (log : Log) (c : Call) : Prop where
  register : ∀ u w, tokenize c.line = [ascii "register", u, w] →
    (eventOf log c = some (.register u w) ↔ ∀ w', Event.register u w' ∉ log)
  login : ∀ u w, tokenize c.line = [ascii "login", u, w] →
    (eventOf log c = some (.login c.fd u) ↔ Event.register u w ∈ log ∧
      sessionOf c.fd log = none ∧ ∀ fd, sessionOf fd log ≠ some u)
  whoami : ∀ u, tokenize c.line = [ascii "whoami"] → sessionOf c.fd log = some u →
    c.reply = u ++ ascii "\n% "

section Sessions

variable {s : Server} {log : Log}

theorem session_bijOn (hs : s.Inv) (ha : Agrees log s) :
    Set.BijOn (fun fd => (sessionOf fd log).getD []) {fd | fd ∈ s.clients} s.loggedInUsers := by
  have hsession : ∀ fd ∈ s.clients, ∃ p, s.clients[fd]? = some (some p) ∧
      sessionOf fd log = some (s.name p) := by
    intro fd hfd
    obtain ⟨p, -, hp, -⟩ := hs.session_of_mem hfd
    exact ⟨p, hp, (session_some_iff ha).mpr ⟨p, hp, rfl⟩⟩
  refine ⟨fun fd hfd => ?_, fun fd hfd fd' hfd' heq => ?_, fun u hu => ?_⟩
  · obtain ⟨p, hp, h⟩ := hsession fd hfd
    simp only [h]
    exact (hs.session_of_get hp).2
  · obtain ⟨p, hp, h⟩ := hsession fd hfd
    obtain ⟨q, hq, h'⟩ := hsession fd' hfd'
    simp only [h, h', Option.getD_some] at heq
    have hpq := hs.accounts.name_inj p (hs.session_of_get hp).1 q (hs.session_of_get hq).1 heq
    exact hs.sessions.inj fd fd' p hp (hpq ▸ hq)
  · obtain ⟨fd, p, hp, rfl⟩ := hs.sessions.in_use u hu
    refine ⟨fd, Map.mem_of_get? hp, ?_⟩
    simp [(session_some_iff ha).mpr ⟨p, hp, rfl⟩]

/-- A registration comes from the command, typed in the lobby. -/
theorem register_line {c : Call} {u w : Bytes} (h : eventOf log c = some (.register u w)) :
    roomOf c.fd log = none ∧ tokenize c.line = [ascii "register", u, w] := by
  unfold eventOf at h
  split at h
  · refine ⟨‹_›, ?_⟩
    unfold lobbyEvent at h
    split at h
    · split_ifs at h <;> cases h
    · split at h
      · split_ifs at h <;> cases h
      · cases h
    · split_ifs at h with h1 h2
      · cases h
        exact h1.1 ▸ ‹_›
      · cases h
    · cases h
  · unfold roomEvent at h
    split_ifs at h <;> cases h

/-- A name is registered once in the log of a run. -/
theorem registered_once {cs : List Call} (h : Calls.Run cs s) :
    ((logOf cs).filterMap registeredName).Nodup := by
  refine h.history_invariant (I := fun cs _ => ((logOf cs).filterMap registeredName).Nodup)
    (fun _ _ => List.nodup_nil) fun cs s c t hrun ih hstep => ?_
  have hnew : ∀ u w, eventOf (logOf cs) c = some (.register u w) →
      u ∉ (logOf cs).filterMap registeredName := by
    intro u w he hu
    obtain ⟨hl, ht⟩ := register_line he
    obtain ⟨e, hmem, hname⟩ := List.mem_filterMap.mp hu
    have hno := (register_call (run_agrees hrun) hstep hl ht).mp he
    cases e with
    | register u' w' =>
      obtain rfl : u' = u := Option.some.inj hname
      exact hno w' hmem
    | _ => cases hname
  show (((eventOf (logOf cs) c).toList ++ logOf cs).filterMap registeredName).Nodup
  rw [List.filterMap_append]
  cases he : eventOf (logOf cs) c with
  | none => exact ih
  | some e =>
    cases e with
    | register u w => exact List.nodup_cons.mpr ⟨hnew u w he, ih⟩
    | _ => exact ih

end Sessions

/-- **Authentication agrees with the command history**: after every run the log and the server agree
    on the sessions, and the next lobby command is answered by the log alone. -/
theorem authentication {cs : List Call} {s : Server} (h : Calls.Run cs s) :
    Authentic (logOf cs) s ∧ ∀ c t, Calls.step s c t → roomOf c.fd (logOf cs) = none →
      AuthenticCall (logOf cs) c := by
  have hs := calls_inv ⟨cs, h⟩
  have ha := run_agrees h
  refine ⟨⟨registered_once h, fun _ _ => session_some_iff ha, session_bijOn hs ha⟩, ?_⟩
  intro c t hstep hl
  exact ⟨fun _ _ ht => register_call ha hstep hl ht, fun _ _ ht => login_call hs ha hstep hl ht,
    fun _ ht hu => whoami_call hs ha hstep hl ht hu⟩

/-- One user, logged in twice in turn on two connections. -/
def twoLogins : List (Fd × Bytes) :=
  [(4, ascii "register a 1"), (4, ascii "login a 1"), (5, ascii "login a 1"), (4, ascii "logout"),
    (5, ascii "login a 1")]

theorem authentication_twoLogins :
    logOf (callsAfter twoLogins) = [.login 5 (ascii "a"), .logout 4, .login 4 (ascii "a"),
      .register (ascii "a") (ascii "1")] ∧
    Authentic (logOf (callsAfter twoLogins)) (serverAfter twoLogins) :=
  ⟨by decide, (authentication (afterLines_run twoLogins)).1⟩

end InpLabs.Chat
