/-
  File:      InpLabs/Chat/Status.lean
  Subject:   The status of every account as the history of the calls gives it.

  An account's status is one field behind a pointer that `login`, `logout`, `exit` and `set-status`
  write, each through the connection it serves.

  * `statusSet`: the status a call has set; `loginStatus`: the status of the session of a
    connection, from its login on;
  * `StatusAgrees`: the accounts hold these statuses, and those without a session are offline;
  * `LobbyStep.status`, `Step.status`: a call keeps that;
  * `run_status`: so after every run.
-/
import InpLabs.Chat.Authentication

namespace InpLabs.Chat

open InpLabs.Lib

/-! ## 1. The status of a session -/

instance (status : Bytes) : Decidable (validStatus status) := inferInstanceAs (Decidable (_ ∨ _))

/-- The status a call has set: a `set-status` in the lobby, with one of the three values, that is
    answered with the name and the status. -/
def statusSet (log : Log) (c : Call) : Option Bytes :=
  match roomOf c.fd log, sessionOf c.fd log, tokenize c.line with
  | none, some u, [cmd, status] =>
    if cmd = ascii "set-status" ∧ validStatus status ∧
      c.reply = u ++ ascii " " ++ status ++ ascii "\n" ++ ascii "% " then some status else none
  | _, _, _ => none

/-- The status last set on a connection since its last login, or `online`. -/
def loginStatus (d : Fd) : List Call → Option Bytes
  | [] => none
  | c :: cs =>
    if c.fd = d then
      match eventOf (logOf cs) c with
      | some (.login _ _) => some (ascii "online")
      | some (.logout _) => none
      | some (.exit _) => none
      | _ => (statusSet (logOf cs) c).or (loginStatus d cs)
    else loginStatus d cs

/-- The event begins or ends a session. -/
def Event.aboutSession : Event → Bool
  | .login _ _ => true
  | .logout _ => true
  | .exit _ => true
  | _ => false

section LoginStatus

variable {d : Fd} {c : Call} {cs : List Call}

theorem loginStatus_other (h : c.fd ≠ d) : loginStatus d (c :: cs) = loginStatus d cs := if_neg h

theorem loginStatus_login {fd : Fd} {u : Bytes} (h : eventOf (logOf cs) c = some (.login fd u)) :
    loginStatus c.fd (c :: cs) = some (ascii "online") := by
  rw [loginStatus, if_pos rfl, h]

/-- A call that is no login, logout or exit. -/
theorem loginStatus_kept (h : ∀ e, eventOf (logOf cs) c = some e → e.aboutSession = false) :
    loginStatus c.fd (c :: cs) = (statusSet (logOf cs) c).or (loginStatus c.fd cs) := by
  rw [loginStatus, if_pos rfl]
  split
  · exact absurd (h _ ‹_›) (by simp [Event.aboutSession])
  · exact absurd (h _ ‹_›) (by simp [Event.aboutSession])
  · exact absurd (h _ ‹_›) (by simp [Event.aboutSession])
  · rfl

theorem statusSet_room {log : Log} {n : Int} (h : roomOf c.fd log = some n) :
    statusSet log c = none := by
  rw [statusSet, h]

theorem statusSet_tokens {log : Log}
    (h : ∀ status, tokenize c.line ≠ [ascii "set-status", status]) :
    statusSet log c = none := by
  unfold statusSet
  split
  · rename_i cmd status _ _ ht
    rw [if_neg]
    rintro ⟨rfl, -⟩
    exact h status ht
  · rfl

end LoginStatus

/-! ## 2. Agreement -/

/-- The accounts hold the statuses of the history. -/
structure StatusAgrees (cs : List Call) (s : Server) : Prop where
  session : ∀ (d : Fd) (p : Ptr), s.clients[d]? = some (some p) →
    loginStatus d cs = some (s.heap p).status
  idle : ∀ p ∈ s.registerdUser, (∀ d : Fd, s.clients[d]? ≠ some (some p)) →
    (s.heap p).status = ascii "offline"

section Agreement

variable {s t : Server} {c : Call} {cs : List Call} {p : Ptr}

theorem StatusAgrees.new : StatusAgrees [] Server.new := by
  refine ⟨fun d p hp => ?_, fun p hp => ?_⟩
  · simp [Server.new] at hp
  · simp [Server.new] at hp

/-- A call that neither touches a session nor sets a status, and leaves sessions and accounts. -/
theorem StatusAgrees.quiet (h : StatusAgrees cs s) (hclients : t.clients = s.clients)
    (hreg : ∀ p, p ∈ t.registerdUser → p ∈ s.registerdUser) (hheap : t.heap = s.heap)
    (hevent : ∀ e, eventOf (logOf cs) c = some e → e.aboutSession = false)
    (hset : statusSet (logOf cs) c = none) : StatusAgrees (c :: cs) t where
  session d p hp := by
    rw [hclients] at hp
    rw [hheap]
    by_cases hd : c.fd = d
    · subst hd
      rw [loginStatus_kept hevent, hset, Option.none_or]
      exact h.session c.fd p hp
    · rw [loginStatus_other hd]
      exact h.session d p hp
  idle p hp hno := by
    rw [hheap]
    rw [hclients] at hno
    exact h.idle p (hreg p hp) hno

/-- A call of a connection without a session, and without effect on the accounts. -/
theorem StatusAgrees.exitLobby (h : StatusAgrees cs s) (hfd : c.fd ∉ s.clients) :
    StatusAgrees (c :: cs) s where
  session d p hp := by
    have hd : c.fd ≠ d := fun e => hfd (Map.mem_of_get? (e ▸ hp))
    rw [loginStatus_other hd]
    exact h.session d p hp
  idle := h.idle

/-- The descriptors the process watches have no status. -/
theorem StatusAgrees.of_masterSet (h : StatusAgrees cs s) (m : Finset Fd) :
    StatusAgrees cs { s with masterSet := m } := ⟨h.session, h.idle⟩

/-- A new account is offline. -/
theorem StatusAgrees.register (hs : s.Inv) (h : StatusAgrees cs s) (u w : Bytes)
    (hevent : ∀ e, eventOf (logOf cs) c = some e → e.aboutSession = false)
    (hset : statusSet (logOf cs) c = none) : StatusAgrees (c :: cs) (s.addUser u w) := by
  have hheap : ∀ q ∈ s.registerdUser, (s.addUser u w).heap q = s.heap q := fun q hq =>
    Function.update_of_ne (Nat.ne_of_lt (hs.accounts.lt_allocated q hq)) _ _
  have hq : StatusAgrees (c :: cs) s := h.quiet rfl (fun _ hp => hp) rfl hevent hset
  refine ⟨fun d p hp => ?_, fun p hp hno => ?_⟩
  · rw [hheap p (hs.session_of_get hp).1]
    exact hq.session d p hp
  · rcases mem_addUser.mp hp with hp | rfl
    · rw [hheap p hp]
      exact hq.idle p hp hno
    · simp [Server.addUser]

theorem StatusAgrees.logIn (hs : s.Inv) (h : StatusAgrees cs s) (hfd : c.fd ∉ s.clients)
    (hout : s.name p ∉ s.loggedInUsers) {fd : Fd} {u : Bytes}
    (hevent : eventOf (logOf cs) c = some (.login fd u)) :
    StatusAgrees (c :: cs) (s.logIn c.fd p) := by
  -- the account was in no session before
  have hfree : ∀ d : Fd, s.clients[d]? ≠ some (some p) := fun d hp =>
    hout (hs.session_of_get hp).2
  refine ⟨fun d q hq => ?_, fun q hq hno => ?_⟩
  · have hq' : (s.clients.insert c.fd (some p))[d]? = some (some q) := hq
    rw [Map.get?_insert] at hq'
    split at hq'
    · rename_i hd
      cases hq'
      subst hd
      rw [loginStatus_login hevent]
      simp [Server.logIn, Server.withStatus]
    · rename_i hd
      have hne : q ≠ p := by
        rintro rfl
        exact hfree d hq'
      rw [loginStatus_other hd, h.session d q hq']
      simp [Server.logIn, Server.withStatus, hne]
  · have hself : (s.logIn c.fd p).clients[c.fd]? = some (some p) := by simp [Server.logIn]
    have hne : q ≠ p := by
      rintro rfl
      exact hno c.fd hself
    have hold : (s.heap q).status = ascii "offline" := by
      refine h.idle q hq fun d hd => hno d ?_
      have hcd : c.fd ≠ d := fun e => hfd (Map.mem_of_get? (e ▸ hd))
      show (s.clients.insert c.fd (some p))[d]? = some (some q)
      rw [Map.get?_insert, if_neg hcd]
      exact hd
    simpa [Server.logIn, Server.withStatus, hne] using hold

theorem StatusAgrees.logOut (hs : s.Inv) (h : StatusAgrees cs s)
    (hp : s.clients[c.fd]? = some (some p)) : StatusAgrees (c :: cs) (s.logOut c.fd p) := by
  refine ⟨fun d q hq => ?_, fun q hq hno => ?_⟩
  · have hq' : (s.clients.erase c.fd)[d]? = some (some q) := hq
    rw [Map.get?_erase] at hq'
    split at hq'
    · cases hq'
    · rename_i hd
      have hne : q ≠ p := by
        rintro rfl
        exact hd (hs.sessions.inj c.fd d q hp hq')
      rw [loginStatus_other hd, h.session d q hq']
      simp [Server.logOut, Server.withStatus, hne]
  · by_cases hqp : q = p
    · subst hqp
      simp [Server.logOut, Server.withStatus]
    · have hold : (s.heap q).status = ascii "offline" := by
        refine h.idle q hq fun d hd => hno d ?_
        have hcd : c.fd ≠ d := by
          rintro rfl
          rw [hp] at hd
          cases hd
          exact hqp rfl
        show (s.clients.erase c.fd)[d]? = some (some q)
        rw [Map.get?_erase, if_neg hcd]
        exact hd
      simpa [Server.logOut, Server.withStatus, hqp] using hold

theorem StatusAgrees.set (hs : s.Inv) (h : StatusAgrees cs s)
    (hp : s.clients[c.fd]? = some (some p)) {status : Bytes}
    (hevent : ∀ e, eventOf (logOf cs) c = some e → e.aboutSession = false)
    (hset : statusSet (logOf cs) c = some status) :
    StatusAgrees (c :: cs) (s.withStatus p status) := by
  refine ⟨fun d q hq => ?_, fun q hq hno => ?_⟩
  · have hq' : s.clients[d]? = some (some q) := hq
    by_cases hd : c.fd = d
    · subst hd
      rw [hp] at hq'
      cases hq'
      rw [loginStatus_kept hevent, hset]
      simp [Server.withStatus]
    · have hne : q ≠ p := by
        rintro rfl
        exact hd (hs.sessions.inj c.fd d q hp hq')
      rw [loginStatus_other hd, h.session d q hq']
      simp [Server.withStatus, hne]
  · have hne : q ≠ p := by
      rintro rfl
      exact hno c.fd hp
    have hold := h.idle q hq hno
    simpa [Server.withStatus, hne] using hold

end Agreement

/-! ## 3. Steps and runs -/

section Steps

variable {s t : Server} {c : Call} {cs : List Call} {tokens : List Bytes} {reply : Bytes}
  {es : List Effect}

/-- A call sets a status in the lobby, for a session, with the command for it. -/
theorem statusSet_some {log : Log} {status : Bytes} (h : statusSet log c = some status) :
    sessionOf c.fd log ≠ none ∧ tokenize c.line = [ascii "set-status", status] ∧
      validStatus status := by
  unfold statusSet at h
  split at h
  · rename_i hu ht
    split_ifs at h with hc
    cases h
    refine ⟨?_, ?_, hc.2.1⟩
    · rw [hu]
      nofun
    · rw [ht, hc.1]
  · cases h

/-- The command for it is answered without effect only where there is no session. -/
theorem LobbyAnswer.no_session {fd : Fd} {status : Bytes} (hst : validStatus status)
    (ht : tokens = [ascii "set-status", status]) (h : LobbyAnswer s fd tokens reply) :
    fd ∉ s.clients := by
  have hne : ∀ {c : Bytes} {ws : List Bytes}, c ≠ ascii "set-status" →
      c :: ws ≠ [ascii "set-status", status] := fun hc h => hc (List.head_eq_of_cons_eq h)
  cases h with
  | usage hu h0 hk =>
    subst ht
    have hmem : (ascii "set-status", 2) ∈ lobbyShapes := by decide
    exact absurd (lobbyShapes_arity _ hmem _ (List.mem_map_of_mem hu) h0) hk
  | pleaseLogin h0 hfd => exact hfd
  | nameUsed hu => exact absurd ht (hne (by decide))
  | logoutFirst hfd => exact absurd ht (hne (by decide))
  | loginFailed hfd h => exact absurd ht (hne (by decide))
  | whoami hp => exact absurd ht (hne (by decide))
  | statusFailed hno =>
    cases ht
    exact absurd hst hno
  | notValid hn => exact absurd ht (hne (by decide))
  | roomList hfd => exact absurd ht (hne (by decide))
  | doesNotExist hn => exact absurd ht (hne (by decide))
  | onlyOwner hp hn hr ho => exact absurd ht (hne (by decide))
  | unknown h0 =>
    subst ht
    have hmem : (ascii "set-status", 2, ascii "Usage: set-status <status>\n") ∈ lobbyUsages := by
      decide
    exact absurd rfl (h0 _ hmem)

theorem roomEvent_quiet {log : Log} {fd : Fd} {n : Int} {e : Event}
    (h : roomEvent log fd n reply tokens = some e) : e.aboutSession = false := by
  unfold roomEvent at h
  split_ifs at h <;> cases h <;> rfl

/-- A `set-status` that is answered with the name and the status has set it. -/
theorem statusSet_lobby {log : Log} {u status : Bytes} (hroom : roomOf c.fd log = none)
    (hu : sessionOf c.fd log = some u) (ht : tokenize c.line = [ascii "set-status", status])
    (hst : validStatus status)
    (hreply : c.reply = u ++ ascii " " ++ status ++ ascii "\n" ++ ascii "% ") :
    statusSet log c = some status := by
  rw [statusSet, hroom, hu, ht]
  exact if_pos ⟨rfl, hst, hreply⟩

/-- **A lobby command leaves the statuses with the history.** -/
theorem LobbyStep.status (hs : s.Inv) (ha : Agrees (logOf cs) s) (hc : StatusAgrees cs s)
    (hl : c.fd ∉ s.clientInChatRoom) (ht : tokenize c.line = tokens)
    (he : c.effects = es ++ [.send c.fd reply]) (h : LobbyStep s c.fd tokens reply es t) :
    StatusAgrees (c :: cs) t := by
  have hroom : roomOf c.fd (logOf cs) = none := (ha.room c.fd).trans (Map.not_mem_iff.mp hl)
  have hevent := eventOf_lobby _ ha hl ht he
  have hunset : ∀ {w : Bytes} {ws : List Bytes}, tokens = w :: ws → w ≠ ascii "set-status" →
      statusSet (logOf cs) c = none := by
    rintro w ws rfl hw
    exact statusSet_tokens fun status h => hw (List.head_eq_of_cons_eq (ht.symm.trans h))
  have hquiet : ∀ {e}, eventOf (logOf cs) c = some e → e.aboutSession = false →
      ∀ e, eventOf (logOf cs) c = some e → e.aboutSession = false := by
    intro e h hq e' h'
    rw [h] at h'
    cases h'
    exact hq
  cases h with
  | answers hx =>
    refine hc.quiet rfl (fun _ hp => hp) rfl (fun e h => ?_) ?_
    · rw [hevent, hx.no_event] at h
      cases h
    · refine Option.eq_none_iff_forall_ne_some.mpr fun status h => ?_
      obtain ⟨hsession, htokens, hst⟩ := statusSet_some h
      have hout := hx.no_session hst (ht.symm.trans htokens)
      exact hsession ((session_none_iff hs ha).mpr hout)
  | register hu hfree =>
    rw [lobbyEvent_register] at hevent
    exact hc.register hs _ _ (hquiet hevent rfl) (hunset rfl (by decide))
  | @login u w p hfd hp hu hw hout =>
    rw [lobbyEvent_login] at hevent
    subst hu
    exact hc.logIn hs hfd hout hevent
  | logout hp => exact hc.logOut hs hp
  | setStatus hp hst =>
    refine hc.set hs hp (fun e h => ?_)
      (statusSet_lobby hroom ((session_some_iff ha).mpr ⟨_, hp, rfl⟩) ht hst (reply_eq he))
    rw [hevent, lobbyEvent_two (fun h => absurd h.1 (by decide)) fun h => absurd h.1 (by decide)]
      at h
    cases h
  | listUser hfd =>
    have hperm : s.sortUsers.registerdUser.Perm s.registerdUser := List.perm_insertionSort _ _
    refine hc.quiet rfl (fun _ hp => hperm.mem_iff.mp hp) rfl (fun e h => ?_)
      (hunset rfl (by decide))
    cases hevent.symm.trans h
  | create hp hn h1 hnew =>
    rw [lobbyEvent_enter hn (roomHeader_welcome _ _)] at hevent
    exact hc.quiet rfl (fun _ hp => hp) rfl (hquiet hevent rfl) (hunset rfl (by decide))
  | enter hp hn hr =>
    rw [List.append_assoc,
      lobbyEvent_enter hn ((roomHeader_welcome _ _).trans (List.prefix_append _ _))] at hevent
    exact hc.quiet rfl (fun _ hp => hp) rfl (hquiet hevent rfl) (hunset rfl (by decide))
  | close hp hn hr ho =>
    rw [lobbyEvent_close hn] at hevent
    exact hc.quiet rfl (fun _ hp => hp) rfl (hquiet hevent rfl) (hunset rfl (by decide))

/-- In a room no session and no status changes. -/
theorem RoomStep.frame {n : Int} {r : ChatRoom} {p : Ptr} {fd : Fd}
    (h : RoomStep s fd n r p tokens reply es t) :
    t.clients = s.clients ∧ t.registerdUser = s.registerdUser ∧ t.heap = s.heap := by
  cases h <;> exact ⟨rfl, rfl, rfl⟩

/-- **A call leaves the statuses with the history.** -/
theorem Step.status (hs : s.Inv) (ha : Agrees (logOf cs) s) (hc : StatusAgrees cs s)
    (h : Step s c.fd c.list (tokenize c.line) c.effects t c.list') :
    StatusAgrees (c :: cs) t := by
  generalize ht : tokenize c.line = tokens at h
  generalize he : c.effects = es at h
  generalize c.list = list, c.list' = list' at h
  cases h with
  | blank =>
    refine hc.quiet rfl (fun _ hp => hp) rfl (fun e h => ?_)
      (statusSet_tokens fun status h => by cases ht.symm.trans h)
    rw [eventOf_blank ht] at h
    cases h
  | lobby hl hne h => exact h.status hs ha hc hl ht he
  | exit hl hfd => exact (hc.exitLobby hfd).of_masterSet _
  | exitSession hl hp => exact (hc.logOut hs hp).of_masterSet _
  | room hin hp hr hne h =>
    obtain ⟨hclients, hreg, hheap⟩ := h.frame
    have hroom : roomOf c.fd (logOf cs) = some _ := (ha.room c.fd).trans hin
    refine hc.quiet hclients (fun _ hp => hreg ▸ hp) hheap (fun e h => ?_) (statusSet_room hroom)
    rw [eventOf_room _ ha hin ht he] at h
    exact roomEvent_quiet h

end Steps

/-- **The statuses follow the history**, after every run. -/
theorem run_status {cs : List Call} {s : Server} (h : Calls.Run cs s) : StatusAgrees cs s := by
  refine h.history_invariant (I := fun cs s => StatusAgrees cs s) (fun s hs => ?_)
    fun cs s c t hrun hc hstep => ?_
  · obtain rfl : s = Server.new := hs
    exact StatusAgrees.new
  · have hinv := calls_inv ⟨cs, hrun⟩
    exact (handleCommand_step hinv hstep).status hinv (run_agrees hrun) hc

end InpLabs.Chat
