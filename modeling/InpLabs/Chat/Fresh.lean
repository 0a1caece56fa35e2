/-
  File:      InpLabs/Chat/Fresh.lean
  Subject:   **A fresh connection starts with no session** -- as long as no connection ends while it
             is logged in.

  `exit` logs a connection out before it closes it. The branch of `main` for `read` returning 0
  closes the descriptor and clears its slot, but leaves the session and the room of the connection
  behind, and the next connection is given the same descriptor.

  * `Own`: every descriptor the server has on record is that of an open connection that put itself
    there since it was accepted;
  * `Orderly`: no connection ends by `read` returning 0 while it is logged in;
  * `fresh_connections`: `Own` holds in every state of a run of orderly steps, and after such a run
    the first step that is not orderly breaks it;
  * `stale_session`: a run in which a new connection is logged in as somebody else.
-/
import InpLabs.Chat.Output
import InpLabs.Chat.SelectLoop

namespace InpLabs.Chat

open InpLabs.Lib
open ServerM (run)

/-! ## 1. What a connection has done -/

/-- A command of `fd` that begins with `word` and is answered with a text that begins with `x`. -/
def Answered (word x : Bytes) (fd : Fd) : Label → Prop
  | .command fd' _ message es =>
    fd' = fd ∧ token (tokenize message) 0 = word ∧ x <+: replyTo fd es
  | _ => False

/-- A successful login of `fd`. -/
def LogsIn : Fd → Label → Prop := Answered (ascii "login") (ascii "Welcome, ")

/-- A successful `enter-chat-room` of `fd`. -/
def Enters : Fd → Label → Prop := Answered (ascii "enter-chat-room") (ascii "Welcome to ")

/-- Since `fd` was last accepted, a step with `P` has been taken. -/
def Since (P : Fd → Label → Prop) (fd : Fd) (ls : List Label) : Prop :=
  ∃ label ∈ ls.takeWhile (· ≠ .accept fd), P fd label

/-- The descriptors on record belong to open connections that put themselves there. -/
structure Own (ls : List Label) (l : Loop) : Prop where
  session : ∀ fd ∈ l.server.clients, fd ∈ l.conns ∧ Since LogsIn fd ls
  room : ∀ fd ∈ l.server.clientInChatRoom, fd ∈ l.conns ∧ Since Enters fd ls
  listed : ∀ (n : Int) (r : ChatRoom), l.server.chatRooms[n]? = some r → ∀ fd ∈ r.clients,
    fd ∈ l.conns ∧ Since Enters fd ls

/-- A connection that ends by `read` returning 0 is not logged in. -/
def Orderly (l : Loop) (label : Label) : Prop := ∀ fd, label = .eof fd → fd ∉ l.server.clients

/-! ## 2. What a command records -/

section Command

variable {s t : Server} {fd fd' : Fd} {tokens : List Bytes} {es : List Effect}
  {list list' : List Fd}

/-- Only a successful login adds a session, for its own connection. -/
theorem Step.new_session (h : Step s fd list tokens es t list') (hmem : fd' ∈ t.clients) :
    fd' ∈ s.clients ∨
      fd' = fd ∧ token tokens 0 = ascii "login" ∧ ascii "Welcome, " <+: replyTo fd es := by
  have herase : fd' ∈ s.clients.erase fd → fd' ∈ s.clients := Std.ExtTreeMap.mem_of_mem_erase
  cases h with
  | blank => exact .inl hmem
  | lobby hl hne h =>
    rw [replyTo_send]
    cases h with
    | login hfd hp hu hw hout =>
      rcases Std.ExtTreeMap.mem_insert.mp hmem with heq | hmem
      · exact .inr ⟨(Std.compare_eq_iff_eq.mp heq).symm, rfl, ⟨_, rfl⟩⟩
      · exact .inl hmem
    | logout hp => exact .inl (herase hmem)
    | _ => exact .inl hmem
  | exit hl hfd => exact .inl hmem
  | exitSession hl hp => exact .inl (herase hmem)
  | room hin hp hr hne h =>
    refine .inl ?_
    cases h <;> exact hmem

/-- Only a successful `enter-chat-room` adds a member, its own connection. -/
theorem Step.new_member (h : Step s fd list tokens es t list') (hmem : fd' ∈ t.clientInChatRoom) :
    fd' ∈ s.clientInChatRoom ∨ fd' = fd ∧ token tokens 0 = ascii "enter-chat-room" ∧
      ascii "Welcome to " <+: replyTo fd es := by
  have hinsert : ∀ {n : Int}, fd' ∈ s.clientInChatRoom.insert fd n →
      fd' ∈ s.clientInChatRoom ∨ fd' = fd := by
    intro n h
    rcases Std.ExtTreeMap.mem_insert.mp h with heq | h
    · exact .inr (Std.compare_eq_iff_eq.mp heq).symm
    · exact .inl h
  cases h with
  | blank => exact .inl hmem
  | lobby hl hne h =>
    rw [replyTo_send]
    cases h with
    | create hp hn h1 hnew => exact (hinsert hmem).imp_right fun h => ⟨h, rfl, ⟨_, rfl⟩⟩
    | enter hp hn hr => exact (hinsert hmem).imp_right fun h => ⟨h, rfl, ⟨_, rfl⟩⟩
    | @close x n p r hp hn hr ho =>
      refine .inl (Map.mem_iff.mpr ?_)
      obtain ⟨m, hm⟩ := Map.mem_iff.mp hmem
      have hm' : (Map.eraseAll s.clientInChatRoom r.clients)[fd']? = some m := hm
      rw [Map.get?_eraseAll] at hm'
      split at hm'
      · cases hm'
      · exact ⟨m, hm'⟩
    | _ => exact .inl hmem
  | exit hl hfd => exact .inl hmem
  | exitSession hl hp => exact .inl hmem
  | room hin hp hr hne h =>
    cases h with
    | leave => exact .inl (Std.ExtTreeMap.mem_of_mem_erase hmem)
    | _ => exact .inl hmem

end Command

/-! ## 3. Runs -/

section Since

variable {P : Fd → Label → Prop} {fd : Fd} {label : Label} {ls : List Label}

theorem Since.cons (h : Since P fd ls) (hne : label ≠ .accept fd) : Since P fd (label :: ls) := by
  obtain ⟨x, hx, hp⟩ := h
  refine ⟨x, ?_, hp⟩
  rw [List.takeWhile_cons_of_pos (by simpa using hne)]
  exact List.mem_cons_of_mem _ hx

theorem Since.head (hne : label ≠ .accept fd) (hp : P fd label) : Since P fd (label :: ls) := by
  refine ⟨label, ?_, hp⟩
  rw [List.takeWhile_cons_of_pos (by simpa using hne)]
  exact List.mem_cons_self

end Since

section Own

variable {inherited : Finset Fd} {serverFd : Fd} {l l' : Loop} {label : Label} {ls : List Label}

/-- The member lists follow from the map. -/
theorem Own.of_maps (hl : l.Inv)
    (hsession : ∀ fd ∈ l.server.clients, fd ∈ l.conns ∧ Since LogsIn fd ls)
    (hroom : ∀ fd ∈ l.server.clientInChatRoom, fd ∈ l.conns ∧ Since Enters fd ls) : Own ls l where
  session := hsession
  room := hroom
  listed n r hr fd hfd :=
    hroom fd (Map.mem_of_get? ((hl.server.rooms.member fd n).mpr ⟨r, hr, hfd⟩))

/-- A step that changes neither the records nor the connections on record. -/
theorem Own.keep (hl : l'.Inv) (h : Own ls l) (hc : l'.server.clients = l.server.clients)
    (hr : l'.server.clientInChatRoom = l.server.clientInChatRoom)
    (hconns : ∀ fd ∈ l.server.clients, fd ∈ l.conns → fd ∈ l'.conns)
    (hrooms : ∀ fd ∈ l.server.clientInChatRoom, fd ∈ l.server.clients)
    (hlabel : ∀ fd ∈ l.conns, label ≠ .accept fd) : Own (label :: ls) l' := by
  refine .of_maps hl (fun fd hfd => ?_) fun fd hfd => ?_
  · rw [hc] at hfd
    obtain ⟨hconn, hsince⟩ := h.session fd hfd
    exact ⟨hconns fd hfd hconn, hsince.cons (hlabel fd hconn)⟩
  · rw [hr] at hfd
    obtain ⟨hconn, hsince⟩ := h.room fd hfd
    exact ⟨hconns fd (hrooms fd hfd) hconn, hsince.cons (hlabel fd hconn)⟩

theorem afterCommand_own (hl : l.Inv) (h : Own ls l) {sd : Fd} {buffer line : Bytes} {t : Server}
    {list : List Fd} {es : List Effect} (hsd : sd ∈ l.conns)
    (hrun : (handleCommand sd line l.clientSocket).run l.server = .ok (list, t, es)) :
    Own (.command sd buffer line es :: ls) (l.afterCommand t list es) := by
  have hstep := handleCommand_step hl.server hrun
  have hopen : ∀ fd, (fd ∈ t.clients ∨ fd ∈ t.clientInChatRoom) → fd ∈ l.conns →
      fd ∈ (l.afterCommand t list es).conns := by
    intro fd hfd hconn
    refine Finset.mem_sdiff.mpr ⟨hconn, fun hclosed => ?_⟩
    rcases hstep.closes with ⟨hes, -⟩ | ⟨hes, -, hc, hr⟩
    · rw [hes] at hclosed
      simp at hclosed
    · rw [hes] at hclosed
      obtain rfl : fd = sd := by simpa using hclosed
      exact hfd.elim hc hr
  refine .of_maps (afterCommand_inv hl hrun) (fun fd hfd => ?_) fun fd hfd => ?_
  · rcases hstep.new_session hfd with hold | ⟨rfl, hword, hreply⟩
    · obtain ⟨hconn, hsince⟩ := h.session fd hold
      exact ⟨hopen fd (.inl hfd) hconn, hsince.cons nofun⟩
    · exact ⟨hopen fd (.inl hfd) hsd, .head nofun ⟨rfl, hword, hreply⟩⟩
  · rcases hstep.new_member hfd with hold | ⟨rfl, hword, hreply⟩
    · obtain ⟨hconn, hsince⟩ := h.room fd hold
      exact ⟨hopen fd (.inr hfd) hconn, hsince.cons nofun⟩
    · exact ⟨hopen fd (.inr hfd) hsd, .head nofun ⟨rfl, hword, hreply⟩⟩

/-- **One step**: it keeps what is on record apart from the connections that are not open exactly
    when it is orderly. -/
theorem LoopStep.own_iff (hl : l.Inv) (h : Own ls l)
    (hs : LoopStep inherited serverFd l label l') : Own (label :: ls) l' ↔ Orderly l label := by
  have hl' := hs.inv hl
  have hmember : ∀ fd ∈ l.server.clientInChatRoom, fd ∈ l.server.clients := fun fd hfd => by
    obtain ⟨n, hn⟩ := Map.mem_iff.mp hfd
    exact hl.server.rooms.session fd n hn
  cases hs with
  | select hpc hr => exact iff_of_true (h.keep hl' rfl rfl (fun _ _ h => h) hmember nofun) nofun
  | @accept fd ready hpc hfd =>
    have hnew := hfd.1
    simp only [Set.mem_ofPred_eq, Finset.mem_union, not_or] at hnew
    obtain ⟨hc, hr, hconns⟩ := addConnection_records (l := l) fd
    refine iff_of_true (h.keep hl' hc hr (fun d _ hd => ?_) hmember fun d hd heq => ?_) nofun
    · show d ∈ (l.addConnection fd).conns
      rw [hconns]
      exact Finset.mem_insert_of_mem hd
    · cases heq
      exact hnew.2 hd
  | idle hpc hsd h' => exact iff_of_true (h.keep hl' rfl rfl (fun _ _ h => h) hmember nofun) nofun
  | @eof i ready sd hpc hsd h0 hr =>
    constructor
    · intro hown fd heq hfd
      cases heq
      exact absurd (hown.session sd hfd).1 (Finset.notMem_erase sd l.conns)
    · intro hord
      have hsd' := hord sd rfl
      refine h.keep hl' rfl rfl (fun d hd hconn => ?_) hmember nofun
      exact Finset.mem_erase.mpr ⟨fun heq => hsd' (heq ▸ hd), hconn⟩
  | readError hpc hsd h0 hr =>
    exact iff_of_true (h.keep hl' rfl rfl (fun _ _ h => h) hmember nofun) nofun
  | @command i ready sd buffer list t es hpc hsd h0 hr hb hrun =>
    have hown : Own (.command sd buffer buffer.dropLast es :: ls) (l.afterCommand t list es) :=
      afterCommand_own hl h (hl.slot_open hsd h0) hrun
    exact iff_of_true ⟨hown.session, hown.room, hown.listed⟩ nofun
  | wrap hpc hi => exact iff_of_true (h.keep hl' rfl rfl (fun _ _ h => h) hmember nofun) nofun

/-- **A fresh connection starts with no session**, in every state of a run in which no connection
    ends while it is logged in; the first step that is not of that kind breaks it. -/
theorem fresh_connections (h : ((selectLoop inherited serverFd).restrict Orderly).Run ls l) :
    Own ls l ∧ ∀ label l', LoopStep inherited serverFd l label l' →
      (Own (label :: ls) l' ↔ Orderly l label) := by
  have hown : Own ls l := by
    refine h.history_invariant (I := Own) (fun l hl => ?_) fun ls l label l' hrun ih hstep => ?_
    · obtain rfl : l = Loop.start := hl
      exact .of_maps Loop.start_inv (by simp [Loop.start, Server.new])
        (by simp [Loop.start, Server.new])
    · exact (LoopStep.own_iff (selectLoop_inv hrun.of_restrict) ih hstep.2).mpr hstep.1
  exact ⟨hown, fun label l' hs => hs.own_iff (selectLoop_inv h.of_restrict) hown⟩

end Own

/-- A run in which no connection ends by `read` returning 0. -/
theorem orderly_run {inherited : Finset Fd} {serverFd : Fd} {l : Loop} {ls : List Label}
    (h : (selectLoop inherited serverFd).Run ls l) (heof : ∀ fd, Label.eof fd ∉ ls) :
    ((selectLoop inherited serverFd).restrict Orderly).Run ls l := by
  induction h with
  | start h => exact .start h
  | @step ls label l l' h hs ih =>
    have hrun := ih fun fd hmem => heof fd (List.mem_cons_of_mem label hmem)
    refine hrun.step ⟨fun fd heq => absurd ?_ (heof fd), hs⟩
    rw [heq]
    exact List.mem_cons_self

/-- A user logs in and says `exit`, and the next connection has the same descriptor, but no
session. -/
theorem fresh_reused : ∃ ls l,
    ((selectLoop standardFds 3).restrict Orderly).Run (.accept 4 :: ls) l ∧
      (∃ label ∈ ls, LogsIn 4 label) ∧ 4 ∈ l.conns ∧ 4 ∉ l.server.clients := by
  have h0 : (selectLoop standardFds 3).Run [] (.waiting Server.new) := .start rfl
  obtain ⟨qs1, hq1, h1⟩ := accepted_run (by decide) (accept_run standardFds_least h0)
  obtain ⟨qs2, hq2, h2⟩ := serve_run (by decide) (by decide) (ascii "register a 1\n") (by decide)
    (by decide) rfl h1
  obtain ⟨qs3, hq3, h3⟩ := serve_run (by decide) (by decide) (ascii "login a 1\n") (by decide)
    (by decide) rfl h2
  obtain ⟨qs4, hq4, h4⟩ := exit_run (by decide) (by decide) (ascii "exit\n") (by decide)
    (by decide) rfl h3
  have h5 := accept_run standardFds_least h4
  have hquiet : ∀ {qs : List Label}, Quiet qs → ∀ fd, Label.eof fd ∉ qs := fun hq fd hmem => by
    rcases hq _ hmem with h | h <;> cases h
  have hlogged := orderly_run h3 fun fd => by
    simp [hquiet hq1 fd, hquiet hq2 fd, hquiet hq3 fd]
  have hrun := orderly_run h5 fun fd => by
    simp [hquiet hq1 fd, hquiet hq2 fd, hquiet hq3 fd, hquiet hq4 fd]
  -- before `exit` the session is one since the connection was accepted, and after it there is none
  obtain ⟨label, hlabel, hlogin⟩ := ((fresh_connections hlogged).1.session 4 (by decide)).2
  have hmem := (List.takeWhile_sublist _).subset hlabel
  refine ⟨_, _, hrun, ⟨label, ?_, hlogin⟩, by decide, fun hsession => ?_⟩
  · exact List.mem_cons_of_mem _ (List.mem_append_right _
      (List.mem_cons_of_mem _ (List.mem_cons_of_mem _ hmem)))
  · obtain ⟨x, hx, -⟩ := ((fresh_connections hrun).1.session 4 hsession).2
    simp at hx

/-- **A new connection is logged in as somebody else**: a user registers and logs in, the connection
    ends, and the next one is accepted under the same descriptor. -/
theorem stale_session : ∃ ls l, (selectLoop standardFds 3).Run (.accept 4 :: ls) l ∧
    4 ∈ l.server.clients ∧ ¬ Own (.accept 4 :: ls) l := by
  have h0 : (selectLoop standardFds 3).Run [] (.waiting Server.new) := .start rfl
  obtain ⟨_, -, h1⟩ := accepted_run (by decide) (accept_run standardFds_least h0)
  obtain ⟨_, -, h2⟩ := serve_run (by decide) (by decide) (ascii "register a 1\n") (by decide)
    (by decide) rfl h1
  obtain ⟨_, -, h3⟩ := serve_run (by decide) (by decide) (ascii "login a 1\n") (by decide)
    (by decide) rfl h2
  obtain ⟨_, h4⟩ := eof_run (by decide) (by decide) h3
  refine ⟨_, _, accept_run standardFds_least h4, by decide, fun hown => ?_⟩
  obtain ⟨x, hx, -⟩ := (hown.session 4 (by decide)).2
  simp at hx

end InpLabs.Chat
