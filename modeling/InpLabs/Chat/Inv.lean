/-
  File:      InpLabs/Chat/Inv.lean
  Subject:   The invariant of the chat server and the state changes that keep it.

  * `Server.Inv`: the accounts, the sessions and the rooms fit together. Nothing in the program
    states it; the handlers that subscript `clients` and `chatRooms` without a check need it. Each
    of its three parts reads only some of the server's fields.
  * `addUser` to `closeRoom`: what a successful command does to the server, as pure functions,
    each with its `_inv` lemma.
-/
import InpLabs.Chat.Server

namespace InpLabs.Chat

open InpLabs.Lib

/-! ## 1. The invariant -/

/-- The name of the account behind a pointer. -/
def Server.name (s : Server) (p : Ptr) : Bytes := (s.heap p).username

/-- A registered account has the name. -/
def Server.Registered (s : Server) (u : Bytes) : Prop := ∃ p ∈ s.registerdUser, s.name p = u

/-- Registered accounts are allocated, listed once, and have distinct, non-empty names. -/
structure Accounts (name : Ptr → Bytes) (allocated : Nat) (registered : List Ptr) : Prop where
  lt_allocated : ∀ p ∈ registered, p < allocated
  nodup : registered.Nodup
  name_inj : ∀ p ∈ registered, ∀ q ∈ registered, name p = name q → p = q
  name_ne_nil : ∀ p ∈ registered, name p ≠ []

/-- A session joins one connection with one registered account, and the names in use are those of
    the sessions. -/
structure Sessions (name : Ptr → Bytes) (registered : List Ptr) (clients : FdMap (Option Ptr))
    (loggedIn : Finset Bytes) : Prop where
  account : ∀ (fd : Fd) (o : Option Ptr), clients[fd]? = some o →
    ∃ p ∈ registered, o = some p ∧ name p ∈ loggedIn
  inj : ∀ (fd fd' : Fd) (p : Ptr), clients[fd]? = some (some p) → clients[fd']? = some (some p) →
    fd = fd'
  in_use : ∀ u ∈ loggedIn, ∃ (fd : Fd) (p : Ptr), clients[fd]? = some (some p) ∧ name p = u

/-- A room lists a member once and has a number from 1 to 100, a registered owner and the whole
    filter list. -/
structure RoomOk (owner : Bytes → Prop) (n : Int) (r : ChatRoom) : Prop where
  nodup : r.clients.Nodup
  number : 1 ≤ n ∧ n ≤ 100
  owned : owner r.owner
  filter : r.filterList = filterWords

/-- The rooms: who is in one is listed there and has a session. -/
structure Rooms (owner : Bytes → Prop) (session : Fd → Prop) (inRoom : FdMap Int)
    (rooms : RoomMap) : Prop where
  member : ∀ (fd : Fd) (n : Int), inRoom[fd]? = some n ↔ ∃ r, rooms[n]? = some r ∧ fd ∈ r.clients
  session : ∀ (fd : Fd) (n : Int), inRoom[fd]? = some n → session fd
  ok : ∀ (n : Int) (r : ChatRoom), rooms[n]? = some r → RoomOk owner n r

structure Server.Inv (s : Server) : Prop where
  accounts : Accounts s.name s.allocated s.registerdUser
  sessions : Sessions s.name s.registerdUser s.clients s.loggedInUsers
  rooms : Rooms s.Registered (· ∈ s.clients) s.clientInChatRoom s.chatRooms

theorem Server.new_inv : Server.new.Inv := by
  refine ⟨?_, ?_, ?_⟩ <;> constructor <;> simp [Server.new]

section Facts

variable {s : Server} {fd : Fd} {n : Int}

theorem Server.Inv.session_of_mem (hs : s.Inv) (h : fd ∈ s.clients) :
    ∃ p ∈ s.registerdUser, s.clients[fd]? = some (some p) ∧ s.name p ∈ s.loggedInUsers := by
  obtain ⟨o, ho⟩ := Map.mem_iff.mp h
  obtain ⟨p, hp, rfl, hl⟩ := hs.sessions.account fd o ho
  exact ⟨p, hp, ho, hl⟩

theorem Server.Inv.session_of_get (hs : s.Inv) {p : Ptr} (h : s.clients[fd]? = some (some p)) :
    p ∈ s.registerdUser ∧ s.name p ∈ s.loggedInUsers := by
  obtain ⟨q, hq, e, hl⟩ := hs.sessions.account fd _ h
  cases e
  exact ⟨hq, hl⟩

theorem Server.Inv.registered_of_get (hs : s.Inv) {p : Ptr}
    (h : s.clients[fd]? = some (some p)) : s.Registered (s.name p) :=
  ⟨p, (hs.session_of_get h).1, rfl⟩

/-- A member of a room: its session and its room. -/
theorem Server.Inv.member_data (hs : s.Inv) (h : s.clientInChatRoom[fd]? = some n) :
    ∃ p r, s.clients[fd]? = some (some p) ∧ s.chatRooms[n]? = some r ∧ fd ∈ r.clients := by
  obtain ⟨r, hr, hm⟩ := (hs.rooms.member fd n).mp h
  obtain ⟨p, _, hp, _⟩ := hs.session_of_mem (hs.rooms.session fd n h)
  exact ⟨p, r, hp, hr, hm⟩

/-- Whoever is in a room is listed there. -/
theorem Server.Inv.listed (hs : s.Inv) (h : s.clientInChatRoom[fd]? = some n) {r : ChatRoom}
    (hr : s.chatRooms[n]? = some r) : fd ∈ r.clients := by
  obtain ⟨r', hr', hfd⟩ := (hs.rooms.member fd n).mp h
  rw [hr] at hr'
  cases hr'
  exact hfd

/-- A descriptor listed in two rooms is listed in one. -/
theorem Server.Inv.member_unique (hs : s.Inv) {m : Int} {r t : ChatRoom}
    (hr : s.chatRooms[n]? = some r) (ht : s.chatRooms[m]? = some t) (hfr : fd ∈ r.clients)
    (hft : fd ∈ t.clients) : n = m := by
  have h1 := (hs.rooms.member fd n).mpr ⟨r, hr, hfr⟩
  have h2 := (hs.rooms.member fd m).mpr ⟨t, ht, hft⟩
  rw [h1] at h2
  exact Option.some.inj h2

/-- A connection in the lobby is listed in no room. -/
theorem Server.Inv.not_listed (hs : s.Inv) (h : fd ∉ s.clientInChatRoom) {r : ChatRoom}
    (hr : s.chatRooms[n]? = some r) : fd ∉ r.clients := fun hm =>
  h (Map.mem_of_get? ((hs.rooms.member fd n).mpr ⟨r, hr, hm⟩))

/-- It can be listed once more. -/
theorem Server.Inv.joined_nodup (hs : s.Inv) (h : fd ∉ s.clientInChatRoom) {r : ChatRoom}
    (hr : s.chatRooms[n]? = some r) : (r.clients ++ [fd]).Nodup := by
  rw [← List.concat_eq_append]
  exact (hs.rooms.ok n r hr).nodup.concat (hs.not_listed h hr)

end Facts

/-! ## 2. Accounts -/

/-- A new account. -/
def Server.addUser (s : Server) (username password : Bytes) : Server :=
  { s with
    heap := Function.update s.heap s.allocated ⟨username, password, ascii "offline"⟩
    allocated := s.allocated + 1
    registerdUser := s.registerdUser ++ [s.allocated] }

/-- A new status of an account. -/
def Server.withStatus (s : Server) (p : Ptr) (status : Bytes) : Server :=
  { s with heap := Function.update s.heap p { s.heap p with status := status } }

/-- The accounts sorted by name. -/
def Server.sortUsers (s : Server) : Server :=
  { s with registerdUser := s.registerdUser.insertionSort (byName s.heap) }

@[simp] theorem withStatus_name (s : Server) (p : Ptr) (status : Bytes) :
    (s.withStatus p status).name = s.name := by
  funext q
  simp only [Server.name, Server.withStatus, Function.update_apply]
  split
  · rename_i e; rw [e]
  · rfl

theorem Server.registered_congr {s t : Server} (hr : ∀ p, p ∈ t.registerdUser ↔ p ∈ s.registerdUser)
    (hn : t.name = s.name) : t.Registered = s.Registered := by
  funext u
  simp only [Server.Registered, hr, hn]

theorem withStatus_inv {s : Server} (hs : s.Inv) (p : Ptr) (status : Bytes) :
    (s.withStatus p status).Inv := by
  have hn := withStatus_name s p status
  have hr : (s.withStatus p status).Registered = s.Registered :=
    Server.registered_congr (fun _ => Iff.rfl) hn
  exact ⟨hn ▸ hs.accounts, hn ▸ hs.sessions, hr ▸ hs.rooms⟩

theorem Accounts.of_perm {name : Ptr → Bytes} {a : Nat} {l m : List Ptr}
    (h : Accounts name a l) (hp : m.Perm l) : Accounts name a m where
  lt_allocated p h' := h.lt_allocated p (hp.mem_iff.mp h')
  nodup := hp.nodup_iff.mpr h.nodup
  name_inj p h' q h'' := h.name_inj p (hp.mem_iff.mp h') q (hp.mem_iff.mp h'')
  name_ne_nil p h' := h.name_ne_nil p (hp.mem_iff.mp h')

/-- Sessions read the set of registered accounts only, and keep under a larger one. -/
theorem Sessions.of_subset {name : Ptr → Bytes} {l m : List Ptr} {clients : FdMap (Option Ptr)}
    {loggedIn : Finset Bytes} (h : Sessions name l clients loggedIn) (hm : ∀ p ∈ l, p ∈ m) :
    Sessions name m clients loggedIn where
  account fd o ho := by
    obtain ⟨p, hp, e, hl⟩ := h.account fd o ho
    exact ⟨p, hm p hp, e, hl⟩
  inj := h.inj
  in_use := h.in_use

theorem sortUsers_inv {s : Server} (hs : s.Inv) : s.sortUsers.Inv := by
  have hp : s.sortUsers.registerdUser.Perm s.registerdUser := List.perm_insertionSort _ _
  have hr : s.sortUsers.Registered = s.Registered :=
    Server.registered_congr (fun _ => hp.mem_iff) rfl
  exact ⟨hs.accounts.of_perm hp, hs.sessions.of_subset fun p h => hp.mem_iff.mpr h, hr ▸ hs.rooms⟩

/-- A registered account is not touched by a new one. -/
theorem addUser_name {s : Server} (hs : s.Inv) (u w : Bytes) {p : Ptr} (hp : p ∈ s.registerdUser) :
    (s.addUser u w).name p = s.name p := by
  have hlt := hs.accounts.lt_allocated p hp
  simp only [Server.name, Server.addUser]
  rw [Function.update_of_ne (Nat.ne_of_lt hlt)]

@[simp] theorem addUser_name_self (s : Server) (u w : Bytes) :
    (s.addUser u w).name s.allocated = u := by
  simp [Server.name, Server.addUser]

theorem mem_addUser {s : Server} {u w : Bytes} {p : Ptr} :
    p ∈ (s.addUser u w).registerdUser ↔ p ∈ s.registerdUser ∨ p = s.allocated := by
  simp [Server.addUser]

theorem addUser_registered {s : Server} (hs : s.Inv) (u w v : Bytes) :
    (s.addUser u w).Registered v ↔ s.Registered v ∨ v = u := by
  constructor
  · rintro ⟨p, hp, rfl⟩
    rcases mem_addUser.mp hp with hp | rfl
    · exact .inl ⟨p, hp, (addUser_name hs u w hp).symm⟩
    · exact .inr (addUser_name_self s u w)
  · rintro (⟨p, hp, rfl⟩ | rfl)
    · exact ⟨p, mem_addUser.mpr (.inl hp), addUser_name hs u w hp⟩
    · exact ⟨s.allocated, mem_addUser.mpr (.inr rfl), addUser_name_self s v w⟩

theorem addUser_accounts {s : Server} (hs : s.Inv) {u : Bytes} (w : Bytes) (hu : u ≠ [])
    (hfree : ¬ s.Registered u) :
    Accounts (s.addUser u w).name (s.addUser u w).allocated (s.addUser u w).registerdUser where
  lt_allocated p hp := by
    show p < s.allocated + 1
    rcases mem_addUser.mp hp with h | rfl
    · exact Nat.lt_succ_of_lt (hs.accounts.lt_allocated p h)
    · exact Nat.lt_succ_self _
  nodup := by
    refine List.nodup_append.mpr ⟨hs.accounts.nodup, List.nodup_singleton _, ?_⟩
    intro p hp q hq e
    exact Nat.ne_of_lt (hs.accounts.lt_allocated p hp) (e.trans (List.mem_singleton.mp hq))
  name_inj p hp q hq e := by
    rcases mem_addUser.mp hp with hp | rfl <;> rcases mem_addUser.mp hq with hq | rfl
    · rw [addUser_name hs u w hp, addUser_name hs u w hq] at e
      exact hs.accounts.name_inj p hp q hq e
    · rw [addUser_name hs u w hp, addUser_name_self] at e
      exact absurd ⟨p, hp, e⟩ hfree
    · rw [addUser_name hs u w hq, addUser_name_self] at e
      exact absurd ⟨q, hq, e.symm⟩ hfree
    · rfl
  name_ne_nil p hp := by
    rcases mem_addUser.mp hp with hp | rfl
    · rw [addUser_name hs u w hp]
      exact hs.accounts.name_ne_nil p hp
    · rw [addUser_name_self]
      exact hu

theorem Rooms.mono {owner owner' : Bytes → Prop} {session session' : Fd → Prop}
    {inRoom : FdMap Int} {rooms : RoomMap} (h : Rooms owner session inRoom rooms)
    (ho : ∀ u, owner u → owner' u) (hs : ∀ fd, fd ∈ inRoom → session fd → session' fd) :
    Rooms owner' session' inRoom rooms where
  member := h.member
  session fd n hm := hs fd (Map.mem_of_get? hm) (h.session fd n hm)
  ok n r hr := { h.ok n r hr with owned := ho _ (h.ok n r hr).owned }

theorem addUser_inv {s : Server} (hs : s.Inv) {u : Bytes} (w : Bytes) (hu : u ≠ [])
    (hfree : ¬ s.Registered u) : (s.addUser u w).Inv where
  accounts := addUser_accounts hs w hu hfree
  sessions :=
    { account := fun fd o ho => by
        obtain ⟨p, hp, e, hl⟩ := hs.sessions.account fd o ho
        exact ⟨p, mem_addUser.mpr (.inl hp), e, (addUser_name hs u w hp).symm ▸ hl⟩
      inj := hs.sessions.inj
      in_use := fun v hv => by
        obtain ⟨fd, p, hp, e⟩ := hs.sessions.in_use v hv
        exact ⟨fd, p, hp, (addUser_name hs u w (hs.session_of_get hp).1).trans e⟩ }
  rooms := hs.rooms.mono (fun v h => (addUser_registered hs u w v).mpr (.inl h)) fun _ _ h => h

/-! ## 3. Sessions -/

/-- `fd` logs in to the account `p`. -/
def Server.logIn (s : Server) (fd : Fd) (p : Ptr) : Server :=
  { s.withStatus p (ascii "online") with
    clients := s.clients.insert fd (some p)
    loggedInUsers := insert (s.name p) s.loggedInUsers }

/-- `fd` logs out of the account `p`. -/
def Server.logOut (s : Server) (fd : Fd) (p : Ptr) : Server :=
  { s.withStatus p (ascii "offline") with
    clients := s.clients.erase fd
    loggedInUsers := s.loggedInUsers.erase (s.name p) }

@[simp] theorem logIn_name (s : Server) (fd : Fd) (p : Ptr) : (s.logIn fd p).name = s.name :=
  withStatus_name s p _

@[simp] theorem logOut_name (s : Server) (fd : Fd) (p : Ptr) : (s.logOut fd p).name = s.name :=
  withStatus_name s p _

theorem Sessions.insert {name : Ptr → Bytes} {registered : List Ptr} {clients : FdMap (Option Ptr)}
    {loggedIn : Finset Bytes} (h : Sessions name registered clients loggedIn) {fd : Fd} {p : Ptr}
    (hfd : fd ∉ clients) (hp : p ∈ registered) (hout : name p ∉ loggedIn) :
    Sessions name registered (clients.insert fd (some p)) (insert (name p) loggedIn) where
  account fd' o ho := by
    rw [Map.get?_insert] at ho
    split at ho
    · exact ⟨p, hp, (Option.some.inj ho).symm, Finset.mem_insert_self _ _⟩
    · obtain ⟨q, hq, e, hl⟩ := h.account fd' o ho
      exact ⟨q, hq, e, Finset.mem_insert_of_mem hl⟩
  inj fd₁ fd₂ q h₁ h₂ := by
    have hother : ∀ fd' : Fd, clients[fd']? ≠ some (some p) := fun fd' hc => by
      obtain ⟨_, _, e, hl⟩ := h.account fd' _ hc
      exact hout (Option.some.inj e ▸ hl)
    rw [Map.get?_insert] at h₁ h₂
    split at h₁ <;> split at h₂
    · rename_i e₁ e₂
      exact e₁.symm.trans e₂
    · cases h₁
      exact absurd h₂ (hother fd₂)
    · cases h₂
      exact absurd h₁ (hother fd₁)
    · exact h.inj fd₁ fd₂ q h₁ h₂
  in_use u hu := by
    rcases Finset.mem_insert.mp hu with rfl | hu
    · exact ⟨fd, p, by simp, rfl⟩
    · obtain ⟨fd', q, hq, e⟩ := h.in_use u hu
      refine ⟨fd', q, ?_, e⟩
      have hne : fd ≠ fd' := fun e' => hfd (Map.mem_of_get? (e' ▸ hq))
      rw [Map.get?_insert, if_neg hne]
      exact hq

theorem Sessions.erase {name : Ptr → Bytes} {registered : List Ptr} {clients : FdMap (Option Ptr)}
    {loggedIn : Finset Bytes} (h : Sessions name registered clients loggedIn)
    (hinj : ∀ p ∈ registered, ∀ q ∈ registered, name p = name q → p = q) {fd : Fd} {p : Ptr}
    (hp : clients[fd]? = some (some p)) :
    Sessions name registered (clients.erase fd) (loggedIn.erase (name p)) where
  account fd' o ho := by
    rw [Map.get?_erase] at ho
    split at ho
    · cases ho
    · rename_i hne
      obtain ⟨q, hq, rfl, hl⟩ := h.account fd' o ho
      obtain ⟨p', hp', e, _⟩ := h.account fd _ hp
      cases e
      refine ⟨q, hq, rfl, Finset.mem_erase.mpr ⟨fun e => hne ?_, hl⟩⟩
      exact h.inj fd fd' p hp (hinj q hq p hp' e ▸ ho)
  inj fd₁ fd₂ q h₁ h₂ := by
    rw [Map.get?_erase] at h₁ h₂
    split at h₁ <;> split at h₂
    · cases h₁
    · cases h₁
    · cases h₂
    · exact h.inj fd₁ fd₂ q h₁ h₂
  in_use u hu := by
    obtain ⟨hne, hu⟩ := Finset.mem_erase.mp hu
    obtain ⟨fd', q, hq, e⟩ := h.in_use u hu
    refine ⟨fd', q, ?_, e⟩
    have hfd : fd ≠ fd' := by
      rintro rfl
      rw [hp] at hq
      cases hq
      exact hne e.symm
    rw [Map.get?_erase, if_neg hfd]
    exact hq

theorem logIn_inv {s : Server} (hs : s.Inv) {fd : Fd} {p : Ptr} (hfd : fd ∉ s.clients)
    (hp : p ∈ s.registerdUser) (hout : s.name p ∉ s.loggedInUsers) : (s.logIn fd p).Inv := by
  have h0 := withStatus_inv hs p (ascii "online")
  refine ⟨h0.accounts, ?_, h0.rooms.mono (fun _ h => h) fun fd' _ h => ?_⟩
  · rw [logIn_name]
    exact hs.sessions.insert hfd hp hout
  · exact Std.ExtTreeMap.mem_insert.mpr (.inr h)

/-- A connection in the lobby may log out; the rooms do not list it. -/
theorem logOut_inv {s : Server} (hs : s.Inv) {fd : Fd} {p : Ptr}
    (hp : s.clients[fd]? = some (some p)) (hlobby : fd ∉ s.clientInChatRoom) :
    (s.logOut fd p).Inv := by
  have h0 := withStatus_inv hs p (ascii "offline")
  refine ⟨h0.accounts, ?_, h0.rooms.mono (fun _ h => h) fun fd' hm h => ?_⟩
  · rw [logOut_name]
    exact hs.sessions.erase hs.accounts.name_inj hp
  · refine Std.ExtTreeMap.mem_erase.mpr ⟨?_, h⟩
    rw [ne_eq, Std.compare_eq_iff_eq]
    rintro rfl
    exact hlobby hm

/-- The descriptors the process watches play no part in the invariant. -/
theorem Server.Inv.of_masterSet {s : Server} (hs : s.Inv) (m : Finset Fd) :
    ({ s with masterSet := m } : Server).Inv := ⟨hs.accounts, hs.sessions, hs.rooms⟩

/-! ## 4. Rooms -/

/-- `fd`, logged in to `p`, creates room `n` and enters it. -/
def Server.createRoom (s : Server) (fd : Fd) (n : Int) (p : Ptr) : Server :=
  { s with
    chatRooms := s.chatRooms.insert n { ChatRoom.new (s.name p) with clients := [fd] }
    clientInChatRoom := s.clientInChatRoom.insert fd n }

/-- `fd` enters the existing room `n`, which holds `r`. -/
def Server.enterRoom (s : Server) (fd : Fd) (n : Int) (r : ChatRoom) : Server :=
  { s with
    chatRooms := s.chatRooms.insert n { r with clients := r.clients ++ [fd] }
    clientInChatRoom := s.clientInChatRoom.insert fd n }

/-- `fd` leaves room `n`, which holds `r`. -/
def Server.leaveRoom (s : Server) (fd : Fd) (n : Int) (r : ChatRoom) : Server :=
  { s with
    chatRooms := s.chatRooms.insert n { r with clients := r.clients.erase fd }
    clientInChatRoom := s.clientInChatRoom.erase fd }

/-- Room `n`, which holds `r`, is closed. -/
def Server.closeRoom (s : Server) (n : Int) (r : ChatRoom) : Server :=
  { s with
    clientInChatRoom := Map.eraseAll s.clientInChatRoom r.clients
    chatRooms := s.chatRooms.erase n }

/-- Room `n` holds `r` now. -/
def Server.putRoom (s : Server) (n : Int) (r : ChatRoom) : Server :=
  { s with chatRooms := s.chatRooms.insert n r }

section Rooms

variable {owner : Bytes → Prop} {session : Fd → Prop} {inRoom : FdMap Int} {rooms : RoomMap}
  {fd : Fd} {n : Int}

/-- A new member at the end of a list, whether the room is new or not. -/
theorem Rooms.join (h : Rooms owner session inRoom rooms) {l : List Fd}
    (hl : ∀ c, c ∈ l ↔ inRoom[c]? = some n) (hfd : fd ∉ inRoom) (hsession : session fd)
    {r : ChatRoom} (hc : r.clients = l ++ [fd]) (hr : RoomOk owner n r) :
    Rooms owner session (inRoom.insert fd n) (rooms.insert n r) where
  member c m := by
    have hnone := Map.not_mem_iff.mp hfd
    simp only [Map.get?_insert]
    by_cases hm : n = m
    · subst hm
      by_cases hcf : fd = c
      · subst hcf
        simp [hc]
      · simp [hcf, hc, hl, Ne.symm hcf]
    · simp only [if_neg hm]
      rw [← h.member c m]
      by_cases hcf : fd = c
      · subst hcf
        simp [hnone, hm]
      · simp [hcf]
  session := Map.forall_insert h.session hsession
  ok := Map.forall_insert h.ok hr

/-- A room may change everything but its members, its owner and its filter list. -/
theorem Rooms.edit (h : Rooms owner session inRoom rooms) {r r' : ChatRoom}
    (hr : rooms[n]? = some r) (hc : r'.clients = r.clients) (ho : r'.owner = r.owner)
    (hf : r'.filterList = r.filterList) : Rooms owner session inRoom (rooms.insert n r') where
  member c m := by
    rw [h.member c m, Map.get?_insert]
    by_cases hm : n = m
    · subst hm
      simp [hr, hc]
    · simp [hm]
  session := h.session
  ok := by
    obtain ⟨h1, h2, h3, h4⟩ := h.ok n r hr
    exact Map.forall_insert h.ok ⟨hc ▸ h1, h2, ho ▸ h3, hf.trans h4⟩

/-- A member leaves: it goes from the list and from the map. -/
theorem Rooms.leave (h : Rooms owner session inRoom rooms) {r : ChatRoom}
    (hr : rooms[n]? = some r) (hfd : fd ∈ r.clients) :
    Rooms owner session (inRoom.erase fd)
      (rooms.insert n { r with clients := r.clients.erase fd }) where
  member c m := by
    have hin : inRoom[fd]? = some n := (h.member fd n).mpr ⟨r, hr, hfd⟩
    rw [Map.get?_erase, Map.get?_insert]
    by_cases hm : n = m
    · subst hm
      by_cases hcf : fd = c
      · subst hcf
        simp [(h.ok n r hr).nodup.mem_erase_iff]
      · simp [hcf, h.member c n, hr, List.mem_erase_of_ne (Ne.symm hcf)]
    · by_cases hcf : fd = c
      · subst hcf
        simp only [if_true, if_neg hm, ← h.member fd m, hin]
        simp [hm]
      · simp only [if_neg hcf, if_neg hm, h.member c m]
  session := Map.forall_erase h.session fd
  ok := by
    obtain ⟨h1, h2, h3, h4⟩ := h.ok n r hr
    exact Map.forall_insert h.ok ⟨h1.erase fd, h2, h3, h4⟩

/-- A room goes together with every member it lists. -/
theorem Rooms.close (h : Rooms owner session inRoom rooms) {r : ChatRoom}
    (hr : rooms[n]? = some r) :
    Rooms owner session (Map.eraseAll inRoom r.clients) (rooms.erase n) where
  member c m := by
    rw [Map.get?_eraseAll, Map.get?_erase]
    by_cases hm : n = m
    · subst hm
      by_cases hcr : c ∈ r.clients
      · simp [hcr]
      · simp [hcr, h.member c n, hr]
    · simp only [if_neg hm]
      by_cases hcr : c ∈ r.clients
      · have hin : inRoom[c]? = some n := (h.member c n).mpr ⟨r, hr, hcr⟩
        simp only [if_pos hcr, ← h.member c m, hin]
        simp [hm]
      · simp only [if_neg hcr, h.member c m]
  session := Map.forall_eraseAll h.session r.clients
  ok := Map.forall_erase h.ok n

end Rooms

section Room

variable {s : Server} {fd : Fd} {n : Int} {r : ChatRoom}

theorem createRoom_inv (hs : s.Inv) {p : Ptr} (hp : s.clients[fd]? = some (some p))
    (hlobby : fd ∉ s.clientInChatRoom) (hn : 1 ≤ n ∧ n ≤ 100) (hnew : n ∉ s.chatRooms) :
    (s.createRoom fd n p).Inv := by
  refine ⟨hs.accounts, hs.sessions, hs.rooms.join (fun c => ?_) hlobby (Map.mem_of_get? hp)
    (List.nil_append _).symm ⟨List.nodup_singleton _, hn, hs.registered_of_get hp, rfl⟩⟩
  rw [hs.rooms.member c n, Map.not_mem_iff.mp hnew]
  simp

theorem enterRoom_inv (hs : s.Inv) (hsession : fd ∈ s.clients) (hlobby : fd ∉ s.clientInChatRoom)
    (hr : s.chatRooms[n]? = some r) : (s.enterRoom fd n r).Inv := by
  obtain ⟨h1, h2, h3, h4⟩ := hs.rooms.ok n r hr
  have hnd : (r.clients ++ [fd]).Nodup := by
    refine List.nodup_append.mpr ⟨h1, List.nodup_singleton _, fun c hc d hd e => ?_⟩
    exact hs.not_listed hlobby hr (List.mem_singleton.mp hd ▸ e ▸ hc)
  refine ⟨hs.accounts, hs.sessions, hs.rooms.join (fun c => ?_) hlobby hsession rfl
    ⟨hnd, h2, h3, h4⟩⟩
  rw [hs.rooms.member c n, hr]
  simp

theorem leaveRoom_inv (hs : s.Inv) (hr : s.chatRooms[n]? = some r) (hfd : fd ∈ r.clients) :
    (s.leaveRoom fd n r).Inv :=
  ⟨hs.accounts, hs.sessions, hs.rooms.leave hr hfd⟩

theorem closeRoom_inv (hs : s.Inv) (hr : s.chatRooms[n]? = some r) : (s.closeRoom n r).Inv :=
  ⟨hs.accounts, hs.sessions, hs.rooms.close hr⟩

theorem putRoom_inv (hs : s.Inv) (hr : s.chatRooms[n]? = some r) {r' : ChatRoom}
    (hc : r'.clients = r.clients) (ho : r'.owner = r.owner) (hf : r'.filterList = r.filterList) :
    (s.putRoom n r').Inv :=
  ⟨hs.accounts, hs.sessions, hs.rooms.edit hr hc ho hf⟩

end Room

end InpLabs.Chat
