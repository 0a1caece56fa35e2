/-
  File:      InpLabs/Chat/Membership.lean
  Subject:   **Who is in which room**: the membership invariant of the chat server, and what it
             keeps the handlers from doing.

  * `Membership`: the map `client_in_chat_room` and the member lists of the rooms say the same, a
    member has a session, a room has an owner and the filter;
  * `Safe`: no call dereferences a null or missing `clients` entry, and no subscript of `chatRooms`
    creates a room;
  * `reachable_membership`: both, on every reachable server.
-/
import InpLabs.Chat.Steps

namespace InpLabs.Chat

open InpLabs.Lib
open ServerM (run)

/-- The rooms and the sessions of a server fit together. -/
structure Membership (s : Server) : Prop where
  /-- A connection is in room `n` exactly when `n` exists and lists it. -/
  in_room : ∀ (fd : Fd) (n : Int), s.clientInChatRoom[fd]? = some n ↔
    ∃ r, s.chatRooms[n]? = some r ∧ fd ∈ r.clients
  /-- It is listed there once, and in no other room. -/
  once : ∀ (fd : Fd) (n : Int) (r : ChatRoom), s.clientInChatRoom[fd]? = some n →
    s.chatRooms[n]? = some r → r.clients.count fd = 1 ∧
      ∀ (m : Int) (t : ChatRoom), m ≠ n → s.chatRooms[m]? = some t → fd ∉ t.clients
  /-- It has a non-null user whose name is logged in. -/
  session : ∀ (fd : Fd) (n : Int), s.clientInChatRoom[fd]? = some n →
    ∃ p, s.clients[fd]? = some (some p) ∧ s.name p ∈ s.loggedInUsers
  /-- A room has a number from 1 to 100, a registered owner and the whole filter list. -/
  room : ∀ (n : Int) (r : ChatRoom), s.chatRooms[n]? = some r →
    (1 ≤ n ∧ n ≤ 100) ∧ r.owner ≠ [] ∧ s.Registered r.owner ∧ r.filterList = filterWords

/-- No call dereferences a null pointer, and no subscript of `chatRooms` creates a room. -/
def Safe (s : Server) : Prop :=
  ∀ (fd : Fd) (line : Bytes) (list : List Fd),
    (handleCommand fd line list).run s ≠ .error .nullDeref ∧
    ∀ list' t es, (handleCommand fd line list).run s = .ok (list', t, es) →
      ∀ n, Effect.defaultRoom n ∉ es

theorem Server.Inv.membership {s : Server} (hs : s.Inv) : Membership s where
  in_room := hs.rooms.member
  once fd n r hin hr := by
    have hfd := hs.listed hin hr
    refine ⟨List.count_eq_one_of_mem (hs.rooms.ok n r hr).nodup hfd, fun m t hm ht hft => ?_⟩
    exact hm (hs.member_unique ht hr hft hfd)
  session fd n hin := by
    obtain ⟨p, _, hp, hl⟩ := hs.session_of_mem (hs.rooms.session fd n hin)
    exact ⟨p, hp, hl⟩
  room n r hr := by
    obtain ⟨_, hn, ho, hf⟩ := hs.rooms.ok n r hr
    obtain ⟨p, hp, e⟩ := ho
    exact ⟨hn, e ▸ hs.accounts.name_ne_nil p hp, ⟨p, hp, e⟩, hf⟩

/-- No step creates a room by a subscript. -/
theorem Step.no_defaultRoom {s t : Server} {fd : Fd} {list list' : List Fd} {tokens : List Bytes}
    {es : List Effect} (h : Step s fd list tokens es t list') (n : Int) :
    Effect.defaultRoom n ∉ es := by
  cases h with
  | blank => simp
  | lobby hl hne h => cases h <;> simp [toOthers]
  | exit => simp
  | exitSession => simp
  | room hin hp hr hne h => cases h <;> simp [toOthers]

theorem Server.Inv.safe {s : Server} (hs : s.Inv) : Safe s := by
  intro fd line list
  refine ⟨fun hnull => ?_, fun list' t es h n => (handleCommand_step hs h).no_defaultRoom n⟩
  rcases handleCommand_spec hs fd line list with ⟨_, _, _, h, _⟩ | ⟨h, _⟩
  · rw [hnull] at h
    cases h
  · rw [hnull] at h
    cases h

/-- **The membership invariant** holds on every reachable server, and so no call on it touches a
    missing user or creates a room by a subscript. -/
theorem reachable_membership {s : Server} (h : Calls.Reachable s) : Membership s ∧ Safe s :=
  ⟨(calls_inv h).membership, (calls_inv h).safe⟩

/-- Two users in room 7, which its owner has left again. -/
def ownerLeft : List (Fd × Bytes) :=
  [(4, ascii "register a 1"), (5, ascii "register b 2"), (4, ascii "login a 1"),
    (5, ascii "login b 2"), (4, ascii "enter-chat-room 7"), (5, ascii "enter-chat-room 7"),
    (4, ascii "/exit-chat-room")]

theorem membership_ownerLeft : (serverAfter ownerLeft).clientInChatRoom[5]? = some 7 ∧
    4 ∉ (serverAfter ownerLeft).clientInChatRoom ∧ Membership (serverAfter ownerLeft) ∧
    Safe (serverAfter ownerLeft) :=
  ⟨by decide, by decide, reachable_membership (serverAfter_reachable ownerLeft)⟩

end InpLabs.Chat
