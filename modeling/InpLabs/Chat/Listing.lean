/-
  File:      InpLabs/Chat/Listing.lean
  Subject:   **User listings are complete, sorted and current**: `list-user` and `/list-user` print
             one line for each user they are about, in the order of the names, with the status the
             history gives it.

  * `HasStatus`, `Listing`: what a listing must say, by the calls alone;
  * `listing_of_accounts`: a list of accounts, sorted by name, says it;
  * `listings`: so do both commands, after every run.
-/
import InpLabs.Chat.Status
import InpLabs.Chat.Provenance

namespace InpLabs.Chat

open InpLabs.Lib
open ServerM (run)

/-! ## 1. What a listing says -/

/-- The status of a user: offline without a session, else what was last set under its current
    login, or `online`. -/
def HasStatus (cs : List Call) (u status : Bytes) : Prop :=
  (∀ d, sessionOf d (logOf cs) ≠ some u) ∧ status = ascii "offline" ∨
    ∃ d, sessionOf d (logOf cs) = some u ∧ loginStatus d cs = some status

/-- A line of a listing: the name and the status. -/
def rowText (row : Bytes × Bytes) : Bytes := row.1 ++ ascii " " ++ row.2 ++ ascii "\n"

/-- The lines of a listing of the users `who`. -/
structure Listing (cs : List Call) (who : Bytes → Prop) (rows : List (Bytes × Bytes)) : Prop where
  complete : ∀ u, u ∈ rows.map Prod.fst ↔ who u
  once : (rows.map Prod.fst).Nodup
  sorted : (rows.map Prod.fst).Pairwise fun u v => lt u v = true
  status : ∀ row ∈ rows, HasStatus cs row.1 row.2

/-! ## 2. Accounts sorted by name -/

section Accounts

variable {s : Server} {cs : List Call} {log : Log} {p : Ptr} {ps : List Ptr}

instance (heap : Ptr → User) : Std.Total (byName heap) where
  total p q := by
    unfold byName
    rw [lt_eq_false, lt_eq_false]
    exact Std.le_total

instance (heap : Ptr → User) : IsTrans Ptr (byName heap) where
  trans p q r := by
    unfold byName
    rw [lt_eq_false, lt_eq_false, lt_eq_false]
    exact Std.le_trans

/-- Distinct accounts are sorted strictly. -/
theorem byName_strict (hs : s.Inv) (hreg : ∀ p ∈ ps, p ∈ s.registerdUser) (hnodup : ps.Nodup) :
    (ps.insertionSort (byName s.heap)).Pairwise fun p q => lt (s.name p) (s.name q) = true := by
  have hperm : (ps.insertionSort (byName s.heap)).Perm ps := List.perm_insertionSort _ _
  have hsorted := (List.pairwise_insertionSort (byName s.heap) ps).and
    (hperm.nodup_iff.mpr hnodup)
  refine hsorted.imp_of_mem fun {p q} hp hq h => ?_
  have hne : s.name p ≠ s.name q := fun e => h.2 <| hs.accounts.name_inj p
    (hreg p (hperm.mem_iff.mp hp)) q (hreg q (hperm.mem_iff.mp hq)) e
  rw [lt_iff]
  exact Std.lt_of_le_of_ne (lt_eq_false.mp h.1) hne

/-- The status an account holds is that of its user. -/
theorem status_of_account (hs : s.Inv) (ha : Agrees (logOf cs) s) (hc : StatusAgrees cs s)
    (hp : p ∈ s.registerdUser) : HasStatus cs (s.name p) (s.heap p).status := by
  by_cases hin : ∃ d : Fd, s.clients[d]? = some (some p)
  · obtain ⟨d, hd⟩ := hin
    exact .inr ⟨d, (session_some_iff ha).mpr ⟨p, hd, rfl⟩, hc.session d p hd⟩
  · have hno : ∀ d : Fd, s.clients[d]? ≠ some (some p) := not_exists.mp hin
    refine .inl ⟨fun d hd => ?_, hc.idle p hp hno⟩
    obtain ⟨q, hq, hname⟩ := (session_some_iff ha).mp hd
    exact hno d (hs.accounts.name_inj q (hs.session_of_get hq).1 p hp hname ▸ hq)

/-- **Accounts sorted by name are a listing of their users.** -/
theorem listing_of_accounts (hs : s.Inv) (ha : Agrees (logOf cs) s) (hc : StatusAgrees cs s)
    (hreg : ∀ p ∈ ps, p ∈ s.registerdUser) (hnodup : ps.Nodup) {who : Bytes → Prop}
    (hwho : ∀ u, (∃ p ∈ ps, s.name p = u) ↔ who u) :
    Listing cs who ((ps.insertionSort (byName s.heap)).map
      fun p => (s.name p, (s.heap p).status)) := by
  have hnames : ((ps.insertionSort (byName s.heap)).map
      fun p => (s.name p, (s.heap p).status)).map Prod.fst =
      (ps.insertionSort (byName s.heap)).map s.name := List.map_map
  have hsorted : ((ps.insertionSort (byName s.heap)).map s.name).Pairwise
      fun u v => lt u v = true := List.pairwise_map.mpr (byName_strict hs hreg hnodup)
  refine ⟨fun u => ?_, ?_, ?_, fun row hrow => ?_⟩
  · rw [hnames, List.mem_map, ← hwho]
    simp only [List.mem_insertionSort]
  · rw [hnames]
    refine hsorted.imp fun {u v} h e => ?_
    subst e
    exact Std.lt_irrefl (lt_iff.mp h)
  · rw [hnames]
    exact hsorted
  · obtain ⟨p, hp, rfl⟩ := List.mem_map.mp hrow
    exact status_of_account hs ha hc (hreg p ((List.mem_insertionSort _).mp hp))

/-- The lines of these accounts, as the handlers print them. -/
theorem flatMap_userLine (heap : Ptr → User) (ps : List Ptr) :
    (ps.flatMap fun p => userLine (heap p)) =
      (ps.map fun p => ((heap p).username, (heap p).status)).flatMap rowText := by
  rw [List.flatMap_map]
  rfl

/-- The accounts of the members of a room. -/
theorem memberPtrs_nodup (hs : s.Inv) {n : Int} {r : ChatRoom} (hr : s.chatRooms[n]? = some r) :
    (memberPtrs s r).Nodup := by
  have hget : ∀ d ∈ r.clients, s.clients[d]? = some (some ((s.clients[d]?.bind id).getD 0)) := by
    intro d hd
    obtain ⟨q, -, hq, -⟩ := hs.session_of_mem
      (hs.rooms.session d n ((hs.rooms.member d n).mpr ⟨r, hr, hd⟩))
    rw [hq]
    rfl
  refine List.Nodup.map_on (fun d hd d' hd' e => ?_) (hs.rooms.ok n r hr).nodup
  exact hs.sessions.inj d d' _ (hget d hd) (e ▸ hget d' hd')

theorem memberPtrs_names (hs : s.Inv) (ha : Agrees log s) {n : Int} {r : ChatRoom}
    (hr : s.chatRooms[n]? = some r) (u : Bytes) : (∃ p ∈ memberPtrs s r, s.name p = u) ↔
      ∃ d, roomOf d log = some n ∧ sessionOf d log = some u := by
  constructor
  · rintro ⟨p, hp, rfl⟩
    obtain ⟨d, hin, hd⟩ := mem_memberPtrs hs hr hp
    exact ⟨d, (ha.room d).trans hin, (session_some_iff ha).mpr ⟨p, hd, rfl⟩⟩
  · rintro ⟨d, hin, hd⟩
    obtain ⟨p, hp, rfl⟩ := (session_some_iff ha).mp hd
    obtain ⟨r', hr', hmem⟩ := (hs.rooms.member d n).mp ((ha.room d).symm.trans hin)
    obtain rfl : r' = r := Option.some.inj (hr'.symm.trans hr)
    refine ⟨p, List.mem_map.mpr ⟨d, hmem, ?_⟩, rfl⟩
    rw [hp]
    rfl

end Accounts

/-! ## 3. The two commands -/

section Commands

variable {cs : List Call} {s : Server} {fd : Fd} {line : Bytes} {list : List Fd}

theorem lobbyReply_list {ws : List Bytes} : lobbyReply (ascii "list-user" :: ws) fd =
    prompted (listUser (ascii "list-user" :: ws) fd) := rfl

/-- `list-user`, for a connection with a session in the lobby. -/
theorem list_user_call (hs : s.Inv) (ha : Agrees (logOf cs) s) (hc : StatusAgrees cs s)
    (ht : tokenize line = [ascii "list-user"]) (hl : roomOf fd (logOf cs) = none)
    (hu : sessionOf fd (logOf cs) ≠ none) :
    ∃ t rows, (handleCommand fd line list).run s =
        .ok (list, t, [.send fd (rows.flatMap rowText ++ ascii "% ")]) ∧
      Listing cs (fun u => ∃ w, Event.register u w ∈ logOf cs) rows := by
  have hfd : fd ∈ s.clients := not_not.mp fun h => hu ((session_none_iff hs ha).mpr h)
  have hlobby : fd ∉ s.clientInChatRoom := Map.not_mem_iff.mpr ((ha.room fd).symm.trans hl)
  have hne : tokenize line ≠ [] := ht ▸ List.cons_ne_nil _ _
  have hexit : token (tokenize line) 0 ≠ ascii "exit" := by
    rw [ht]
    exact (by decide : ascii "list-user" ≠ ascii "exit")
  have hreply := prompted_run (listUser_ok (c := ascii "list-user") hs hfd)
  rw [← lobbyReply_list, ← ht] at hreply
  have hrun : (handleCommand fd line list).run s = _ :=
    handleCommand_lobby hne hlobby (lobbyCommand_reply hexit hreply)
  refine ⟨s.sortUsers, _, ?_, listing_of_accounts hs ha hc (fun _ hp => hp) hs.accounts.nodup
    fun u => registered_iff ha⟩
  rw [hrun, flatMap_userLine]
  rfl

/-- `/list-user`, for a connection in room `n`. -/
theorem list_user_room (hs : s.Inv) (ha : Agrees (logOf cs) s) (hc : StatusAgrees cs s)
    (ht : tokenize line = [ascii "/list-user"]) {n : Int} (hin : roomOf fd (logOf cs) = some n) :
    ∃ rows, (handleCommand fd line list).run s =
        .ok (list, s, [.send fd (rows.flatMap rowText)]) ∧
      Listing cs (fun u => ∃ d, roomOf d (logOf cs) = some n ∧ sessionOf d (logOf cs) = some u)
        rows := by
  have hget : s.clientInChatRoom[fd]? = some n := (ha.room fd).symm.trans hin
  obtain ⟨r, hr, -⟩ := (hs.rooms.member fd n).mp hget
  have hne : tokenize line ≠ [] := ht ▸ List.cons_ne_nil _ _
  have hreply := listUserinChatRoom_ok (c := ascii "/list-user") hs hget hr
  rw [← roomCommand_list, ← ht] at hreply
  have hrun : (handleCommand fd line list).run s = _ :=
    handleCommand_room hne (Map.mem_of_get? hget) hreply
  have hreg : ∀ p ∈ memberPtrs s r, p ∈ s.registerdUser := fun p hp => by
    obtain ⟨d, -, hd⟩ := mem_memberPtrs hs hr hp
    exact (hs.session_of_get hd).1
  refine ⟨_, ?_, listing_of_accounts hs ha hc hreg (memberPtrs_nodup hs hr)
    (memberPtrs_names hs ha hr)⟩
  rw [hrun, flatMap_userLine]
  rfl

end Commands

/-- **User listings are complete, duplicate-free, sorted and current**: after every run, `list-user`
    of a connection with a session lists every user registered so far, and `/list-user` the users
    of the connections in the caller's room. -/
theorem listings {cs : List Call} {s : Server} (h : Calls.Run cs s) (fd : Fd) (line : Bytes)
    (list : List Fd) :
    (tokenize line = [ascii "list-user"] → roomOf fd (logOf cs) = none →
      sessionOf fd (logOf cs) ≠ none →
      ∃ t rows, (handleCommand fd line list).run s =
          .ok (list, t, [.send fd (rows.flatMap rowText ++ ascii "% ")]) ∧
        Listing cs (fun u => ∃ w, Event.register u w ∈ logOf cs) rows) ∧
    (tokenize line = [ascii "/list-user"] → ∀ n, roomOf fd (logOf cs) = some n →
      ∃ rows, (handleCommand fd line list).run s =
          .ok (list, s, [.send fd (rows.flatMap rowText)]) ∧
        Listing cs
          (fun u => ∃ d, roomOf d (logOf cs) = some n ∧ sessionOf d (logOf cs) = some u) rows) := by
  have hs := calls_inv ⟨cs, h⟩
  have ha := run_agrees h
  have hc := run_status h
  exact ⟨fun ht hl hu => list_user_call hs ha hc ht hl hu,
    fun ht n hin => list_user_room hs ha hc ht hin⟩

/-- Four users, one of them busy and one not logged in; two are in a room. -/
def fourUsers : List (Fd × Bytes) :=
  [(4, ascii "register d 4"), (4, ascii "register b 2"), (4, ascii "register a 1"),
    (4, ascii "register c 3"), (4, ascii "login a 1"), (5, ascii "login b 2"),
    (6, ascii "login c 3"), (5, ascii "set-status busy"), (5, ascii "enter-chat-room 7"),
    (4, ascii "enter-chat-room 7")]

theorem listings_fourUsers :
    (∃ rows, Listing (callsAfter fourUsers)
        (fun u => ∃ w, Event.register u w ∈ logOf (callsAfter fourUsers)) rows ∧
      rows.flatMap rowText ++ ascii "% " = ascii "a online\nb busy\nc online\nd offline\n% ") ∧
    ∃ rows, Listing (callsAfter fourUsers) (fun u => ∃ d, roomOf d (logOf (callsAfter fourUsers)) =
        some 7 ∧ sessionOf d (logOf (callsAfter fourUsers)) = some u) rows ∧
      rows.flatMap rowText = ascii "a online\nb busy\n" := by
  have hlobby : ((handleCommand 6 (ascii "list-user") []).run (serverAfter fourUsers)).map
      (fun a => a.2.2) = .ok [.send 6 (ascii "a online\nb busy\nc online\nd offline\n% ")] := by
    decide +kernel
  have hroom : ((handleCommand 4 (ascii "/list-user") []).run (serverAfter fourUsers)).map
      (fun a => a.2.2) = .ok [.send 4 (ascii "a online\nb busy\n")] := by decide +kernel
  obtain ⟨t, rows, hrun, hrows⟩ := (listings (afterLines_run fourUsers) 6 (ascii "list-user")
    []).1 (by decide) (by decide +kernel) (by decide +kernel)
  obtain ⟨rows', hrun', hrows'⟩ := (listings (afterLines_run fourUsers) 4 (ascii "/list-user")
    []).2 (by decide) 7 (by decide +kernel)
  rw [hrun] at hlobby
  rw [hrun'] at hroom
  simp only [Except.map, Except.ok.injEq, List.cons.injEq, Effect.send.injEq, true_and,
    and_true] at hlobby hroom
  exact ⟨⟨rows, hrows, hlobby⟩, rows', hrows', hroom⟩

end InpLabs.Chat
