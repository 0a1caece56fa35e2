/-
  File:      InpLabs/Chat/Prompt.lean
  Subject:   **The prompt law**: what a connection has been sent so far ends with the prompt exactly
             when the connection is in the lobby.

  * `Session`, `sessions`: the server and, for each open connection, all it has been sent, from the
    welcome text on; one step opens a connection, one is a call of `handleCommand`;
  * `Prompts`: what one call sends to a connection, by where the connection stands after it;
    `Step.prompts`: every call sends that to everyone it leaves open;
  * `prompt_law`: so the law holds in every reachable state.
-/
import InpLabs.Chat.Fresh

namespace InpLabs.Chat

open InpLabs.Lib

/-! ## 1. Connections and what they have been sent -/

/-- The server, and what each open connection has been sent. -/
structure Session where
  server : Server
  received : Fd → Option Bytes

inductive SessionLabel where
  | accept (fd : Fd)
  | call (c : Call)

/-- A connection opens and is sent the welcome text. -/
def Session.afterAccept (s : Session) (fd : Fd) : Session where
  server := s.server.addSocket fd
  received d := if d = fd then some welcome else s.received d

/-- The texts of a call arrive behind what there was, and `exit` closes its connection. -/
def Session.afterCall (s : Session) (c : Call) (t : Server) : Session where
  server := t
  received d :=
    if d ∈ closedBy c.effects then none
    else (s.received d).map (· ++ (sentTo d c.effects).flatten)

inductive SessionStep : Session → SessionLabel → Session → Prop where
  | accept {s : Session} {fd : Fd} (hfd : s.received fd = none) :
      SessionStep s (.accept fd) (s.afterAccept fd)
  | call {s : Session} {c : Call} {t : Server} (hopen : s.received c.fd ≠ none)
      (hrun : Calls.step s.server c t) : SessionStep s (.call c) (s.afterCall c t)

def Session.start : Session := ⟨Server.new, fun _ => none⟩

/-- The runs of `handleCommand` by open connections. -/
def sessions : Lts Session SessionLabel where
  init s := s = .start
  step := SessionStep

/-! ## 2. Lines and prompts -/

def prompt : Bytes := ascii "% "

def EndsLine (text : Bytes) : Prop := ascii "\n" <:+ text

instance (text : Bytes) : Decidable (EndsLine text) := inferInstanceAs (Decidable (_ <:+ _))

section Texts

variable {a b : Bytes}

theorem EndsLine.not_prompt (h : EndsLine b) : ¬ prompt <:+ b := fun hp =>
  absurd (List.suffix_of_suffix_length_le h hp (by decide)) (by decide)

theorem suffix_append (a : Bytes) {c : Bytes} (h : c <:+ b) : c <:+ a ++ b :=
  h.trans (List.suffix_append a b)

theorem endsLine_append (a : Bytes) : EndsLine (a ++ ascii "\n") := List.suffix_append a _

/-- A text made of lines, at least one. -/
theorem endsLine_flatMap {α : Type} {f : α → Bytes} (hf : ∀ x, EndsLine (f x)) {l : List α}
    (hl : l ≠ []) : EndsLine (l.flatMap f) := by
  rw [← List.dropLast_append_getLast hl, List.flatMap_append, List.flatMap_singleton]
  exact suffix_append _ (hf _)

theorem endsLine_chatLine (u m : Bytes) : EndsLine (chatLine u m) := endsLine_append _

theorem endsLine_pinLine (u m : Bytes) : EndsLine (pinLine u m) :=
  suffix_append _ (endsLine_chatLine u m)

theorem endsLine_roomHeader (n : Int) (owner : Bytes) : EndsLine (roomHeader n owner) :=
  endsLine_append _

theorem endsLine_userLine (u : User) : EndsLine (userLine u) := endsLine_append _

/-- A text of lines behind a line. -/
theorem EndsLine.append (ha : EndsLine a) (hb : b = [] ∨ EndsLine b) : EndsLine (a ++ b) := by
  rcases hb with rfl | hb
  · rw [List.append_nil]
    exact ha
  · exact suffix_append a hb

/-- What a newcomer reads ends with a line. -/
theorem endsLine_entry (n : Int) (r : ChatRoom) :
    EndsLine (roomHeader n r.owner ++ latestRecords r.history ++ pinnedLine r) := by
  refine ((endsLine_roomHeader n r.owner).append ?_).append ?_
  · by_cases h : r.history.drop (r.history.length - 10) = []
    · exact .inl (by rw [latestRecords, h, List.flatMap_nil])
    · exact .inr (endsLine_flatMap (fun x => endsLine_chatLine _ _) h)
  · unfold pinnedLine
    split
    · exact .inr (endsLine_pinLine _ _)
    · exact .inl rfl

end Texts

/-! ## 3. What one call sends -/

/-- What a connection is sent while the server goes from `s` to `t`: nothing if it stays where it
    is; in a room a text that ends with a line, in the lobby one that ends with the prompt. -/
inductive Prompts (s t : Server) (d : Fd) (text : Bytes) : Prop where
  | silent (h : d ∈ t.clientInChatRoom ↔ d ∈ s.clientInChatRoom) (he : text = [])
  | line (h : d ∈ t.clientInChatRoom) (he : EndsLine text)
  | prompted (h : d ∉ t.clientInChatRoom) (he : prompt <:+ text)

/-- So the law is kept. -/
theorem Prompts.keep {s t : Server} {d : Fd} {text before : Bytes} (h : Prompts s t d text)
    (hs : prompt <:+ before ↔ d ∉ s.clientInChatRoom) :
    prompt <:+ before ++ text ↔ d ∉ t.clientInChatRoom := by
  cases h with
  | silent h he => rw [he, List.append_nil, hs, h]
  | line h he => exact iff_of_false (EndsLine.not_prompt (suffix_append before he)) (not_not.mpr h)
  | prompted h he => exact iff_of_true (suffix_append before he) h

section Calls

variable {s t : Server} {fd d : Fd} {tokens : List Bytes} {reply : Bytes} {es : List Effect}
  {n : Int} {r : ChatRoom} {p : Ptr}

theorem sentTo_reply (d fd : Fd) (es : List Effect) (reply : Bytes) :
    (sentTo d (es ++ [.send fd reply])).flatten =
      (sentTo d es).flatten ++ if fd = d then reply else [] := by
  rw [sentTo_append, List.flatten_append]
  by_cases h : fd = d <;> simp [sentTo, h]

/-- The loop over the others skips the caller. -/
theorem sentTo_self (members : List Fd) (fd : Fd) (bytes : Bytes) :
    sentTo fd (toOthers members fd bytes) = [] := by
  rw [toOthers, sentTo_map, List.count_eq_zero_of_not_mem (by simp)]
  rfl

/-- The others, when the members of a room are sent a line and stay in it. -/
theorem Prompts.members {members : List Fd} (hnd : members.Nodup) {bytes : Bytes}
    (hline : EndsLine bytes) (hd : d ∈ t.clientInChatRoom ↔ d ∈ s.clientInChatRoom)
    (hin : d ∈ members → d ∈ s.clientInChatRoom) :
    Prompts s t d (sentTo d (toOthers members fd bytes)).flatten := by
  rw [sentTo_toOthers hnd]
  by_cases h : d ∈ members ∧ d ≠ fd
  · rw [if_pos h]
    exact .line (hd.mpr (hin h.1)) (by simpa using hline)
  · rw [if_neg h]
    exact .silent hd rfl

theorem Server.Inv.mem_of_listed (hs : s.Inv) (hr : s.chatRooms[n]? = some r)
    (h : d ∈ r.clients) : d ∈ s.clientInChatRoom :=
  Map.mem_of_get? ((hs.rooms.member d n).mpr ⟨r, hr, h⟩)

theorem mem_insert_of_ne {m : FdMap Int} (h : d ≠ fd) : d ∈ m.insert fd n ↔ d ∈ m := by
  rw [Map.mem_iff, Map.mem_iff, Map.get?_insert, if_neg (Ne.symm h)]

theorem mem_erase_of_ne {m : FdMap Int} (h : d ≠ fd) : d ∈ m.erase fd ↔ d ∈ m := by
  rw [Map.mem_iff, Map.mem_iff, Map.get?_erase, if_neg (Ne.symm h)]

theorem mem_eraseAll {m : FdMap Int} {fds : List Fd} :
    d ∈ Map.eraseAll m fds ↔ d ∉ fds ∧ d ∈ m := by
  rw [Map.mem_iff, Map.mem_iff, Map.get?_eraseAll]
  by_cases h : d ∈ fds <;> simp [h]

/-- A lobby command answers its caller, -/
theorem LobbyStep.prompts_caller (hl : fd ∉ s.clientInChatRoom)
    (h : LobbyStep s fd tokens reply es t) :
    Prompts s t fd ((sentTo fd es).flatten ++ reply) := by
  cases h with
  | answers hx => exact .prompted hl (List.suffix_append _ _)
  | register => exact .prompted hl (List.suffix_append _ _)
  | login => exact .prompted hl (List.suffix_append _ _)
  | logout => exact .prompted hl (List.suffix_append _ _)
  | setStatus => exact .prompted hl (List.suffix_append _ _)
  | listUser => exact .prompted hl (List.suffix_append _ _)
  | create => exact .line (Std.ExtTreeMap.mem_insert_self ..) (endsLine_roomHeader _ _)
  | enter =>
    rw [sentTo_self]
    exact .line (Std.ExtTreeMap.mem_insert_self ..) (endsLine_entry _ _)
  | close hp hn hr ho =>
    rw [sentTo_self]
    exact .prompted (fun hmem => hl (mem_eraseAll.mp hmem).2) (List.suffix_append _ _)

/-- and tells the members of the room it is about. -/
theorem LobbyStep.prompts_other (hs : s.Inv) (hl : fd ∉ s.clientInChatRoom) (hd : d ≠ fd)
    (h : LobbyStep s fd tokens reply es t) : Prompts s t d (sentTo d es).flatten := by
  cases h with
  | @enter x n p r hp hn hr =>
    have hline : EndsLine (ascii " had enter the chat room.\n") := by decide
    have hnd := hs.joined_nodup hl hr
    refine .members hnd (suffix_append _ hline) (mem_insert_of_ne hd) fun hmem => ?_
    rcases List.mem_append.mp hmem with hmem | hmem
    · exact hs.mem_of_listed hr hmem
    · exact absurd (List.mem_singleton.mp hmem) hd
  | @close x n p r hp hn hr ho =>
    rw [sentTo_toOthers (hs.rooms.ok n r hr).nodup]
    by_cases hmem : d ∈ r.clients
    · rw [if_pos ⟨hmem, hd⟩]
      refine .prompted (fun hin => (mem_eraseAll.mp hin).1 hmem) ?_
      rw [List.flatten_singleton]
      exact List.suffix_append _ _
    · rw [if_neg fun h => hmem h.1]
      exact .silent (mem_eraseAll.trans (and_iff_right hmem)) rfl
  | create => exact .silent (mem_insert_of_ne hd) rfl
  | _ => exact .silent Iff.rfl rfl

theorem RoomAnswer.endsLine (h : RoomAnswer s n r tokens reply) : EndsLine reply := by
  cases h with
  | usagePin => decide
  | usage hu =>
    have hall : ∀ u ∈ [(ascii "/delete-pin", ascii "Usage: /delete-pin\n"),
        (ascii "/exit-chat-room", ascii "Usage: /exit-chat-room\n"),
        (ascii "/list-user", ascii "Usage: /list-user\n")], EndsLine u.2 := by decide
    exact hall _ hu
  | noPin => exact endsLine_append _
  | users hne =>
    refine endsLine_flatMap (fun _ => endsLine_userLine _) fun h => hne ?_
    have hlen := congrArg List.length h
    rw [List.length_insertionSort, memberPtrs, List.length_map] at hlen
    exact List.length_eq_zero_iff.mp hlen
  | unknown => decide

theorem RoomStep.prompts_caller (hin : s.clientInChatRoom[fd]? = some n)
    (h : RoomStep s fd n r p tokens reply es t) :
    Prompts s t fd ((sentTo fd es).flatten ++ reply) := by
  have hmem : fd ∈ s.clientInChatRoom := Map.mem_of_get? hin
  cases h with
  | answers hx => exact .line hmem hx.endsLine
  | pin =>
    rw [sentTo_self]
    exact .line hmem (endsLine_pinLine _ _)
  | unpin => exact .silent Iff.rfl rfl
  | leave =>
    rw [sentTo_self]
    exact .prompted (by simp [Server.leaveRoom]) (List.suffix_refl _)
  | chat =>
    rw [sentTo_self]
    exact .line hmem (endsLine_chatLine _ _)

theorem RoomStep.prompts_other (hs : s.Inv) (hr : s.chatRooms[n]? = some r) (hd : d ≠ fd)
    (h : RoomStep s fd n r p tokens reply es t) : Prompts s t d (sentTo d es).flatten := by
  have hnd := (hs.rooms.ok n r hr).nodup
  cases h with
  | answers => exact .silent Iff.rfl rfl
  | pin => exact .members hnd (endsLine_pinLine _ _) Iff.rfl (hs.mem_of_listed hr)
  | unpin => exact .silent Iff.rfl rfl
  | leave =>
    have hline : EndsLine (ascii " had left the chat room.\n") := by decide
    exact .members (hnd.erase fd) (suffix_append _ hline) (mem_erase_of_ne hd)
      fun hmem => hs.mem_of_listed hr (List.mem_of_mem_erase hmem)
  | chat => exact .members hnd (endsLine_chatLine _ _) Iff.rfl (hs.mem_of_listed hr)

/-- **What a call sends to a connection that it leaves open.** -/
theorem Step.prompts (hs : s.Inv) {list list' : List Fd} (h : Step s fd list tokens es t list')
    (d : Fd) (hd : d ∉ closedBy es) : Prompts s t d (sentTo d es).flatten := by
  cases h with
  | blank =>
    by_cases hfd : fd = d
    · subst hfd
      by_cases hin : fd ∈ s.clientInChatRoom
      · exact .silent Iff.rfl (by simp [sentTo, hin])
      · exact .prompted hin (by simp [sentTo, hin, prompt])
    · exact .silent Iff.rfl (by simp [sentTo, hfd])
  | lobby hl hne h =>
    rw [sentTo_reply]
    by_cases hfd : fd = d
    · subst hfd
      rw [if_pos rfl]
      exact h.prompts_caller hl
    · rw [if_neg hfd, List.append_nil]
      exact h.prompts_other hs hl (Ne.symm hfd)
  | exit hl hfd =>
    have hne : ¬ fd = d := fun h => hd (by simp [closedBy, h])
    exact .silent Iff.rfl (by simp [sentTo, hne])
  | exitSession hl hp =>
    have hne : ¬ fd = d := fun h => hd (by simp [closedBy, h])
    exact .silent Iff.rfl (by simp [sentTo, hne])
  | room hin hp hr hne h =>
    rw [sentTo_reply]
    by_cases hfd : fd = d
    · subst hfd
      rw [if_pos rfl]
      exact h.prompts_caller hin
    · rw [if_neg hfd, List.append_nil]
      exact h.prompts_other hs hr (Ne.symm hfd)

end Calls

/-! ## 4. The law -/

/-- The invariant of a session: who is in a room is connected, and the law. -/
structure Session.Inv (s : Session) : Prop where
  server : s.server.Inv
  connected : ∀ d ∈ s.server.clientInChatRoom, s.received d ≠ none
  law : ∀ d text, s.received d = some text →
    (prompt <:+ text ↔ d ∉ s.server.clientInChatRoom)

section Law

variable {s s' : Session} {l : SessionLabel} {d : Fd} {text : Bytes}

theorem Session.start_inv : Session.start.Inv where
  server := Server.new_inv
  connected d h := by simp [Session.start, Server.new] at h
  law d text h := by cases h

theorem prompt_welcome : prompt <:+ welcome := suffix_append _ (by decide)

/-- A new connection is in the lobby: its descriptor was not in use. -/
theorem Session.Inv.afterAccept (hs : s.Inv) {fd : Fd} (hfd : s.received fd = none) :
    (s.afterAccept fd).Inv where
  server := hs.server.of_masterSet _
  connected d hd := by
    unfold Session.afterAccept
    dsimp only
    split
    · exact Option.some_ne_none _
    · exact hs.connected d hd
  law d text hd := by
    unfold Session.afterAccept at hd
    dsimp only at hd
    split at hd
    · rename_i heq
      cases hd
      exact iff_of_true prompt_welcome fun hin => hs.connected d hin (heq ▸ hfd)
    · exact hs.law d text hd

theorem Session.Inv.afterCall (hs : s.Inv) {c : Call} {t : Server} (hopen : s.received c.fd ≠ none)
    (hrun : Calls.step s.server c t) : (s.afterCall c t).Inv := by
  have hstep := handleCommand_step hs.server hrun
  refine ⟨hstep.inv hs.server, fun d hd => ?_, fun d text hd => ?_⟩
  · have hkept := hstep.kept (.inr hd)
    have hbefore : s.received d ≠ none := by
      rcases hstep.new_member hd with hin | ⟨rfl, -⟩
      · exact hs.connected d hin
      · exact hopen
    simpa [Session.afterCall, hkept] using hbefore
  · unfold Session.afterCall at hd
    dsimp only at hd
    split at hd
    · cases hd
    · rename_i hkept
      obtain ⟨before, hbefore, rfl⟩ := Option.map_eq_some_iff.mp hd
      exact (hstep.prompts hs.server d hkept).keep (hs.law d before hbefore)

theorem SessionStep.inv (hs : s.Inv) (h : SessionStep s l s') : s'.Inv := by
  cases h with
  | accept hfd => exact hs.afterAccept hfd
  | call hopen hrun => exact hs.afterCall hopen hrun

/-- **The prompt law**: after every call, all that an open connection has been sent ends with
    `"% "` exactly when it is in no room. -/
theorem prompt_law (h : sessions.Reachable s) (hd : s.received d = some text) :
    ascii "% " <:+ text ↔ d ∉ s.server.clientInChatRoom := by
  have hs : s.Inv := h.invariant (fun s (h0 : s = .start) => h0 ▸ Session.start_inv)
    fun s l s' hs (hstep : SessionStep s l s') => hstep.inv hs
  exact hs.law d text hd

end Law

/-- A call of connection 4 that is answered with one text. -/
def answered (line reply : String) : Call := ⟨4, ascii line, [], [], [.send 4 (ascii reply)]⟩

/-- Connection 4 after it has entered a room: what it has read ends with the owner's line. -/
theorem prompt_law_entered : ∃ s text, sessions.Reachable s ∧ s.received 4 = some text ∧
    4 ∈ s.server.clientInChatRoom ∧
    (ascii "% " <:+ text ↔ 4 ∉ s.server.clientInChatRoom) := by
  have hopen : sessions.Reachable (Session.start.afterAccept 4) :=
    Lts.Reachable.step ⟨[], .start rfl⟩ (SessionStep.accept rfl)
  have hregister := hopen.step (SessionStep.call (Option.some_ne_none welcome)
    (c := answered "register a 1" "Register successfully.\n% ") rfl)
  have hlogin := hregister.step (SessionStep.call (Option.some_ne_none (_ ++ _))
    (c := answered "login a 1" "Welcome, a.\n% ") rfl)
  have henter := hlogin.step (SessionStep.call (Option.some_ne_none (_ ++ _))
    (c := answered "enter-chat-room 7"
      "Welcome to the public chat room.\nRoom number: 7\nOwner: a\n") rfl)
  exact ⟨_, _, henter, rfl, by decide, prompt_law henter rfl⟩

end InpLabs.Chat
