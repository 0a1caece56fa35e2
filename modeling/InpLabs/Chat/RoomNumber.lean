/-
  File:      InpLabs/Chat/RoomNumber.lean
  Subject:   **Room numbers**: which tokens `enter-chat-room` and `close-chat-room` treat as the
             numbers they are, and what they do with the others.

  `std::stoi` reads a numeric prefix and ignores what follows it, and both handlers catch only the
  exception for a string without one. So a number with something behind it acts as the number, and
  a number too large for an `int` ends the process.

  * `EnterWritten`, `CloseWritten`: the commands as they should be: a whole literal acts, any other
    token is refused and changes nothing;
  * `parsing_iff`: where they are, exactly, for every token in every reachable state.
-/
import InpLabs.Chat.Closing
import InpLabs.Lib.Literal

namespace InpLabs.Chat

open InpLabs.Lib
open ServerM (run)

/-! ## 1. The commands as they should be -/

/-- `enter-chat-room t` enters the room of a literal from 1 to 100 and refuses every other token. -/
structure EnterWritten (s : Server) (c : Fd) (t line : Bytes) (list : List Fd) : Prop where
  enters : ∀ n, Literal t n → 1 ≤ n → n ≤ 100 →
    ∃ s' es, (handleCommand c line list).run s = .ok (list, s', es) ∧
      s'.clientInChatRoom[c]? = some n
  refuses : (∀ n, Literal t n → 1 ≤ n → ¬ n ≤ 100) →
    (handleCommand c line list).run s =
      .ok (list, s, [.send c (ascii "Number " ++ t ++ ascii " is not valid.\n% ")])

/-- `close-chat-room t` closes the room of a literal for its owner, tells others that they are not,
    and refuses every other token. -/
structure CloseWritten (s : Server) (c : Fd) (t line : Bytes) (list : List Fd) : Prop where
  closes : ∀ n r p, Literal t n → s.chatRooms[n]? = some r → s.clients[c]? = some (some p) →
    (r.owner = s.name p → ∃ es, (handleCommand c line list).run s =
      .ok (list, s.closeRoom n r, es)) ∧
    (r.owner ≠ s.name p → (handleCommand c line list).run s =
      .ok (list, s, [.send c (ascii "Only the owner can close this chat room.\n% ")]))
  refuses : (∀ n, Literal t n → n ∉ s.chatRooms) →
    (handleCommand c line list).run s =
      .ok (list, s, [.send c (ascii "Chat room " ++ t ++ ascii " does not exist.\n% ")])

/-- A numeric prefix of the token fits in an `int`, and one from 1 to 100 is the whole token. -/
def EnterPlain (t : Bytes) : Prop :=
  ∀ n rest, NumericPrefix t n rest → InInt n ∧ (1 ≤ n ∧ n ≤ 100 → rest = [])

/-- A numeric prefix of the token fits in an `int`, and one that names a room is the whole token. -/
def ClosePlain (s : Server) (t : Bytes) : Prop :=
  ∀ n rest, NumericPrefix t n rest → InInt n ∧ (n ∈ s.chatRooms → rest = [])

/-! ## 2. The calls -/

section Calls

variable {s : Server} {c : Fd} {cmd t line : Bytes} {list : List Fd} {p : Ptr} {n : Int}
  {rest : Bytes}

/-- A lobby command with one argument returns what its handler returns. -/
theorem lobby_ok (hc : c ∉ s.clientInChatRoom) (hline : tokenize line = [cmd, t])
    (hcmd : cmd ≠ ascii "exit") {reply : Bytes} {s' : Server} {es : List Effect}
    (h : (lobbyReply [cmd, t] c).run s = .ok (reply, s', es)) :
    (handleCommand c line list).run s = .ok (list, s', es ++ [.send c reply]) := by
  rw [← hline] at h
  have hexit : token (tokenize line) 0 ≠ ascii "exit" := by
    rw [hline]
    exact hcmd
  exact handleCommand_lobby (hline ▸ List.cons_ne_nil _ _) hc (lobbyCommand_reply hexit h)

/-- It ends the process when its handler does. -/
theorem lobby_error (hc : c ∉ s.clientInChatRoom) (hline : tokenize line = [cmd, t])
    (hcmd : cmd ≠ ascii "exit") {e : Fault} (h : (lobbyReply [cmd, t] c).run s = .error e) :
    (handleCommand c line list).run s = .error e := by
  rw [← hline] at h
  have hexit : token (tokenize line) 0 ≠ ascii "exit" := by
    rw [hline]
    exact hcmd
  refine handleCommand_error (hline ▸ List.cons_ne_nil _ _) hc ?_
  simp [lobbyCommand, hexit, run_bind_error h]

theorem enter_ne_exit : ascii "enter-chat-room" ≠ ascii "exit" := by decide

theorem close_ne_exit : ascii "close-chat-room" ≠ ascii "exit" := by decide

/-- A token has no white space. -/
theorem token_plain (hline : tokenize line = [cmd, t]) : ∀ b ∈ t, isspace b = false := by
  have ht : t ∈ tokenize line := by
    rw [hline]
    simp
  exact fun b hb => sep_of_mem_words ht hb

section Enter

variable (hs : s.Inv) (hc : c ∉ s.clientInChatRoom)
  (hline : tokenize line = [ascii "enter-chat-room", t])

include hs hc hline

/-- A number from 1 to 100, with anything behind it: the room is entered. -/
theorem enter_number (hfd : c ∈ s.clients) (hn : stoi t = .ok n) (h1 : 1 ≤ n ∧ n ≤ 100) :
    ∃ s' es, (handleCommand c line list).run s = .ok (list, s', es) ∧
      s'.clientInChatRoom[c]? = some n := by
  obtain ⟨p, -, hp, -⟩ := hs.session_of_mem hfd
  by_cases hnew : n ∈ s.chatRooms
  · obtain ⟨r, hr⟩ := Map.mem_iff.mp hnew
    refine ⟨_, _, lobby_ok hc hline enter_ne_exit (enterChatRoom_enter hs hp hn hr), ?_⟩
    simp [Server.enterRoom]
  · refine ⟨_, _, lobby_ok hc hline enter_ne_exit (enterChatRoom_create hs hp hn h1 hnew), ?_⟩
    simp [Server.createRoom]

theorem enter_refused (hfd : c ∈ s.clients)
    (hn : stoi t = .error .invalidArgument ∨ ∃ n, stoi t = .ok n ∧ (n < 1 ∨ 100 < n)) :
    (handleCommand c line list).run s =
      .ok (list, s, [.send c (ascii "Number " ++ t ++ ascii " is not valid.\n% ")]) := by
  have hrun : (handleCommand c line list).run s = _ :=
    lobby_ok hc hline enter_ne_exit (enterChatRoom_invalid hs hfd hn)
  exact hrun

/-- **Entering, for one token.** -/
theorem enter_iff (hfd : c ∈ s.clients) : EnterWritten s c t line list ↔ EnterPlain t := by
  rcases stoi_cases (token_plain hline) with
    ⟨n, rest, hpre, hint, hstoi⟩ | ⟨n, rest, hpre, hint, hstoi⟩ | ⟨hno, hstoi⟩
  · by_cases hrange : 1 ≤ n ∧ n ≤ 100
    · obtain ⟨s', es, hrun, hin⟩ := enter_number hs hc hline hfd hstoi hrange
      constructor
      · -- what follows the number would have to be refused, but the room is entered
        intro h m rest' hpre'
        obtain ⟨rfl, rfl⟩ := hpre.unique hpre'
        refine ⟨hint, fun _ => ?_⟩
        by_contra hrest
        have hrefuse := h.refuses fun m hm _ => absurd (hpre.of_literal hm).2 hrest
        rw [hrun] at hrefuse
        cases hrefuse
        exact hc (Map.mem_of_get? hin)
      · intro h
        obtain rfl := (h n rest hpre).2 hrange
        have hlit := literal_iff.mpr hpre
        refine ⟨fun m hm _ _ => ?_, fun hno => absurd hrange.2 (hno n hlit hrange.1)⟩
        obtain ⟨rfl, -⟩ := hpre.of_literal hm
        exact ⟨s', es, hrun, hin⟩
    · have hrefuse : (handleCommand c line list).run s = _ := enter_refused hs hc hline hfd
        (.inr ⟨n, hstoi, by omega⟩)
      refine ⟨fun _ m rest' hpre' => ?_, fun _ => ⟨fun m hm h1 h100 => ?_, fun _ => hrefuse⟩⟩
      · obtain ⟨rfl, rfl⟩ := hpre.unique hpre'
        exact ⟨hint, fun h => absurd h hrange⟩
      · obtain ⟨rfl, -⟩ := hpre.of_literal hm
        exact absurd ⟨h1, h100⟩ hrange
  · -- the exception is not caught
    have herr : (handleCommand c line list).run s = _ := lobby_error hc hline enter_ne_exit
      (enterChatRoom_overflow hs hfd hstoi)
    refine ⟨fun h => ?_, fun h => absurd (h n rest hpre).1 hint⟩
    have hrefuse := h.refuses fun m hm h1 h100 => by
      obtain ⟨rfl, -⟩ := hpre.of_literal hm
      unfold InInt at hint
      omega
    rw [herr] at hrefuse
    cases hrefuse
  · have hrefuse : (handleCommand c line list).run s = _ :=
      enter_refused hs hc hline hfd (.inl hstoi)
    refine ⟨fun _ n rest h => absurd h (hno n rest), fun _ => ⟨fun n hn => ?_, fun _ => hrefuse⟩⟩
    exact absurd (literal_iff.mp hn) (hno n [])

end Enter

section Close

variable (hs : s.Inv) (hc : c ∉ s.clientInChatRoom) (hfd : c ∈ s.clients)
  (hline : tokenize line = [ascii "close-chat-room", t])

include hs hc hfd hline

theorem close_refused
    (hn : stoi t = .error .invalidArgument ∨ ∃ n, stoi t = .ok n ∧ n ∉ s.chatRooms) :
    (handleCommand c line list).run s =
      .ok (list, s, [.send c (ascii "Chat room " ++ t ++ ascii " does not exist.\n% ")]) := by
  have hx := prompted_run (closeChatRoom_missing (c := ascii "close-chat-room") hs hfd hn)
  have htext : roomDoesNotExist t ++ ascii "% " =
      ascii "Chat room " ++ t ++ ascii " does not exist.\n% " := by
    simp [roomDoesNotExist, ascii]
  rw [htext] at hx
  have hrun : (handleCommand c line list).run s = _ := lobby_ok hc hline close_ne_exit hx
  exact hrun

/-- A number that names a room, with something behind it: the call does not refuse it. -/
theorem close_not_refused (hn : stoi t = .ok n) (hroom : n ∈ s.chatRooms) :
    (handleCommand c line list).run s ≠
      .ok (list, s, [.send c (ascii "Chat room " ++ t ++ ascii " does not exist.\n% ")]) := by
  obtain ⟨p, -, hp, -⟩ := hs.session_of_mem hfd
  obtain ⟨r, hr⟩ := Map.mem_iff.mp hroom
  rw [close_call hs hc hp hn hr hline]
  split
  · intro h
    have hrooms : s.chatRooms.erase n = s.chatRooms :=
      congrArg (fun x => x.2.1.chatRooms) (Except.ok.inj h)
    refine Map.not_mem_iff.mpr ?_ hroom
    rw [← hrooms, Map.get?_erase, if_pos rfl]
  · intro h
    have htext := congrArg (fun x => x.2.2) (Except.ok.inj h)
    simp only [List.cons.injEq, Effect.send.injEq, and_true, true_and] at htext
    have hhead : some (79 : UInt8) = some 67 := congrArg List.head? htext
    exact absurd hhead (by decide)

/-- **Closing, for one token.** -/
theorem close_iff : CloseWritten s c t line list ↔ ClosePlain s t := by
  rcases stoi_cases (token_plain hline) with
    ⟨n, rest, hpre, hint, hstoi⟩ | ⟨n, rest, hpre, hint, hstoi⟩ | ⟨hno, hstoi⟩
  · by_cases hroom : n ∈ s.chatRooms
    · constructor
      · intro h m rest' hpre'
        obtain ⟨rfl, rfl⟩ := hpre.unique hpre'
        refine ⟨hint, fun _ => ?_⟩
        by_contra hrest
        exact close_not_refused hs hc hfd hline hstoi hroom
          (h.refuses fun m hm => absurd (hpre.of_literal hm).2 hrest)
      · intro h
        obtain rfl := (h n rest hpre).2 hroom
        have hlit := literal_iff.mpr hpre
        refine ⟨fun m r p hm hr hp => ?_, fun hno => absurd hroom (hno n hlit)⟩
        obtain ⟨rfl, -⟩ := hpre.of_literal hm
        have hcall := close_call hs hc hp hstoi hr hline list
        refine ⟨fun ho => ⟨_, by rw [hcall, if_pos ho]⟩, fun ho => by rw [hcall, if_neg ho]⟩
    · have hrefuse : (handleCommand c line list).run s = _ :=
        close_refused hs hc hfd hline (.inr ⟨n, hstoi, hroom⟩)
      refine ⟨fun _ m rest' hpre' => ?_, fun _ => ⟨fun m r p hm hr _ => ?_, fun _ => hrefuse⟩⟩
      · obtain ⟨rfl, rfl⟩ := hpre.unique hpre'
        exact ⟨hint, fun h => absurd h hroom⟩
      · obtain ⟨rfl, -⟩ := hpre.of_literal hm
        exact absurd (Map.mem_of_get? hr) hroom
  · have herr : (handleCommand c line list).run s = _ := lobby_error hc hline close_ne_exit
      (prompted_error (closeChatRoom_overflow hs hfd hstoi))
    refine ⟨fun h => ?_, fun h => absurd (h n rest hpre).1 hint⟩
    -- the rooms have numbers from 1 to 100
    have hrefuse := h.refuses fun m hm hroom => by
      obtain ⟨rfl, -⟩ := hpre.of_literal hm
      obtain ⟨r, hr⟩ := Map.mem_iff.mp hroom
      have hnum := (hs.rooms.ok _ r hr).number
      unfold InInt at hint
      omega
    rw [herr] at hrefuse
    cases hrefuse
  · have hrefuse : (handleCommand c line list).run s = _ :=
      close_refused hs hc hfd hline (.inl hstoi)
    refine ⟨fun _ n rest h => absurd h (hno n rest),
      fun _ => ⟨fun n r p hn _ _ => ?_, fun _ => hrefuse⟩⟩
    exact absurd (literal_iff.mp hn) (hno n [])

end Close

end Calls

/-! ## 3. Every token in every reachable state -/

/-- **Where the two commands treat a token as the number it is**, for every logged-in connection in
    the lobby of a reachable server: exactly where a numeric prefix of it fits in an `int`, and is
    the whole token if it is the number of a room that may be entered, or that is there. -/
theorem parsing_iff {s : Server} (h : Calls.Reachable s) {c : Fd} (hc : c ∉ s.clientInChatRoom)
    (hfd : c ∈ s.clients) (t line : Bytes) (list : List Fd) :
    (tokenize line = [ascii "enter-chat-room", t] →
      (EnterWritten s c t line list ↔ EnterPlain t)) ∧
    (tokenize line = [ascii "close-chat-room", t] →
      (CloseWritten s c t line list ↔ ClosePlain s t)) :=
  ⟨fun hline => enter_iff (calls_inv h) hc hline hfd,
    fun hline => close_iff (calls_inv h) hc hfd hline⟩

/-- A user in the lobby. -/
def oneUser : List (Fd × Bytes) := [(4, ascii "register a 1"), (4, ascii "login a 1")]

theorem parsing_oneUser :
    EnterWritten (serverAfter oneUser) 4 (ascii "+7") (ascii "enter-chat-room +7") [] := by
  have hiff := (parsing_iff (serverAfter_reachable oneUser) (c := 4) (by decide) (by decide)
    (ascii "+7") (ascii "enter-chat-room +7") []).1 (by decide)
  refine hiff.mpr fun n rest hpre => ?_
  have hlit : NumericPrefix (ascii "+7") 7 [] :=
    literal_iff.mp ⟨ascii "7", by decide, List.all_eq_true.mp (by decide), .inr (.inl ⟨rfl, rfl⟩)⟩
  obtain ⟨rfl, rfl⟩ := hlit.unique hpre
  exact ⟨by decide, fun _ => rfl⟩

/-- `5abc` is no literal and enters room 5; a literal too large for an `int` ends the process. -/
theorem parsing_prefix :
    ¬ EnterWritten (serverAfter oneUser) 4 (ascii "5abc") (ascii "enter-chat-room 5abc") [] ∧
      (∃ s' es, (handleCommand 4 (ascii "enter-chat-room 5abc") []).run (serverAfter oneUser) =
        .ok ([], s', es) ∧ s'.clientInChatRoom[4]? = some 5) ∧
      (handleCommand 4 (ascii "close-chat-room 99999999999") []).run (serverAfter oneUser) =
        .error .outOfRange := by
  have hs := calls_inv (serverAfter_reachable oneUser)
  have hc : 4 ∉ (serverAfter oneUser).clientInChatRoom := by decide
  have hfd : 4 ∈ (serverAfter oneUser).clients := by decide
  have hpre : NumericPrefix (ascii "5abc") 5 (ascii "abc") := by
    refine ⟨ascii "5", rfl, ⟨ascii "5", by decide, List.all_eq_true.mp (by decide),
      .inl ⟨rfl, rfl⟩⟩, fun b hb => ?_⟩
    cases hb
    rfl
  refine ⟨fun h => ?_, ?_, ?_⟩
  · exact absurd (((enter_iff hs hc (by decide) hfd).mp h 5 _ hpre).2 (by decide)) (by decide)
  · have hstoi : stoi (ascii "5abc") = .ok 5 := by decide
    exact enter_number hs hc (by decide) hfd hstoi (by decide)
  · have hstoi : stoi (ascii "99999999999") = .error .outOfRange := by decide
    exact lobby_error hc (by decide) close_ne_exit
      (prompted_error (closeChatRoom_overflow hs hfd hstoi))

end InpLabs.Chat
