/-
  File:      InpLabs/Chat/Atomic.lean
  Subject:   A command that is answered with an error, and a command that only reads.

  * `ErrorText`, `ErrorAnswer`: the texts the handlers refuse a command with, and an answer that is
    such a text, with or without the prompt. No other answer looks like one: it begins otherwise, or
    (`set-status`, `list-user`) ends with a status;
  * `ReadOnly`: the listings and `whoami`, in the mode where they are commands;
  * `failed_atomic`: neither kind changes the server or reaches another connection.
-/
import InpLabs.Chat.Delivery
import InpLabs.Chat.Prompt

namespace InpLabs.Chat

open InpLabs.Lib
open ServerM (run)

/-! ## 1. Error answers -/

/-- The texts that tell how a command is to be used. -/
def usageTexts : List Bytes :=
  lobbyUsages.map (·.2.2) ++
    [ascii "Usage: /pin <message>\n", ascii "Usage: /delete-pin\n",
      ascii "Usage: /exit-chat-room\n", ascii "Usage: /list-user\n"]

/-- The other refusals that are always the same. -/
def refusals : List Bytes :=
  [ascii "Username is already used.\n", ascii "Login failed.\n", ascii "Please logout first.\n",
    pleaseLogin, ascii "set-status failed\n", ascii "Only the owner can close this chat room.\n",
    ascii "Error: Unknown command\n"]

/-- A text a command is refused with. -/
inductive ErrorText : Bytes → Prop where
  | fixed {x : Bytes} (hx : x ∈ usageTexts ++ refusals) : ErrorText x
  | notValid (arg : Bytes) : ErrorText (ascii "Number " ++ arg ++ ascii " is not valid.\n")
  | doesNotExist (arg : Bytes) : ErrorText (roomDoesNotExist arg)
  | noPin (n : Int) :
      ErrorText (ascii "No pin message in chat room " ++ toStringInt n ++ ascii "\n")

/-- An answer that is a refusal, with the prompt where the lobby adds it. -/
def ErrorAnswer (reply : Bytes) : Prop :=
  ∃ x, ErrorText x ∧ (reply = x ∨ reply = x ++ ascii "% ")

/-- How the refusals begin, but for the one that names a room. -/
def errorStarts : List Bytes :=
  [ascii "Us", ascii "Lo", ascii "Pl", ascii "se", ascii "On", ascii "Er", ascii "Nu", ascii "No"]

section Texts

variable {x reply : Bytes}

/-- How the texts that are always the same begin and end. -/
theorem fixed_texts : ∀ x ∈ usageTexts ++ refusals, x.take 2 ∈ errorStarts ∧ EndsLine x ∧
    ∀ st ∈ [ascii "online", ascii "offline", ascii "busy"], ¬ st ++ ascii "\n" <:+ x := by
  decide +kernel

theorem ErrorText.start (h : ErrorText x) :
    x.take 2 ∈ errorStarts ∨ ∃ arg, x = roomDoesNotExist arg := by
  cases h with
  | fixed hx => exact .inl (fixed_texts x hx).1
  | notValid arg =>
    have hnu : ascii "Nu" ∈ errorStarts := by decide
    exact .inl hnu
  | doesNotExist arg => exact .inr ⟨arg, rfl⟩
  | noPin n =>
    have hno : ascii "No" ∈ errorStarts := by decide
    exact .inl hno

/-- Every refusal is a line. -/
theorem ErrorText.endsLine (h : ErrorText x) : EndsLine x := by
  cases h with
  | fixed hx => exact (fixed_texts x hx).2.1
  | notValid arg => exact suffix_append _ (by decide)
  | doesNotExist arg => exact suffix_append _ (by decide)
  | noPin n => exact endsLine_append _

/-- No refusal ends with a status. -/
theorem ErrorText.no_status (h : ErrorText x) {status : Bytes} (hst : validStatus status) :
    ¬ status ++ ascii "\n" <:+ x := by
  have hmem : status ∈ [ascii "online", ascii "offline", ascii "busy"] := by
    simpa [validStatus] using hst
  cases h with
  | fixed hx => exact (fixed_texts x hx).2.2 status hmem
  | notValid arg =>
    intro hsuf
    have hall : ∀ st ∈ [ascii "online", ascii "offline", ascii "busy"],
        (st ++ ascii "\n").length ≤ (ascii " is not valid.\n").length ∧
          ¬ st ++ ascii "\n" <:+ ascii " is not valid.\n" := by decide
    exact (hall status hmem).2
      (List.suffix_of_suffix_length_le hsuf (List.suffix_append _ _) (hall status hmem).1)
  | doesNotExist arg =>
    intro hsuf
    have hall : ∀ st ∈ [ascii "online", ascii "offline", ascii "busy"],
        (st ++ ascii "\n").length ≤ (ascii " does not exist.\n").length ∧
          ¬ st ++ ascii "\n" <:+ ascii " does not exist.\n" := by decide
    exact (hall status hmem).2
      (List.suffix_of_suffix_length_le hsuf (List.suffix_append _ _) (hall status hmem).1)
  | noPin n =>
    rintro ⟨z, hz⟩
    rw [← List.append_assoc] at hz
    have hline := List.append_cancel_right hz
    -- the byte before the newline is one of the number, or the space before it
    have hlast := congrArg List.getLast? hline
    have hall : ∀ st ∈ [ascii "online", ascii "offline", ascii "busy"],
        ∃ b, st.getLast? = some b ∧ b ≠ 32 ∧ b ≠ 45 ∧ isdigit b = false := by decide
    obtain ⟨b, hb, h32, h45, hdigit⟩ := hall status hmem
    rw [List.getLast?_append, List.getLast?_append, hb] at hlast
    cases hn : (toStringInt n).getLast? with
    | none =>
      rw [hn] at hlast
      exact h32 (Option.some.inj hlast)
    | some c =>
      rw [hn] at hlast
      obtain rfl : b = c := Option.some.inj hlast
      rcases toStringInt_bytes (List.mem_of_getLast? hn) with h | h
      · exact h45 h
      · rw [hdigit] at h
        cases h

theorem ErrorText.ne_nil (h : ErrorText x) : 2 ≤ x.length := by
  rcases h.start with hx | ⟨arg, rfl⟩
  · have hlen : ∀ y ∈ errorStarts, y.length = 2 := by decide
    have htake := hlen _ hx
    rw [List.length_take] at htake
    omega
  · simp only [roomDoesNotExist, List.length_append]
    have hlen : (ascii "Chat room ").length = 10 := by decide
    omega

/-- An answer that begins otherwise is no refusal. -/
theorem not_error_of_start (c : Bytes) (hr : reply.take 2 = c)
    (hc : c ∉ ascii "Ch" :: errorStarts) : ¬ ErrorAnswer reply := by
  intro ⟨x, hx, hreply⟩
  have htake : reply.take 2 = x.take 2 := by
    rcases hreply with rfl | rfl
    · rfl
    · exact List.take_append_of_le_length hx.ne_nil
  rw [← hr, htake] at hc
  rcases hx.start with h | ⟨arg, rfl⟩
  · exact hc (List.mem_cons_of_mem _ h)
  · exact hc List.mem_cons_self

/-- A line that ends with a status, and the prompt, are no refusal. -/
theorem not_error_of_status (line : Bytes) {status : Bytes} (hst : validStatus status) :
    ¬ ErrorAnswer (line ++ status ++ ascii "\n" ++ ascii "% ") := by
  intro ⟨x, hx, hr⟩
  rcases hr with hr | hr
  · exact hx.endsLine.not_prompt (hr ▸ List.suffix_append _ _)
  · have hline := List.append_cancel_right hr
    exact hx.no_status hst ⟨line, by rw [← hline, List.append_assoc]⟩

theorem not_error_closed (arg : Bytes) : ¬ ErrorAnswer (roomWasClosed arg ++ ascii "% ") := by
  intro ⟨x, hx, hr⟩
  rcases hr with hr | hr
  · exact hx.endsLine.not_prompt (hr ▸ List.suffix_append _ _)
  · obtain rfl := List.append_cancel_right hr
    rcases hx.start with h | ⟨arg', h⟩
    · have hch : ascii "Ch" ∉ errorStarts := by decide
      exact hch h
    · have hclosed : ascii "closed.\n" <:+ roomWasClosed arg := suffix_append _ (by decide)
      rw [h] at hclosed
      have hexist : ascii "exist.\n" <:+ roomDoesNotExist arg' := suffix_append _ (by decide)
      exact absurd (List.suffix_of_suffix_length_le hexist hclosed (by decide)) (by decide)

end Texts

/-! ## 2. Statuses -/

/-- Every account has one of the three statuses. -/
def Server.Statuses (s : Server) : Prop := ∀ p ∈ s.registerdUser, validStatus (s.heap p).status

section Statuses

variable {s t : Server} {fd : Fd} {tokens : List Bytes}

theorem withStatus_statuses (hs : s.Statuses) {p : Ptr} {status : Bytes} (h : validStatus status) :
    (s.withStatus p status).Statuses := by
  intro q hq
  by_cases hqp : q = p
  · subst hqp
    simpa [Server.withStatus] using h
  · simpa [Server.withStatus, hqp] using hs q hq

theorem addUser_statuses (hi : s.Inv) (hs : s.Statuses) (u w : Bytes) :
    (s.addUser u w).Statuses := by
  intro q hq
  rcases mem_addUser.mp hq with h | rfl
  · have hne := Nat.ne_of_lt (hi.accounts.lt_allocated q h)
    simpa [Server.addUser, hne] using hs q h
  · have hself : ((s.addUser u w).heap s.allocated).status = ascii "offline" := by
      simp [Server.addUser]
    rw [hself]
    exact .inr (.inl rfl)

theorem Step.statuses (hi : s.Inv) (hs : s.Statuses) {es : List Effect} {list list' : List Fd}
    (h : Step s fd list tokens es t list') : t.Statuses := by
  have hoff : validStatus (ascii "offline") := .inr (.inl rfl)
  cases h with
  | blank => exact hs
  | lobby hl hne h =>
    cases h with
    | answers hx => exact hs
    | register hu hfree => exact addUser_statuses hi hs _ _
    | login hfd hp hu hw hout => exact withStatus_statuses hs (.inl rfl)
    | logout hp => exact withStatus_statuses hs hoff
    | setStatus hp hst => exact withStatus_statuses hs hst
    | listUser hfd => exact fun p hp => hs p ((List.perm_insertionSort _ _).mem_iff.mp hp)
    | create hp hn h1 hnew => exact hs
    | enter hp hn hr => exact hs
    | close hp hn hr ho => exact hs
  | exit hl hfd => exact hs
  | exitSession hl hp => exact withStatus_statuses hs hoff
  | room hin hp hr hne h => cases h <;> exact hs

theorem calls_statuses (h : Calls.Reachable s) : s.Statuses := by
  refine (h.invariant (I := fun s => s.Inv ∧ s.Statuses) ?_ ?_).2
  · rintro s (rfl : s = Server.new)
    exact ⟨Server.new_inv, fun p hp => absurd hp List.not_mem_nil⟩
  · rintro s c t ⟨hi, hs⟩ (hrun : (handleCommand c.fd c.line c.list).run s = _)
    have hstep := handleCommand_step hi hrun
    exact ⟨hstep.inv hi, hstep.statuses hi hs⟩

end Statuses

/-! ## 3. Steps answered with an error -/

section Unchanged

variable {s t : Server} {fd : Fd} {tokens : List Bytes} {reply : Bytes} {es : List Effect}

/-- A listing of accounts is no refusal. -/
theorem not_error_users (hs : s.Statuses) {l : List Ptr} (hl : ∀ p ∈ l, p ∈ s.registerdUser) :
    ¬ ErrorAnswer ((l.flatMap fun p => userLine (s.heap p)) ++ ascii "% ") := by
  rcases List.eq_nil_or_concat l with rfl | ⟨init, p, rfl⟩
  · exact not_error_of_start (ascii "% ") rfl (by decide)
  · rw [List.concat_eq_append] at hl ⊢
    rw [List.flatMap_append, List.flatMap_singleton]
    have hst := hs p (hl p (by simp))
    have hline := not_error_of_status ((init.flatMap fun p => userLine (s.heap p)) ++
      (s.heap p).username ++ ascii " ") hst
    simpa [userLine] using hline

theorem LobbyStep.unchanged (hs : s.Statuses) (h : LobbyStep s fd tokens reply es t)
    (he : ErrorAnswer reply) : t = s ∧ es = [] := by
  cases h with
  | answers hx => exact ⟨rfl, rfl⟩
  | register hu hfree => exact absurd he (not_error_of_start (ascii "Re") rfl (by decide))
  | login hfd hp hu hw hout => exact absurd he (not_error_of_start (ascii "We") rfl (by decide))
  | logout hp => exact absurd he (not_error_of_start (ascii "By") rfl (by decide))
  | setStatus hp hst => exact absurd he (not_error_of_status _ hst)
  | listUser hfd =>
    exact absurd he (not_error_users hs fun p hp => (List.perm_insertionSort _ _).mem_iff.mp hp)
  | create hp hn h1 hnew => exact absurd he (not_error_of_start (ascii "We") rfl (by decide))
  | enter hp hn hr => exact absurd he (not_error_of_start (ascii "We") rfl (by decide))
  | close hp hn hr ho => exact absurd he (not_error_closed _)

theorem RoomStep.unchanged {n : Int} {r : ChatRoom} {p : Ptr}
    (h : RoomStep s fd n r p tokens reply es t) (he : ErrorAnswer reply) : t = s ∧ es = [] := by
  cases h with
  | answers hx => exact ⟨rfl, rfl⟩
  | pin hws hm => exact absurd he (not_error_of_start (ascii "Pi") rfl (by decide))
  | unpin hpin => exact absurd he (not_error_of_start [] rfl (by decide))
  | leave => exact absurd he (not_error_of_start (ascii "% ") rfl (by decide))
  | chat hw hm =>
    have hhead : ∀ c ∈ ascii "Ch" :: errorStarts, c.head? ≠ some 91 := by decide
    exact absurd he (not_error_of_start _ rfl fun hc => hhead _ hc rfl)

theorem Step.unchanged (hs : s.Statuses) {list list' : List Fd}
    (h : Step s fd list tokens es t list') (he : ErrorAnswer (replyTo fd es)) :
    list' = list ∧ t = s ∧ es = [.send fd (replyTo fd es)] := by
  cases h with
  | blank => exact ⟨rfl, rfl, by simp [replyTo, sentTo]⟩
  | lobby hl hne h =>
    rw [replyTo_send] at he ⊢
    obtain ⟨rfl, rfl⟩ := h.unchanged hs he
    exact ⟨rfl, rfl, rfl⟩
  | exit hl hfd =>
    have hreply : replyTo fd [.close fd, .send fd (ascii "% ")] = ascii "% " :=
      replyTo_send fd [.close fd] _
    rw [hreply] at he
    exact absurd he (not_error_of_start (ascii "% ") rfl (by decide))
  | exitSession hl hp =>
    rename_i p
    have hreply := replyTo_send fd [.send fd (ascii "Bye, " ++ s.name p ++ ascii ".\n"), .close fd]
      (ascii "Bye, " ++ s.name p ++ ascii ".\n" ++ ascii "% ")
    rw [List.cons_append, List.cons_append, List.nil_append] at hreply
    rw [hreply] at he
    exact absurd he (not_error_of_start (ascii "By") rfl (by decide))
  | room hin hp hr hne h =>
    rw [replyTo_send] at he ⊢
    obtain ⟨rfl, rfl⟩ := h.unchanged he
    exact ⟨rfl, rfl, rfl⟩

end Unchanged

/-! ## 4. Commands that only read -/

/-- The lobby commands that list accounts or rooms or tell who is logged in. -/
def readers : List Bytes := [ascii "whoami", ascii "list-user", ascii "list-chat-room"]

/-- A command that only reads, in the mode where it is one. -/
def ReadOnly (s : Server) (fd : Fd) (line : Bytes) : Prop :=
  if fd ∈ s.clientInChatRoom then token (tokenize line) 0 = ascii "/list-user"
  else token (tokenize line) 0 ∈ readers

section Reads

variable {s t : Server} {fd : Fd} {tokens : List Bytes} {reply : Bytes} {es : List Effect}

theorem LobbyStep.reads (h : LobbyStep s fd tokens reply es t)
    (hc : token tokens 0 ∈ readers) : es = [] ∧
      ∃ l, t = { s with registerdUser := l } ∧ l.Perm s.registerdUser := by
  cases h with
  | answers hx => exact ⟨rfl, _, rfl, List.Perm.refl _⟩
  | listUser hfd => exact ⟨rfl, _, rfl, List.perm_insertionSort _ _⟩
  | register => exact absurd hc (by decide : ascii "register" ∉ readers)
  | login => exact absurd hc (by decide : ascii "login" ∉ readers)
  | logout => exact absurd hc (by decide : ascii "logout" ∉ readers)
  | setStatus => exact absurd hc (by decide : ascii "set-status" ∉ readers)
  | create => exact absurd hc (by decide : ascii "enter-chat-room" ∉ readers)
  | enter => exact absurd hc (by decide : ascii "enter-chat-room" ∉ readers)
  | close => exact absurd hc (by decide : ascii "close-chat-room" ∉ readers)

theorem RoomStep.reads {n : Int} {r : ChatRoom} {p : Ptr}
    (h : RoomStep s fd n r p tokens reply es t)
    (hc : token tokens 0 = ascii "/list-user") : es = [] ∧ t = s := by
  cases h with
  | answers hx => exact ⟨rfl, rfl⟩
  | pin => exact absurd hc (by decide : ascii "/pin" ≠ ascii "/list-user")
  | unpin => exact absurd hc (by decide : ascii "/delete-pin" ≠ ascii "/list-user")
  | leave => exact absurd hc (by decide : ascii "/exit-chat-room" ≠ ascii "/list-user")
  | chat hw hm => exact absurd (congrArg List.head? hc) hw

/-- A command that only reads returns, and at most sorts the accounts. -/
theorem readOnly_run (hs : s.Inv) {line : Bytes} (hread : ReadOnly s fd line) (list : List Fd) :
    ∃ reply l, (handleCommand fd line list).run s =
      .ok (list, { s with registerdUser := l }, [.send fd reply]) ∧ l.Perm s.registerdUser := by
  unfold ReadOnly at hread
  rcases handleCommand_spec hs fd line list with
    ⟨list', t, es, hrun, hstep⟩ | ⟨-, c, x, htok, hc, -⟩
  · rw [hrun]
    generalize tokenize line = tokens at hread hstep
    cases hstep with
    | blank =>
      split at hread
      · cases hread
      · exact absurd hread (by decide : token [] 0 ∉ readers)
    | lobby hl hne h =>
      rw [if_neg hl] at hread
      obtain ⟨rfl, l, rfl, hl⟩ := h.reads hread
      exact ⟨_, l, rfl, hl⟩
    | exit hl hfd =>
      rw [if_neg hl] at hread
      exact absurd hread (by decide : ascii "exit" ∉ readers)
    | exitSession hl hp =>
      rw [if_neg hl] at hread
      exact absurd hread (by decide : ascii "exit" ∉ readers)
    | room hin hp hr hne h =>
      rw [if_pos (Map.mem_of_get? hin)] at hread
      obtain ⟨rfl, rfl⟩ := h.reads hread
      exact ⟨_, _, rfl, List.Perm.refl _⟩
  · rw [htok] at hread
    have hno : ∀ c ∈ [ascii "enter-chat-room", ascii "close-chat-room"],
        c ≠ ascii "/list-user" ∧ c ∉ readers := by decide
    have hmem : c ∈ [ascii "enter-chat-room", ascii "close-chat-room"] := by simpa using hc
    split at hread
    · exact absurd hread (hno c hmem).1
    · exact absurd hread (hno c hmem).2

end Reads

/-! ## 5. Failed and read-only commands are atomic -/

section Atomic

variable {s : Server}

/-- **An error answer comes from a call that changes nothing and sends nothing else, and a command
    that only reads at most sorts the accounts.** -/
theorem failed_atomic (h : Calls.Reachable s) (fd : Fd) (line : Bytes) (list : List Fd) :
    (∀ list' t es, (handleCommand fd line list).run s = .ok (list', t, es) →
      ErrorAnswer (replyTo fd es) → list' = list ∧ t = s ∧ es = [.send fd (replyTo fd es)]) ∧
    (ReadOnly s fd line → ∃ reply l, (handleCommand fd line list).run s =
      .ok (list, { s with registerdUser := l }, [.send fd reply]) ∧ l.Perm s.registerdUser) :=
  ⟨fun _ _ _ hrun he => (handleCommand_step (calls_inv h) hrun).unchanged (calls_statuses h) he,
    fun hread => readOnly_run (calls_inv h) hread list⟩

end Atomic

/-- A member of a room without a pin asks for its removal, and then for the members. -/
theorem failed_atomic_noPin :
    (∃ es, (handleCommand 4 (ascii "/delete-pin") []).run (serverAfter twoMembers) =
      .ok ([], serverAfter twoMembers, es) ∧
        es = [.send 4 (ascii "No pin message in chat room 7\n")]) ∧
    ∃ reply l, (handleCommand 4 (ascii "/list-user") []).run (serverAfter twoMembers) =
      .ok ([], { serverAfter twoMembers with registerdUser := l }, [.send 4 reply]) ∧
        l.Perm (serverAfter twoMembers).registerdUser := by
  have hreach := serverAfter_reachable twoMembers
  refine ⟨?_, (failed_atomic hreach 4 (ascii "/list-user") []).2 (by unfold ReadOnly; decide)⟩
  have hreply : ((handleCommand 4 (ascii "/delete-pin") []).run (serverAfter twoMembers)).map
      (fun r => replyTo 4 r.2.2) = .ok (ascii "No pin message in chat room 7\n") := by decide
  obtain ⟨list', t, es, hok, -⟩ | ⟨hrun, -⟩ :=
    handleCommand_spec (calls_inv hreach) 4 (ascii "/delete-pin") []
  swap
  · rw [hrun] at hreply
    cases hreply
  rw [hok] at hreply
  have hes : replyTo 4 es = ascii "No pin message in chat room 7\n" := Except.ok.inj hreply
  have herror : ErrorAnswer (replyTo 4 es) := hes ▸ ⟨_, .noPin 7, .inl rfl⟩
  obtain ⟨rfl, rfl, he⟩ := (failed_atomic hreach 4 (ascii "/delete-pin") []).1 _ _ _ hok herror
  exact ⟨es, hok, hes ▸ he⟩

end InpLabs.Chat
