/-
  File:      InpLabs/Chat/Stream.lean
  Subject:   The lines a connection reads.

  * `streamOf`: all it has been sent, from the welcome text on; `arrived`: the lines the last call
    has completed;
  * `run_streams`: a line that is unfinished opens with a prompt, and in a room there is none.
-/
import InpLabs.Lib.Lines
import InpLabs.Chat.Prompt

namespace InpLabs.Chat

open InpLabs.Lib

/-- All the connection on the descriptor `d` has been sent: the welcome text, and the texts of the
    calls since. -/
def streamOf (d : Fd) : List Call → Bytes
  | [] => welcome
  | c :: cs =>
    if d ∈ closedBy c.effects then welcome
    else streamOf d cs ++ (sentTo d c.effects).flatten

/-- The lines that are complete with the call `c`, which the calls `cs` precede. -/
def arrived (d : Fd) (c : Call) (cs : List Call) : List Bytes :=
  (complete 10 (streamOf d (c :: cs))).drop (complete 10 (streamOf d cs)).length

/-- They are the lines of the texts of the call, behind the line that was unfinished. -/
theorem arrived_eq {d : Fd} {c : Call} (h : d ∉ closedBy c.effects) (cs : List Call) :
    arrived d c cs =
      complete 10 (unfinished 10 (streamOf d cs) ++ (sentTo d c.effects).flatten) := by
  rw [arrived, streamOf, if_neg h, complete_append, List.drop_left]

/-! ## 1. What is sent -/

/-- An unfinished line opens with the prompt's `%`. -/
abbrev Prompting (text : Bytes) : Prop := Marked 10 37 text

theorem EndsLine.prompting {text : Bytes} (h : EndsLine text) : Prompting text := .of_suffix h

theorem prompting_nil : Prompting [] := nofun

theorem prompting_prompt : Prompting (ascii "% ") := by
  have h : unfinished 10 (ascii "% ") = ascii "% " := by decide
  rw [Prompting, Marked, h]
  rintro c ⟨rfl⟩
  rfl

/-- A text that ends with a line, and the prompt behind it. -/
theorem EndsLine.prompted {x : Bytes} (h : EndsLine x) : Prompting (x ++ ascii "% ") :=
  h.prompting.append prompting_prompt

section Sends

variable {s t : Server} {fd d : Fd} {tokens : List Bytes} {x text bytes reply : Bytes}
  {es : List Effect} {n : Int} {r : ChatRoom} {p : Ptr}

theorem mem_sentTo : text ∈ sentTo d es ↔ Effect.send d text ∈ es := by
  induction es with
  | nil => simp [sentTo]
  | cons e es ih =>
    cases e with
    | send fd bytes =>
      by_cases h : fd = d
      · simp [sentTo, h, ih]
      · simp [sentTo, h, ih, Ne.symm h]
    | close fd => simp [sentTo, ih]
    | defaultRoom n => simp [sentTo, ih]

/-- A loop over members sends them one text. -/
theorem mem_toOthers {members : List Fd} (h : Effect.send d text ∈ toOthers members fd bytes) :
    text = bytes := by
  obtain ⟨d', -, heq⟩ := List.mem_map.mp h
  cases heq
  rfl

theorem LobbyAnswer.prompting (h : LobbyAnswer s fd tokens x) : Prompting x := by
  cases h with
  | usage hu h0 hk =>
    have hall : ∀ u ∈ lobbyUsages, EndsLine u.2.2 := by decide
    exact (hall _ hu).prompting
  | pleaseLogin => exact .of_suffix (by decide)
  | nameUsed => exact .of_suffix (by decide)
  | logoutFirst => exact .of_suffix (by decide)
  | loginFailed => exact .of_suffix (by decide)
  | whoami => exact (endsLine_append _).prompting
  | statusFailed => exact .of_suffix (by decide)
  | notValid => exact .of_suffix (suffix_append _ (by decide))
  | roomList =>
    -- there may be no room, and then no line
    refine .flatten fun line hline => ?_
    obtain ⟨n, -, rfl⟩ := List.mem_map.mp hline
    split
    · exact (endsLine_append _).prompting
    · exact prompting_nil
  | doesNotExist => exact .of_suffix (suffix_append _ (by decide))
  | onlyOwner => exact .of_suffix (by decide)
  | unknown => exact .of_suffix (by decide)

theorem LobbyStep.prompting (h : LobbyStep s fd tokens reply es t) :
    Prompting reply ∧ ∀ d text, Effect.send d text ∈ es → Prompting text := by
  cases h with
  | answers hx => exact ⟨hx.prompting.append prompting_prompt, nofun⟩
  | register => exact ⟨EndsLine.prompted (by decide), nofun⟩
  | login => exact ⟨EndsLine.prompted (suffix_append _ (by decide)), nofun⟩
  | logout => exact ⟨EndsLine.prompted (suffix_append _ (by decide)), nofun⟩
  | setStatus => exact ⟨(endsLine_append _).prompted, nofun⟩
  | listUser =>
    refine ⟨(Marked.flatten fun line hline => ?_).append prompting_prompt, nofun⟩
    obtain ⟨p, -, rfl⟩ := List.mem_map.mp hline
    exact (endsLine_userLine _).prompting
  | create => exact ⟨(endsLine_roomHeader _ _).prompting, nofun⟩
  | enter =>
    refine ⟨(endsLine_entry _ _).prompting, fun d text hmem => ?_⟩
    rw [mem_toOthers hmem]
    exact .of_suffix (suffix_append _ (by decide))
  | @close x =>
    have hclosed : Prompting (roomWasClosed x ++ ascii "% ") :=
      EndsLine.prompted (suffix_append _ (by decide))
    refine ⟨hclosed, fun d text hmem => ?_⟩
    rw [mem_toOthers hmem]
    exact hclosed

theorem RoomStep.prompting (h : RoomStep s fd n r p tokens reply es t) :
    Prompting reply ∧ ∀ d text, Effect.send d text ∈ es → Prompting text := by
  cases h with
  | answers hx => exact ⟨hx.endsLine.prompting, nofun⟩
  | pin =>
    refine ⟨(endsLine_pinLine _ _).prompting, fun d text hmem => ?_⟩
    rw [mem_toOthers hmem]
    exact (endsLine_pinLine _ _).prompting
  | unpin => exact ⟨prompting_nil, nofun⟩
  | leave =>
    refine ⟨prompting_prompt, fun d text hmem => ?_⟩
    rw [mem_toOthers hmem]
    exact .of_suffix (suffix_append _ (by decide))
  | chat =>
    refine ⟨(endsLine_chatLine _ _).prompting, fun d text hmem => ?_⟩
    rw [mem_toOthers hmem]
    exact (endsLine_chatLine _ _).prompting

/-- **Every text that is sent** leaves at most a prompt behind its last line. -/
theorem Step.prompting {list list' : List Fd} (h : Step s fd list tokens es t list')
    (hmem : text ∈ sentTo d es) : Prompting text := by
  rw [mem_sentTo] at hmem
  cases h with
  | blank =>
    obtain ⟨rfl, rfl⟩ := Effect.send.inj (List.mem_singleton.mp hmem)
    split
    · exact prompting_nil
    · exact prompting_prompt
  | lobby hl hne h =>
    rcases List.mem_append.mp hmem with hmem | hmem
    · exact h.prompting.2 d text hmem
    · obtain ⟨rfl, rfl⟩ := Effect.send.inj (List.mem_singleton.mp hmem)
      exact h.prompting.1
  | exit hl hfd =>
    obtain ⟨rfl, rfl⟩ : d = fd ∧ text = ascii "% " := by simpa using hmem
    exact prompting_prompt
  | @exitSession p hl hp =>
    have hbye : EndsLine (ascii "Bye, " ++ s.name p ++ ascii ".\n") :=
      suffix_append _ (by decide)
    have htext : text = ascii "Bye, " ++ s.name p ++ ascii ".\n" ∨
        text = ascii "Bye, " ++ s.name p ++ ascii ".\n" ++ ascii "% " := by
      simp only [List.mem_cons, Effect.send.injEq, reduceCtorEq, List.not_mem_nil, or_false,
        false_or] at hmem
      exact hmem.imp And.right And.right
    rcases htext with rfl | rfl
    · exact hbye.prompting
    · exact hbye.prompted
  | room hin hp hr hne h =>
    rcases List.mem_append.mp hmem with hmem | hmem
    · exact h.prompting.2 d text hmem
    · obtain ⟨rfl, rfl⟩ := Effect.send.inj (List.mem_singleton.mp hmem)
      exact h.prompting.1

end Sends

/-! ## 2. After every run -/

/-- What the streams are like while the server is `s`. -/
structure Streams (cs : List Call) (s : Server) : Prop where
  prompting : ∀ d, Prompting (streamOf d cs)
  line : ∀ d ∈ s.clientInChatRoom, EndsLine (streamOf d cs)

/-- In a room the last line is complete. -/
theorem Prompts.line_keep {s t : Server} {d : Fd} {text before : Bytes} (h : Prompts s t d text)
    (hs : d ∈ s.clientInChatRoom → EndsLine before) (hd : d ∈ t.clientInChatRoom) :
    EndsLine (before ++ text) := by
  cases h with
  | silent h he =>
    rw [he, List.append_nil]
    exact hs (h.mp hd)
  | line h he => exact suffix_append before he
  | prompted h he => exact absurd hd h

theorem prompting_welcome : Prompting welcome := by
  have h : unfinished 10 welcome = ascii "% " := by decide
  rw [Prompting, Marked, h]
  rintro c ⟨rfl⟩
  rfl

/-- **The streams after every run.** -/
theorem run_streams {cs : List Call} {s : Server} (h : Calls.Run cs s) : Streams cs s := by
  refine h.history_invariant (I := Streams) (fun s hs => ?_) fun cs s c t hrun ih hcall => ?_
  · obtain rfl : s = Server.new := hs
    exact ⟨fun _ => prompting_welcome, fun d hd => absurd hd (by simp [Server.new])⟩
  · have hs := calls_inv ⟨cs, hrun⟩
    have hstep := handleCommand_step hs hcall
    refine ⟨fun d => ?_, fun d hd => ?_⟩ <;> unfold streamOf
    · split
      · exact prompting_welcome
      · exact (ih.prompting d).append (.flatten fun text hmem => hstep.prompting hmem)
    · have hkept := hstep.kept (.inr hd)
      rw [if_neg hkept]
      exact (hstep.prompts hs d hkept).line_keep (ih.line d) hd

end InpLabs.Chat
