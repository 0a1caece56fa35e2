/-
  File:      InpLabs/Chat/Log.lean
  Subject:   The log of the chat server: what its commands have achieved so far, and what that
             says about sessions and rooms. Nothing here reads the server's state.

  * `Event`, `Log`: the successful commands, newest first. A lobby command counts as successful by
    the text it is answered with; a chat line and a pin are always accepted;
  * `sessionOf`, `roomOf`: whom a connection is logged in as and which room it is in;
  * `era`, `ownerOf`, `chatsOf`, `pinOf`: a room since it was last closed: who created it, the
    chat messages accepted in it, the message pinned in it;
  * `eventOf`, `logOf`: the event of a call and the log of a run.
-/
import InpLabs.Chat.Output
import InpLabs.Chat.Steps

namespace InpLabs.Chat

open InpLabs.Lib

/-! ## 1. Events -/

/-- A successful command. Room events carry the room and the user they came from. -/
inductive Event where
  | register (u w : Bytes)
  | login (fd : Fd) (u : Bytes)
  | logout (fd : Fd)
  | exit (fd : Fd)
  | enter (fd : Fd) (n : Int) (u : Bytes)
  | leave (fd : Fd)
  | close (n : Int)
  | chat (n : Int) (u m : Bytes)
  | pin (n : Int) (u m : Bytes)
  | unpin (n : Int)
  deriving DecidableEq

/-- The events so far, newest first. -/
abbrev Log := List Event

/-- The user of the last login of `fd` that no logout or exit of `fd` follows. -/
def sessionOf (fd : Fd) : Log → Option Bytes
  | [] => none
  | .login fd' u :: log => if fd' = fd then some u else sessionOf fd log
  | .logout fd' :: log => if fd' = fd then none else sessionOf fd log
  | .exit fd' :: log => if fd' = fd then none else sessionOf fd log
  | _ :: log => sessionOf fd log

/-- The room `fd` entered last, unless it has left it or the room has been closed since. -/
def roomOf (fd : Fd) : Log → Option Int
  | [] => none
  | .enter fd' n _ :: log => if fd' = fd then some n else roomOf fd log
  | .leave fd' :: log => if fd' = fd then none else roomOf fd log
  | .close n :: log => if roomOf fd log = some n then none else roomOf fd log
  | _ :: log => roomOf fd log

/-- The events since room `n` was last closed. -/
def era (n : Int) (log : Log) : Log := log.takeWhile (· ≠ .close n)

def enteredBy (n : Int) : Event → Option Bytes
  | .enter _ m u => if m = n then some u else none
  | _ => none

def recordIn (n : Int) : Event → Option ChatRecord
  | .chat m u x => if m = n then some ⟨u, x⟩ else none
  | _ => none

/-- A pin of room `n`, or its removal. -/
def pinIn (n : Int) : Event → Option (Option (Bytes × Bytes))
  | .pin m u x => if m = n then some (some (u, x)) else none
  | .unpin m => if m = n then some none else none
  | _ => none

/-- The user who created room `n`: the first to enter since it was last closed. -/
def ownerOf (n : Int) (log : Log) : Option Bytes := (era n log).reverse.findSome? (enteredBy n)

/-- The chat messages accepted in room `n` since it was last closed, in order. -/
def chatsOf (n : Int) (log : Log) : List ChatRecord := (era n log).reverse.filterMap (recordIn n)

/-- The last message pinned in room `n` since it was last closed, if it is still pinned. -/
def pinOf (n : Int) (log : Log) : Option (Bytes × Bytes) := ((era n log).findSome? (pinIn n)).join

section Rooms

variable (n : Int) (e : Event) (log : Log)

theorem era_cons : era n (e :: log) = if e = .close n then [] else e :: era n log := by
  unfold era
  rw [List.takeWhile_cons]
  by_cases h : e = .close n <;> simp [h]

theorem ownerOf_cons :
    ownerOf n (e :: log) =
      if e = .close n then none else (ownerOf n log).or (enteredBy n e) := by
  unfold ownerOf
  rw [era_cons]
  split
  · rfl
  · rw [List.reverse_cons, List.findSome?_append, List.findSome?_singleton]

theorem chatsOf_cons :
    chatsOf n (e :: log) =
      if e = .close n then [] else chatsOf n log ++ (recordIn n e).toList := by
  unfold chatsOf
  rw [era_cons]
  split
  · rfl
  · rw [List.reverse_cons, List.filterMap_append]
    cases h : recordIn n e <;> simp [h]

theorem pinOf_cons :
    pinOf n (e :: log) =
      if e = .close n then none else ((pinIn n e).or (some (pinOf n log))).join := by
  unfold pinOf
  rw [era_cons]
  split
  · rfl
  · rw [List.findSome?_cons]
    cases h : pinIn n e <;> rfl

end Rooms

/-! ## 2. The log of a run -/

/-- The text a call answers its connection with, which it sends last. -/
def Call.reply (c : Call) : Bytes := replyTo c.fd c.effects

/-- The words as they appear in a room: joined and filtered. -/
def filtered (ws : List Bytes) : Bytes := (filterMessage filterWords (joinTokens ws)).getD []

/-- What a lobby command has achieved, by its answer. -/
def lobbyEvent (log : Log) (fd : Fd) (reply : Bytes) : List Bytes → Option Event
  | [c] =>
    if c = ascii "exit" then some (.exit fd)
    else if c = ascii "logout" ∧ ascii "Bye, " <+: reply then some (.logout fd)
    else none
  | [c, t] =>
    match stoi t with
    | .ok n =>
      if c = ascii "enter-chat-room" ∧ ascii "Welcome " <+: reply then
        some (.enter fd n ((sessionOf fd log).getD []))
      else if c = ascii "close-chat-room" ∧ reply = roomWasClosed t ++ ascii "% " then
        some (.close n)
      else none
    | .error _ => none
  | [c, u, w] =>
    if c = ascii "register" ∧ reply = ascii "Register successfully.\n% " then some (.register u w)
    else if c = ascii "login" ∧ reply = ascii "Welcome, " ++ u ++ ascii ".\n% " then
      some (.login fd u)
    else none
  | _ => none

/-- What a command in room `n` has achieved. -/
def roomEvent (log : Log) (fd : Fd) (n : Int) (reply : Bytes) (tokens : List Bytes) :
    Option Event :=
  let u := (sessionOf fd log).getD []
  if tokens = [ascii "/exit-chat-room"] then some (.leave fd)
  else if tokens = [ascii "/delete-pin"] then if reply = [] then some (.unpin n) else none
  else if token tokens 0 = ascii "/pin" then
    if 2 ≤ tokens.length then some (.pin n u (filtered tokens.tail)) else none
  else if tokens = [] ∨ (token tokens 0).head? = some 47 then none
  else some (.chat n u (filtered tokens))

/-- The event of a call, if it achieves anything. What a line means depends on whether its
    connection is in a room. -/
def eventOf (log : Log) (c : Call) : Option Event :=
  match roomOf c.fd log with
  | none => lobbyEvent log c.fd c.reply (tokenize c.line)
  | some n => roomEvent log c.fd n c.reply (tokenize c.line)

/-- The log of a run, whose last call stands first. -/
def logOf : List Call → Log
  | [] => []
  | c :: cs => (eventOf (logOf cs) c).toList ++ logOf cs

end InpLabs.Chat
