/-
  File:      InpLabs/Chat/Server.lean
  Subject:   The chat server's data and its command handlers (homework2: header.hpp,
             chatroom.cpp, server.cpp).

  * `Server`: the maps, sets and vectors of class `Server`. A `User *` is a pointer into `heap`,
    where `new User()` allocates and nothing is freed; the null pointer is `none`.
  * `ServerM`: a handler reads and changes the server, sends bytes, and may end the process
    (`Fault`). `operator[]` of a map is modelled with its side effect: a missing key is inserted
    with a default value. For `chatRooms` that insertion also leaves a mark in the output
    (`Effect.defaultRoom`), which stands for no action of the process.
  * one definition for each member function, in the order of server.cpp.
-/
import InpLabs.Lib.Cxx
import InpLabs.Lib.Map

namespace InpLabs.Chat

open InpLabs.Lib

/-! ## 1. Data (header.hpp, chatroom.cpp) -/

/-- A file descriptor. -/
abbrev Fd := Nat

/-- A non-null `User *`. -/
abbrev Ptr := Nat

structure User where
  username : Bytes
  password : Bytes
  status : Bytes := ascii "offline"
  deriving DecidableEq

structure ChatRecord where
  username : Bytes
  message : Bytes
  deriving DecidableEq

structure ChatRoom where
  owner : Bytes
  clients : List Fd
  history : List ChatRecord
  pinnedMessage : Bytes × Bytes
  filterList : List Bytes
  deriving DecidableEq

/-- The words the second constructor of `ChatRoom` puts into `filter_list`. -/
def filterWords : List Bytes :=
  [ascii "==", ascii "Superpie", ascii "hello", ascii "Starburst Stream", ascii "Domain Expansion"]

/-- `ChatRoom::ChatRoom()`. -/
def ChatRoom.default : ChatRoom := ⟨[], [], [], ([], []), []⟩

/-- `ChatRoom::ChatRoom(const std::string &owner)`. -/
def ChatRoom.new (owner : Bytes) : ChatRoom := ⟨owner, [], [], ([], []), filterWords⟩

/-- `std::map<int, α>` with descriptors as keys. -/
abbrev FdMap (α : Type) := Map.TreeMap Fd α

/-- `std::map<int, ChatRoom>`. -/
abbrev RoomMap := Map.TreeMap Int ChatRoom

structure Server where
  heap : Ptr → User
  allocated : Nat
  clients : FdMap (Option Ptr)
  registerdUser : List Ptr
  chatRooms : RoomMap
  loggedInUsers : Finset Bytes
  clientInChatRoom : FdMap Int
  masterSet : Finset Fd

/-- `Server::Server()`. -/
def Server.new : Server where
  heap _ := ⟨[], [], ascii "offline"⟩
  allocated := 0
  clients := ∅
  registerdUser := []
  chatRooms := ∅
  loggedInUsers := ∅
  clientInChatRoom := ∅
  masterSet := ∅

def Server.addSocket (s : Server) (socket : Fd) : Server :=
  { s with masterSet := insert socket s.masterSet }

def Server.removeSocket (s : Server) (socket : Fd) : Server :=
  { s with masterSet := s.masterSet.erase socket }

/-! ## 2. What a handler can do -/

/-- What ends the process inside a handler. -/
inductive Fault where
  | nullDeref
  | outOfRange
  | diverges
  deriving DecidableEq, Repr

/-- What a handler does to the outside, and the mark of a silently created room. -/
inductive Effect where
  | send (fd : Fd) (bytes : Bytes)
  | close (fd : Fd)
  | defaultRoom (number : Int)
  deriving DecidableEq

/-- A handler: from a server to an answer, the changed server and what it did, in order. -/
def ServerM (α : Type) : Type := Server → Except Fault (α × Server × List Effect)

namespace ServerM

def run {α : Type} (x : ServerM α) (s : Server) : Except Fault (α × Server × List Effect) := x s

instance : Monad ServerM where
  pure a := fun s => .ok (a, s, [])
  bind x f := fun s =>
    match x s with
    | .error e => .error e
    | .ok (a, s₁, e₁) =>
      match f a s₁ with
      | .error e => .error e
      | .ok (b, s₂, e₂) => .ok (b, s₂, e₁ ++ e₂)

def get : ServerM Server := fun s => .ok (s, s, [])

def modify (f : Server → Server) : ServerM Unit := fun s => .ok ((), f s, [])

def emit (es : List Effect) : ServerM Unit := fun s => .ok ((), s, es)

def fail {α : Type} (e : Fault) : ServerM α := fun _ => .error e

end ServerM

open ServerM (get modify emit fail)

/-- `send(fd, bytes.c_str(), bytes.size(), 0)`. -/
def send (fd : Fd) (bytes : Bytes) : ServerM Unit := emit [.send fd bytes]

/-- The loops that send `bytes` to every member of a room but `fd`. -/
def broadcast (members : List Fd) (fd : Fd) (bytes : Bytes) : ServerM Unit :=
  emit ((members.filter (· ≠ fd)).map (.send · bytes))

/-- `clients[fd]`. -/
def clientPtr (fd : Fd) : ServerM (Option Ptr) := do
  match (← get).clients[fd]? with
  | some p => return p
  | none =>
    modify fun s => { s with clients := s.clients.insert fd none }
    return none

/-- `*p`. -/
def deref : Option Ptr → ServerM User
  | some p => return (← get).heap p
  | none => fail .nullDeref

/-- `*clients[fd]`. -/
def client (fd : Fd) : ServerM User := do deref (← clientPtr fd)

/-- `clients[fd]->status = status`. -/
def setStatus (fd : Fd) (status : Bytes) : ServerM Unit := do
  match ← clientPtr fd with
  | some p =>
    modify fun s => { s with heap := Function.update s.heap p { s.heap p with status := status } }
  | none => fail .nullDeref

/-- `chatRooms[number]`. -/
def room (number : Int) : ServerM ChatRoom := do
  match (← get).chatRooms[number]? with
  | some r => return r
  | none =>
    modify fun s => { s with chatRooms := s.chatRooms.insert number .default }
    emit [.defaultRoom number]
    return .default

/-- An assignment to a part of `chatRooms[number]`. -/
def modifyRoom (number : Int) (f : ChatRoom → ChatRoom) : ServerM Unit := do
  let r ← room number
  modify fun s => { s with chatRooms := s.chatRooms.insert number (f r) }

/-- `client_in_chat_room[fd]` where the key is known to be there. -/
def currentRoom (fd : Fd) : ServerM Int := return (← get).clientInChatRoom[fd]?.getD 0

/-- `clients.find(fd) == clients.end() ||
    loggedInUsers.find(clients[fd]->username) == loggedInUsers.end()`. -/
def notLoggedIn (fd : Fd) : ServerM Bool := do
  if fd ∈ (← get).clients then
    let u ← client fd
    return u.username ∉ (← get).loggedInUsers
  else return true

/-- The checks most handlers open with: the number of tokens, then the login. -/
def withSession (arity : Bool) (usage refusal : Bytes) (fd : Fd) (body : ServerM Bytes) :
    ServerM Bytes := do
  if !arity then return usage
  if ← notLoggedIn fd then return refusal
  body

/-- The further check of the room commands. -/
def withRoom (refusal : Bytes) (fd : Fd) (body : ServerM Bytes) : ServerM Bytes := do
  if fd ∉ (← get).clientInChatRoom then return refusal
  body

def pleaseLogin : Bytes := ascii "Please login first.\n"

def notInRoom : Bytes := ascii "You are not in the chat room.\n"

/-- `tokens[i]` where the length has been checked. -/
def token (tokens : List Bytes) (i : Nat) : Bytes := tokens.getD i []

/-! ## 3. Accounts and sessions -/

def registerUser (tokens : List Bytes) : ServerM Bytes := do
  if tokens.length ≠ 3 then return ascii "Usage: register <username> <password>\n"
  let username := token tokens 1
  let password := token tokens 2
  let s ← get
  if s.registerdUser.any fun p => (s.heap p).username = username then
    return ascii "Username is already used.\n"
  modify fun s =>
    { s with
      heap := Function.update s.heap s.allocated ⟨username, password, ascii "offline"⟩
      allocated := s.allocated + 1
      registerdUser := s.registerdUser ++ [s.allocated] }
  return ascii "Register successfully.\n"

/-- The first user the loop of `loginUser` accepts. -/
def Server.findAccount (s : Server) (username password : Bytes) : Option Ptr :=
  s.registerdUser.find? fun p =>
    (s.heap p).username = username ∧ (s.heap p).password = password ∧ username ∉ s.loggedInUsers

def loginUser (tokens : List Bytes) (fd : Fd) : ServerM Bytes := do
  if tokens.length ≠ 3 then return ascii "Usage: login <username> <password>\n"
  let username := token tokens 1
  let password := token tokens 2
  if !(← notLoggedIn fd) then return ascii "Please logout first.\n"
  let s ← get
  if username ∈ s.loggedInUsers then return ascii "Login failed.\n"
  match s.findAccount username password with
  | none => return ascii "Login failed.\n"
  | some user =>
    modify fun s => { s with clients := s.clients.insert fd (some user) }
    setStatus fd (ascii "online")
    modify fun s => { s with loggedInUsers := insert username s.loggedInUsers }
    return ascii "Welcome, " ++ username ++ ascii ".\n"

def logoutUser (tokens : List Bytes) (fd : Fd) : ServerM Bytes :=
  withSession (tokens.length = 1) (ascii "Usage: logout\n") pleaseLogin fd do
    let response := ascii "Bye, " ++ (← client fd).username ++ ascii ".\n"
    let u ← client fd
    modify fun s => { s with loggedInUsers := s.loggedInUsers.erase u.username }
    setStatus fd (ascii "offline")
    modify fun s => { s with clients := s.clients.erase fd }
    return response

/-- `client_socket_list[i] = 0` for the first `i` that holds `fd`. -/
def freeSlot (fd : Fd) : List Fd → List Fd
  | [] => []
  | sd :: rest => if sd = fd then 0 :: rest else sd :: freeSlot fd rest

def exitUser (tokens : List Bytes) (fd : Fd) (clientSocketList : List Fd) :
    ServerM (Bytes × List Fd) := do
  if tokens.length ≠ 1 then return (ascii "Usage: exit\n", clientSocketList)
  let mut response : Bytes := []
  if !(← notLoggedIn fd) then
    response ← logoutUser tokens fd
    send fd response
  modify fun s => s.removeSocket fd
  emit [.close fd]
  return (response, freeSlot fd clientSocketList)

def getwhoami (tokens : List Bytes) (fd : Fd) : ServerM Bytes :=
  withSession (tokens.length = 1) (ascii "Usage: whoami\n") pleaseLogin fd do
    return (← client fd).username ++ ascii "\n"

def setClientStatus (tokens : List Bytes) (fd : Fd) : ServerM Bytes :=
  withSession (tokens.length = 2) (ascii "Usage: set-status <status>\n") pleaseLogin fd do
    let status := token tokens 1
    if status ≠ ascii "online" ∧ status ≠ ascii "offline" ∧ status ≠ ascii "busy" then
      return ascii "set-status failed\n"
    setStatus fd status
    return (← client fd).username ++ ascii " " ++ status ++ ascii "\n"

/-- One line of a user listing. -/
def userLine (u : User) : Bytes := u.username ++ ascii " " ++ u.status ++ ascii "\n"

/-- The comparison both listings sort by; names are distinct, so any sorting algorithm gives the
    same list. -/
def byName (heap : Ptr → User) (p q : Ptr) : Prop :=
  lt (heap q).username (heap p).username = false

instance (heap : Ptr → User) : DecidableRel (byName heap) :=
  fun _ _ => inferInstanceAs (Decidable (_ = _))

def listUser (tokens : List Bytes) (fd : Fd) : ServerM Bytes :=
  withSession (tokens.length = 1) (ascii "Usage: list-user\n") pleaseLogin fd do
    modify fun s => { s with registerdUser := s.registerdUser.insertionSort (byName s.heap) }
    let s ← get
    return s.registerdUser.flatMap fun p => userLine (s.heap p)

/-! ## 4. Rooms, seen from the lobby -/

/-- `"Number " + arg + " is not valid.\n% "`. -/
def numberNotValid (arg : Bytes) : Bytes := ascii "Number " ++ arg ++ ascii " is not valid.\n% "

/-- The lines a client reads on entering a room. -/
def roomHeader (number : Int) (owner : Bytes) : Bytes :=
  ascii "Welcome to the public chat room.\nRoom number: " ++ toStringInt number ++
    ascii "\nOwner: " ++ owner ++ ascii "\n"

/-- `"[" + username + "]: " + message + "\n"`. -/
def chatLine (username message : Bytes) : Bytes :=
  ascii "[" ++ username ++ ascii "]: " ++ message ++ ascii "\n"

def pinLine (username message : Bytes) : Bytes := ascii "Pin -> " ++ chatLine username message

/-- What the loop from `max(0, history.size() - 10)` on prints. -/
def latestRecords (history : List ChatRecord) : Bytes :=
  (history.drop (history.length - 10)).flatMap fun r => chatLine r.username r.message

def enterChatRoom (tokens : List Bytes) (fd : Fd) : ServerM Bytes :=
  withSession (tokens.length = 2) (ascii "Usage: enter-chat-room <number>\n% ")
    (ascii "Please login first.\n% ") fd do
    let arg := token tokens 1
    match stoi arg with
    | .error .invalidArgument => return numberNotValid arg
    | .error .outOfRange => fail .outOfRange
    | .ok number =>
      if number < 1 ∨ 100 < number then return numberNotValid arg
      if number ∉ (← get).chatRooms then
        let u ← client fd
        modify fun s => { s with chatRooms := s.chatRooms.insert number (.new u.username) }
        modifyRoom number fun r => { r with clients := r.clients ++ [fd] }
        modify fun s => { s with clientInChatRoom := s.clientInChatRoom.insert fd number }
        return roomHeader number (← client fd).username
      modifyRoom number fun r => { r with clients := r.clients ++ [fd] }
      let r ← room number
      modify fun s => { s with clientInChatRoom := s.clientInChatRoom.insert fd number }
      let pinned :=
        if r.pinnedMessage.1 ≠ [] then pinLine r.pinnedMessage.1 r.pinnedMessage.2 else []
      let u ← client fd
      broadcast r.clients fd (u.username ++ ascii " had enter the chat room.\n")
      return roomHeader number r.owner ++ latestRecords r.history ++ pinned

def listChatRoom (tokens : List Bytes) (fd : Fd) : ServerM Bytes :=
  withSession (tokens.length = 1) (ascii "Usage: list-chat-room\n") pleaseLogin fd do
    let numbers := (← get).chatRooms.keys.insertionSort (· ≤ ·)
    let lines ← numbers.mapM fun number => do
      return (← room number).owner ++ ascii " " ++ toStringInt number ++ ascii "\n"
    return lines.flatten

/-- `"Chat room " + arg + " does not exist.\n"`. -/
def roomDoesNotExist (arg : Bytes) : Bytes :=
  ascii "Chat room " ++ arg ++ ascii " does not exist.\n"

def roomWasClosed (arg : Bytes) : Bytes := ascii "Chat room " ++ arg ++ ascii " was closed.\n"

def closeChatRoom (tokens : List Bytes) (fd : Fd) : ServerM Bytes :=
  withSession (tokens.length = 2) (ascii "Usage: close-chat-room <number>\n") pleaseLogin fd do
    let arg := token tokens 1
    match stoi arg with
    | .error .invalidArgument => return roomDoesNotExist arg
    | .error .outOfRange => fail .outOfRange
    | .ok number =>
      if number ∉ (← get).chatRooms then return roomDoesNotExist arg
      let r ← room number
      let u ← client fd
      if r.owner ≠ u.username then return ascii "Only the owner can close this chat room.\n"
      modify fun s =>
        { s with clientInChatRoom := Map.eraseAll s.clientInChatRoom r.clients }
      broadcast r.clients fd (roomWasClosed arg ++ ascii "% ")
      modify fun s => { s with chatRooms := s.chatRooms.erase number }
      return roomWasClosed arg

/-! ## 5. Commands inside a room -/

/-- The `for`/`while` loops that mask the words of a filter list: `message_lower` is searched, and
    both strings are overwritten. `none` is a loop that never ends: a word of stars, or an empty
    one, is found again and again. -/
def filterMessage (words : List Bytes) (message : Bytes) : Option Bytes :=
  (words.foldlM (fun (m : Bytes × Bytes) word =>
    maskLoop 42 (word.map tolower) (m.2.length + 1) m.1 m.2)
    (message, message.map tolower)).map Prod.fst

/-- The tokens with a space after each, less the last space. -/
def joinTokens (tokens : List Bytes) : Bytes := (tokens.flatMap (· ++ ascii " ")).dropLast

/-- The filter loop of `setPinMessage` and `sendMessage`. -/
def masked (number : Int) (message : Bytes) : ServerM Bytes := do
  match filterMessage (← room number).filterList message with
  | some m => return m
  | none => fail .diverges

def setPinMessage (tokens : List Bytes) (fd : Fd) : ServerM Bytes :=
  withSession (2 ≤ tokens.length) (ascii "Usage: /pin <message>\n") pleaseLogin fd <|
    withRoom notInRoom fd do
      let number ← currentRoom fd
      let message ← masked number (joinTokens tokens.tail)
      let u ← client fd
      modifyRoom number fun r => { r with pinnedMessage := (u.username, message) }
      broadcast (← room number).clients fd (pinLine u.username message)
      return pinLine u.username message

def deletePinMessage (tokens : List Bytes) (fd : Fd) : ServerM Bytes :=
  withSession (tokens.length = 1) (ascii "Usage: /delete-pin\n") pleaseLogin fd <|
    withRoom notInRoom fd do
      let number ← currentRoom fd
      if (← room number).pinnedMessage.1 = [] then
        return ascii "No pin message in chat room " ++ toStringInt number ++ ascii "\n"
      modifyRoom number fun r => { r with pinnedMessage := ([], []) }
      return []

def exitChatRoom (tokens : List Bytes) (fd : Fd) : ServerM Bytes :=
  withSession (tokens.length = 1) (ascii "Usage: /exit-chat-room\n") pleaseLogin fd <|
    withRoom notInRoom fd do
      let number ← currentRoom fd
      modifyRoom number fun r => { r with clients := r.clients.erase fd }
      let u ← client fd
      broadcast (← room number).clients fd (u.username ++ ascii " had left the chat room.\n")
      modify fun s => { s with clientInChatRoom := s.clientInChatRoom.erase fd }
      return ascii "% "

/-- The pointer `clients[c]` of a member, which the listing goes on to dereference. -/
def memberPtr (c : Fd) : ServerM Ptr := do
  match ← clientPtr c with
  | some p => return p
  | none => fail .nullDeref

def listUserinChatRoom (tokens : List Bytes) (fd : Fd) : ServerM Bytes :=
  withSession (tokens.length = 1) (ascii "Usage: /list-user\n")
    (ascii "Please login first.\n% ") fd <|
    withRoom (ascii "You are not in the chat room.\n% ") fd do
      let r ← room (← currentRoom fd)
      let users ← r.clients.mapM memberPtr
      let s ← get
      return (users.insertionSort (byName s.heap)).flatMap fun p => userLine (s.heap p)

def sendMessage (tokens : List Bytes) (fd : Fd) : ServerM Bytes :=
  withRoom notInRoom fd do
    let number ← currentRoom fd
    let message ← masked number (joinTokens tokens)
    let u ← client fd
    modifyRoom number fun r => { r with history := r.history ++ [⟨u.username, message⟩] }
    broadcast (← room number).clients fd (chatLine u.username message)
    return chatLine u.username message

/-! ## 6. The dispatcher -/

/-- The commands of a connection that is in a room. -/
def roomCommand (tokens : List Bytes) (fd : Fd) : ServerM Bytes :=
  let command := token tokens 0
  if command = ascii "/pin" then setPinMessage tokens fd
  else if command = ascii "/delete-pin" then deletePinMessage tokens fd
  else if command = ascii "/exit-chat-room" then exitChatRoom tokens fd
  else if command = ascii "/list-user" then listUserinChatRoom tokens fd
  else if command.head? = some 47 then return ascii "Error: Unknown command\n"
  else sendMessage tokens fd

/-- `response += "% "`. -/
def prompted (x : ServerM Bytes) : ServerM Bytes := do return (← x) ++ ascii "% "

/-- The lobby commands that leave the connection open. -/
def lobbyReply (tokens : List Bytes) (fd : Fd) : ServerM Bytes :=
  let command := token tokens 0
  if command = ascii "register" then prompted (registerUser tokens)
  else if command = ascii "login" then prompted (loginUser tokens fd)
  else if command = ascii "logout" then prompted (logoutUser tokens fd)
  else if command = ascii "whoami" then prompted (getwhoami tokens fd)
  else if command = ascii "set-status" then prompted (setClientStatus tokens fd)
  else if command = ascii "list-user" then prompted (listUser tokens fd)
  else if command = ascii "enter-chat-room" then enterChatRoom tokens fd
  else if command = ascii "list-chat-room" then prompted (listChatRoom tokens fd)
  else if command = ascii "close-chat-room" then prompted (closeChatRoom tokens fd)
  else return ascii "Error: Unknown command\n% "

/-- The commands of a connection in the lobby. -/
def lobbyCommand (tokens : List Bytes) (fd : Fd) (clientSocketList : List Fd) :
    ServerM (Bytes × List Fd) := do
  if token tokens 0 = ascii "exit" then
    let (response, list) ← exitUser tokens fd clientSocketList
    return (response ++ ascii "% ", list)
  return (← lobbyReply tokens fd, clientSocketList)

/-- `Server::handleCommand`; its answer is the socket list, which only `exit` changes. -/
def handleCommand (fd : Fd) (command : Bytes) (clientSocketList : List Fd) :
    ServerM (List Fd) := do
  let tokens := tokenize command
  let inRoom := fd ∈ (← get).clientInChatRoom
  if tokens = [] then
    send fd (if inRoom then [] else ascii "% ")
    return clientSocketList
  if inRoom then
    send fd (← roomCommand tokens fd)
    return clientSocketList
  let (response, list) ← lobbyCommand tokens fd clientSocketList
  send fd response
  return list

end InpLabs.Chat
