/-
  File:      InpLabs/Chat/SelectLoop.lean
  Subject:   The loop of the chat server's `main` (homework2: hw2_chat_server.cpp) around
             `handleCommand`, and who holds which descriptor.

  * `Loop`: the server, the array `client_socket`, the accepted connections that are open, and where
    in the loop the process stands. The descriptors it has open besides (the standard streams and
    the listening socket) are parameters;
  * `LoopStep`, `selectLoop`: one step for `select`, for `accept`, which takes the least descriptor
    that is not open, and for each slot of the array. `select` may report any of the descriptors it
    is asked about. A fault in a handler ends the process: there is no step;
  * `Loop.Inv`: the slots in use hold distinct open connections.
-/
import InpLabs.Chat.Steps

namespace InpLabs.Chat

open InpLabs.Lib
open ServerM (run)

/-! ## 1. The loop -/

def maxClients : Nat := 1005

/-- Where the process stands, with the set `readfds` that `select` has filled. -/
inductive Pc where
  | top
  | accepting (readfds : Finset Fd)
  | scan (i : Nat) (readfds : Finset Fd)
  deriving DecidableEq

structure Loop where
  server : Server
  clientSocket : List Fd
  conns : Finset Fd
  pc : Pc

/-- What a step does: the descriptors `select` reports, the connection it serves, the bytes read,
    the command made of them and its effects. -/
inductive Label where
  | select (ready : Finset Fd)
  | accept (fd : Fd)
  | idle
  | eof (fd : Fd)
  | readError (fd : Fd)
  | command (fd : Fd) (buffer message : Bytes) (effects : List Effect)
  | wrap
  deriving DecidableEq

/-- The text a new connection is sent. -/
def welcome : Bytes :=
  ascii "*********************************\n** Welcome to the Chat server. **\n" ++
    ascii "*********************************\n% "

/-- All a step sends and closes. -/
def Label.effects : Label → List Effect
  | .accept fd => [.send fd welcome]
  | .eof fd => [.close fd]
  | .command _ _ _ es => es
  | _ => []

/-- `client_socket[i] = new_socket` for the first `i` that is empty. -/
def fillSlot (newSocket : Fd) : List Fd → Option (List Fd)
  | [] => none
  | sd :: rest =>
    if sd = 0 then some (newSocket :: rest) else (fillSlot newSocket rest).map (sd :: ·)

/-- The new connection takes a slot, if there is one. -/
def Loop.addConnection (l : Loop) (newSocket : Fd) : Loop :=
  match fillSlot newSocket l.clientSocket with
  | some slots =>
    { l with
      server := l.server.addSocket newSocket
      clientSocket := slots
      conns := insert newSocket l.conns }
  | none => { l with conns := insert newSocket l.conns }

/-- `read` returned 0 for the connection `sd` in slot `i`. -/
def Loop.dropConnection (l : Loop) (i : Nat) (sd : Fd) : Loop :=
  { l with
    server := l.server.removeSocket sd
    clientSocket := l.clientSocket.set i 0
    conns := l.conns.erase sd }

/-- The descriptors closed by the effects of a command. -/
def closedBy (es : List Effect) : List Fd :=
  es.filterMap fun e => match e with
    | .close fd => some fd
    | _ => none

/-- The loop after a command that left the server `t` and the slots `list`. -/
def Loop.afterCommand (l : Loop) (t : Server) (list : List Fd) (es : List Effect) : Loop :=
  { l with server := t, clientSocket := list, conns := l.conns \ (closedBy es).toFinset }

/-- The descriptors given to `select`. -/
def Loop.readfds (l : Loop) (serverFd : Fd) : Finset Fd :=
  insert serverFd (l.server.masterSet ∪ (l.clientSocket.filter (0 < ·)).toFinset)

/-- One step of the loop. The slots are read by their position, as the `for` loop does. -/
inductive LoopStep (inherited : Finset Fd) (serverFd : Fd) : Loop → Label → Loop → Prop where
  | select {l : Loop} {ready : Finset Fd} (hpc : l.pc = .top) (hr : ready ⊆ l.readfds serverFd) :
      LoopStep inherited serverFd l (.select ready)
        { l with pc := if serverFd ∈ ready then .accepting ready else .scan 0 ready }
  | accept {l : Loop} {fd : Fd} {ready : Finset Fd} (hpc : l.pc = .accepting ready)
      (hfd : IsLeast {d | d ∉ inherited ∪ l.conns} fd) :
      LoopStep inherited serverFd l (.accept fd) { l.addConnection fd with pc := .scan 0 ready }
  | idle {l : Loop} {i : Nat} {ready : Finset Fd} {sd : Fd} (hpc : l.pc = .scan i ready)
      (hsd : l.clientSocket[i]? = some sd) (h : sd = 0 ∨ sd ∉ ready) :
      LoopStep inherited serverFd l .idle { l with pc := .scan (i + 1) ready }
  | eof {l : Loop} {i : Nat} {ready : Finset Fd} {sd : Fd} (hpc : l.pc = .scan i ready)
      (hsd : l.clientSocket[i]? = some sd) (h0 : sd ≠ 0) (hr : sd ∈ ready) :
      LoopStep inherited serverFd l (.eof sd)
        { l.dropConnection i sd with pc := .scan (i + 1) ready }
  | readError {l : Loop} {i : Nat} {ready : Finset Fd} {sd : Fd} (hpc : l.pc = .scan i ready)
      (hsd : l.clientSocket[i]? = some sd) (h0 : sd ≠ 0) (hr : sd ∈ ready) :
      LoopStep inherited serverFd l (.readError sd) { l with pc := .scan (i + 1) ready }
  | command {l : Loop} {i : Nat} {ready : Finset Fd} {sd : Fd} {buffer : Bytes} {list : List Fd}
      {t : Server} {es : List Effect} (hpc : l.pc = .scan i ready)
      (hsd : l.clientSocket[i]? = some sd) (h0 : sd ≠ 0) (hr : sd ∈ ready)
      (hb : 0 < buffer.length ∧ buffer.length ≤ 1024)
      (hrun : (handleCommand sd buffer.dropLast l.clientSocket).run l.server = .ok (list, t, es)) :
      LoopStep inherited serverFd l (.command sd buffer buffer.dropLast es)
        { l.afterCommand t list es with pc := .scan (i + 1) ready }
  | wrap {l : Loop} {i : Nat} {ready : Finset Fd} (hpc : l.pc = .scan i ready)
      (hi : l.clientSocket.length ≤ i) :
      LoopStep inherited serverFd l .wrap { l with pc := .top }

/-- The process when it enters the loop. -/
def Loop.start : Loop where
  server := Server.new
  clientSocket := List.replicate maxClients 0
  conns := ∅
  pc := .top

/-- The runs of the loop. -/
def selectLoop (inherited : Finset Fd) (serverFd : Fd) : Lts Loop Label where
  init l := l = Loop.start
  step := LoopStep inherited serverFd

/-! ## 2. What a command closes and which slots it frees -/

section Command

variable {s t : Server} {fd : Fd} {tokens : List Bytes} {es : List Effect} {list list' : List Fd}

theorem closedBy_append (es fs : List Effect) : closedBy (es ++ fs) = closedBy es ++ closedBy fs :=
  List.filterMap_append

theorem closedBy_toOthers (members : List Fd) (bytes : Bytes) :
    closedBy (toOthers members fd bytes) = [] := by
  simp [closedBy, toOthers]

/-- A call closes the descriptor it serves, with its slot and its records, or nothing. -/
theorem Step.closes (h : Step s fd list tokens es t list') :
    (closedBy es = [] ∧ list' = list) ∨
      (closedBy es = [fd] ∧ list' = freeSlot fd list ∧ fd ∉ t.clients ∧
        fd ∉ t.clientInChatRoom) := by
  cases h with
  | blank => exact .inl ⟨rfl, rfl⟩
  | lobby hl hne h =>
    refine .inl ⟨?_, rfl⟩
    rw [closedBy_append]
    cases h <;> first | rfl | (rw [closedBy_toOthers]; rfl)
  | exit hl hfd => exact .inr ⟨rfl, rfl, hfd, hl⟩
  | exitSession hl hp =>
    refine .inr ⟨rfl, rfl, ?_, hl⟩
    exact Map.not_mem_iff.mpr (Std.ExtTreeMap.getElem?_erase_self)
  | room hin hp hr hne h =>
    refine .inl ⟨?_, rfl⟩
    rw [closedBy_append]
    cases h <;> first | rfl | (rw [closedBy_toOthers]; rfl)

/-- Who is in a room, before the call or after it, is not closed. -/
theorem Step.kept {d : Fd} (h : Step s fd list tokens es t list')
    (hd : d ∈ s.clientInChatRoom ∨ d ∈ t.clientInChatRoom) : d ∉ closedBy es := by
  intro hmem
  rcases h.closes with ⟨hc, -⟩ | ⟨hc, -, -, hout⟩
  · rw [hc] at hmem
    cases hmem
  · rw [hc, List.mem_singleton] at hmem
    subst hmem
    refine hout (hd.resolve_left ?_)
    cases h with
    | exit hl hfd => exact hl
    | exitSession hl hp => exact hl
    | lobby hl hne h => exact hl
    | blank => cases hc
    | room hin hp hr hne h =>
      rw [closedBy_append] at hc
      cases h <;> simp [closedBy, toOthers] at hc

end Command

/-! ## 3. The slots -/

/-- A slot in use holds an open connection, and no two hold the same. -/
def Slots (slots : List Fd) (conns : Finset Fd) : Prop :=
  ∀ fd, fd ≠ 0 → slots.count fd ≤ if fd ∈ conns then 1 else 0

section Slots

variable {slots slots' : List Fd} {conns : Finset Fd} {fd fd' : Fd}

/-- A free slot is taken. -/
theorem fillSlot_some (h : fillSlot fd slots = some slots') : ∃ before after,
    slots = before ++ 0 :: after ∧ slots' = before ++ fd :: after := by
  induction slots generalizing slots' with
  | nil => cases h
  | cons sd rest ih =>
    unfold fillSlot at h
    split at h
    · rename_i hsd
      cases h
      exact ⟨[], rest, congrArg (· :: rest) hsd, rfl⟩
    · obtain ⟨r, hr, rfl⟩ := Option.map_eq_some_iff.mp h
      obtain ⟨before, after, rfl, rfl⟩ := ih hr
      exact ⟨sd :: before, after, rfl, rfl⟩

theorem count_fillSlot (h0 : fd' ≠ 0) (h : fillSlot fd slots = some slots') :
    slots'.count fd' = slots.count fd' + if fd = fd' then 1 else 0 := by
  obtain ⟨before, after, rfl, rfl⟩ := fillSlot_some h
  have hne : (0 : Fd) ≠ fd' := h0.symm
  simp [List.count_cons, hne, Nat.add_assoc]

theorem count_freeSlot (h0 : fd' ≠ 0) :
    (freeSlot fd slots).count fd' = slots.count fd' - if fd = fd' then 1 else 0 := by
  induction slots with
  | nil => simp [freeSlot]
  | cons sd rest ih =>
    unfold freeSlot
    split
    · rename_i hsd
      have hne : (0 : Fd) ≠ fd' := h0.symm
      subst hsd
      by_cases hfd : sd = fd' <;> simp [hne, hfd]
    · rename_i hsd
      by_cases hfd : fd = fd'
      · subst hfd
        simpa [List.count_cons, hsd] using ih
      · simp [List.count_cons, ih, hfd]

theorem count_clearSlot (h0 : fd' ≠ 0) {i : Nat} (hi : slots[i]? = some fd) :
    (slots.set i 0).count fd' = slots.count fd' - if fd = fd' then 1 else 0 := by
  obtain ⟨hlt, rfl⟩ := List.getElem?_eq_some_iff.mp hi
  rw [List.count_set hlt]
  simp [h0.symm]

theorem Slots.conn (h : Slots slots conns) (h0 : fd ≠ 0) (hmem : fd ∈ slots) : fd ∈ conns := by
  by_contra hno
  have hcount := h fd h0
  rw [if_neg hno] at hcount
  exact absurd (List.count_pos_iff.mpr hmem) (Nat.not_lt.mpr hcount)

theorem Slots.fill (h : Slots slots conns) (hnew : fd ∉ conns)
    (hfill : fillSlot fd slots = some slots') : Slots slots' (insert fd conns) := by
  intro fd' h0
  have hcount := h fd' h0
  rw [count_fillSlot h0 hfill]
  by_cases hfd : fd = fd'
  · subst hfd
    rw [if_neg hnew] at hcount
    simp only [if_true, Finset.mem_insert_self]
    omega
  · simpa [Finset.mem_insert, hfd, Ne.symm hfd] using hcount

/-- A slot is cleared together with the connection it holds. -/
theorem Slots.clear (h : Slots slots conns)
    (hcount : ∀ fd', fd' ≠ 0 → slots'.count fd' = slots.count fd' - if fd = fd' then 1 else 0) :
    Slots slots' (conns.erase fd) := by
  intro fd' h0
  have hle := h fd' h0
  rw [hcount fd' h0]
  by_cases hfd : fd = fd'
  · subst hfd
    simp only [if_true, Finset.notMem_erase, if_false]
    split at hle <;> omega
  · simpa [hfd, Ne.symm hfd] using hle

theorem Slots.mono (h : Slots slots conns) {conns' : Finset Fd} (hsub : conns ⊆ conns') :
    Slots slots conns' := by
  intro fd h0
  refine (h fd h0).trans ?_
  by_cases hfd : fd ∈ conns
  · rw [if_pos hfd, if_pos (hsub hfd)]
  · rw [if_neg hfd]
    exact Nat.zero_le _

end Slots

/-- The invariant of the loop. -/
structure Loop.Inv (l : Loop) : Prop where
  server : l.server.Inv
  slots : Slots l.clientSocket l.conns

section Inv

variable {inherited : Finset Fd} {serverFd : Fd} {l l' : Loop} {label : Label}

theorem Loop.start_inv : Loop.start.Inv where
  server := Server.new_inv
  slots fd h0 := by
    have hzero : (List.replicate maxClients 0).count fd = 0 := by
      rw [List.count_replicate]
      simp [h0.symm]
    show (List.replicate maxClients 0).count fd ≤ _
    rw [hzero]
    exact Nat.zero_le _

theorem addConnection_records (fd : Fd) :
    (l.addConnection fd).server.clients = l.server.clients ∧
      (l.addConnection fd).server.clientInChatRoom = l.server.clientInChatRoom ∧
      (l.addConnection fd).conns = insert fd l.conns := by
  unfold Loop.addConnection
  split <;> exact ⟨rfl, rfl, rfl⟩

theorem addConnection_inv (h : l.Inv) {fd : Fd} (hnew : fd ∉ l.conns) :
    (l.addConnection fd).Inv := by
  unfold Loop.addConnection
  split
  · exact ⟨h.server.of_masterSet _, h.slots.fill hnew ‹_›⟩
  · exact ⟨h.server, h.slots.mono (Finset.subset_insert _ _)⟩

theorem dropConnection_inv (h : l.Inv) {i : Nat} {sd : Fd} (hsd : l.clientSocket[i]? = some sd) :
    (l.dropConnection i sd).Inv :=
  ⟨h.server.of_masterSet _, h.slots.clear fun _ h0 => count_clearSlot h0 hsd⟩

theorem afterCommand_inv (h : l.Inv) {sd : Fd} {line : Bytes} {t : Server} {list : List Fd}
    {es : List Effect}
    (hrun : (handleCommand sd line l.clientSocket).run l.server = .ok (list, t, es)) :
    (l.afterCommand t list es).Inv := by
  have hstep := handleCommand_step h.server hrun
  refine ⟨hstep.inv h.server, ?_⟩
  show Slots list (l.conns \ (closedBy es).toFinset)
  rcases hstep.closes with ⟨hes, rfl⟩ | ⟨hes, rfl, -⟩
  · rw [hes]
    simpa using h.slots
  · have hset : l.conns \ (closedBy es).toFinset = l.conns.erase sd := by
      rw [hes, Finset.erase_eq]
      rfl
    rw [hset]
    exact h.slots.clear fun _ h0 => count_freeSlot h0

/-- Where the process stands plays no part in the invariant. -/
theorem Loop.Inv.of_pc (h : l.Inv) (pc : Pc) : ({ l with pc := pc } : Loop).Inv :=
  ⟨h.server, h.slots⟩

theorem LoopStep.inv (h : l.Inv) (hs : LoopStep inherited serverFd l label l') : l'.Inv := by
  cases hs with
  | select hpc hr => exact h.of_pc _
  | accept hpc hfd =>
    have hnew := hfd.1
    simp only [Set.mem_ofPred_eq, Finset.mem_union, not_or] at hnew
    exact (addConnection_inv h hnew.2).of_pc _
  | idle hpc hsd h' => exact h.of_pc _
  | eof hpc hsd h0 hr => exact (dropConnection_inv h hsd).of_pc _
  | readError hpc hsd h0 hr => exact h.of_pc _
  | command hpc hsd h0 hr hb hrun => exact (afterCommand_inv h hrun).of_pc _
  | wrap hpc hi => exact h.of_pc _

/-- **The loop keeps its invariant.** -/
theorem selectLoop_inv {ls : List Label} (h : (selectLoop inherited serverFd).Run ls l) : l.Inv :=
  h.invariant (I := Loop.Inv) (fun l₀ (hs : l₀ = Loop.start) => hs ▸ Loop.start_inv)
    fun _ _ _ hi (hs : LoopStep inherited serverFd _ _ _) => hs.inv hi

/-- The connection a slot holds is open. -/
theorem Loop.Inv.slot_open (h : l.Inv) {i : Nat} {sd : Fd} (hsd : l.clientSocket[i]? = some sd)
    (h0 : sd ≠ 0) : sd ∈ l.conns :=
  h.slots.conn h0 (List.mem_of_getElem? hsd)

end Inv

/-! ## 4. Scheduling -/

section Schedule

variable {inherited : Finset Fd} {serverFd : Fd} {l : Loop} {ls : List Label}

/-- Steps that serve nobody. -/
def Quiet (ls : List Label) : Prop := ∀ x ∈ ls, x = .idle ∨ x = .wrap

/-- The rest of a scan that finds nothing to do. -/
theorem idle_run {ready : Finset Fd} (k : Nat) {i : Nat} (hk : l.clientSocket.length = i + k)
    (hpc : l.pc = .scan i ready)
    (hidle : ∀ j sd, i ≤ j → l.clientSocket[j]? = some sd → sd = 0 ∨ sd ∉ ready)
    (h : (selectLoop inherited serverFd).Run ls l) :
    ∃ qs, Quiet qs ∧ (selectLoop inherited serverFd).Run (qs ++ ls) { l with pc := .top } := by
  induction k generalizing i l ls with
  | zero =>
    have hwrap : LoopStep inherited serverFd l .wrap { l with pc := .top } :=
      .wrap hpc (Nat.le_of_eq hk)
    exact ⟨[.wrap], by simp [Quiet], h.step hwrap⟩
  | succ k ih =>
    have hi : i < l.clientSocket.length := by omega
    have hsd := List.getElem?_eq_getElem hi
    have hstep : LoopStep inherited serverFd l .idle { l with pc := .scan (i + 1) ready } :=
      .idle hpc hsd (hidle i _ (Nat.le_refl i) hsd)
    have hk' : l.clientSocket.length = i + 1 + k := by omega
    obtain ⟨qs, hq, hrun⟩ := ih (l := { l with pc := .scan (i + 1) ready }) hk' rfl
      (fun j sd hj => hidle j sd (Nat.le_of_succ_le hj)) (h.step hstep)
    refine ⟨qs ++ [.idle], fun x hx => ?_, by rw [List.append_assoc]; exact hrun⟩
    rcases List.mem_append.mp hx with hx | hx
    · exact hq x hx
    · exact .inl (List.mem_singleton.mp hx)

/-- The slots of a process that serves one connection. -/
def oneSlot (fd : Fd) : List Fd := fd :: List.replicate (maxClients - 1) 0

theorem oneSlot_length (fd : Fd) : (oneSlot fd).length = maxClients := by
  rw [oneSlot, List.length_cons, List.length_replicate]
  rfl

theorem oneSlot_idle {fd : Fd} {ready : Finset Fd} (j : Nat) (sd : Fd) (hj : 1 ≤ j)
    (hsd : (oneSlot fd)[j]? = some sd) : sd = 0 ∨ sd ∉ ready := by
  obtain ⟨j, rfl⟩ := Nat.exists_eq_add_of_le' hj
  have hmem : sd ∈ List.replicate (maxClients - 1) 0 := List.mem_of_getElem? hsd
  exact .inl (List.eq_of_mem_replicate hmem)

/-- The process at the top of its loop, serving nobody. -/
def Loop.waiting (s : Server) : Loop := ⟨s, List.replicate maxClients 0, ∅, .top⟩

/-- The process at the top of its loop, serving one connection. -/
def Loop.serving (s : Server) (fd : Fd) : Loop := ⟨s, oneSlot fd, {fd}, .top⟩

variable {s t : Server} {fd : Fd}

/-- A connection is accepted. -/
theorem accept_run (hfd : IsLeast {d | d ∉ inherited} fd)
    (h : (selectLoop inherited serverFd).Run ls (.waiting s)) :
    (selectLoop inherited serverFd).Run (.accept fd :: .select {serverFd} :: ls)
      ⟨s.addSocket fd, oneSlot fd, {fd}, .scan 0 {serverFd}⟩ := by
  have hready : {serverFd} ⊆ (Loop.waiting s).readfds serverFd := by
    simp [Loop.readfds]
  have hsel : LoopStep inherited serverFd (.waiting s) (.select {serverFd}) _ :=
    .select rfl hready
  rw [if_pos (Finset.mem_singleton_self serverFd)] at hsel
  exact (h.step hsel).step (LoopStep.accept rfl (by simpa [Loop.waiting] using hfd))

/-- After an accepted connection the scan finds nothing more to do. -/
theorem accepted_run (hne : fd ≠ serverFd)
    (h : (selectLoop inherited serverFd).Run ls ⟨s, oneSlot fd, {fd}, .scan 0 {serverFd}⟩) :
    ∃ qs, Quiet qs ∧ (selectLoop inherited serverFd).Run (qs ++ ls) (.serving s fd) := by
  have hlen : (oneSlot fd).length = 0 + maxClients := by rw [oneSlot_length, Nat.zero_add]
  refine idle_run maxClients hlen rfl (fun j sd _ hsd => ?_) h
  by_cases hj : 1 ≤ j
  · exact oneSlot_idle j sd hj hsd
  · obtain rfl : j = 0 := by omega
    obtain rfl : fd = sd := Option.some.inj hsd
    exact .inr (by simpa using hne)

/-- After the end of a connection in slot 0 the scan finds nothing more to do. -/
theorem freed_run {ready : Finset Fd} (h : (selectLoop inherited serverFd).Run ls
      ⟨s, List.replicate maxClients 0, ∅, .scan (0 + 1) ready⟩) :
    ∃ qs, Quiet qs ∧ (selectLoop inherited serverFd).Run (qs ++ ls) (.waiting s) := by
  have hlen : (List.replicate maxClients (0 : Fd)).length = 0 + 1 + (maxClients - 1) :=
    List.length_replicate
  exact idle_run (maxClients - 1) hlen rfl (fun j sd hj hsd =>
    .inl (List.eq_of_mem_replicate (List.mem_of_getElem? hsd))) h

section Serve

variable (h0 : fd ≠ 0) (hne : serverFd ≠ fd)

include h0 hne

/-- `select` reports the connection. -/
theorem ready_run (h : (selectLoop inherited serverFd).Run ls (.serving s fd)) :
    (selectLoop inherited serverFd).Run (.select {fd} :: ls)
      ⟨s, oneSlot fd, {fd}, .scan 0 {fd}⟩ := by
  have hready : {fd} ⊆ (Loop.serving s fd).readfds serverFd := by
    simp [Loop.readfds, Loop.serving, oneSlot, Nat.pos_of_ne_zero h0]
  have hsel : LoopStep inherited serverFd (.serving s fd) (.select {fd}) _ := .select rfl hready
  rw [if_neg (by simpa using hne)] at hsel
  exact h.step hsel

/-- The connection sends a command that leaves it open. -/
theorem serve_run (buffer : Bytes) (hb : 0 < buffer.length ∧ buffer.length ≤ 1024)
    {es : List Effect} (hes : closedBy es = [])
    (hrun : (handleCommand fd buffer.dropLast (oneSlot fd)).run s = .ok (oneSlot fd, t, es))
    (h : (selectLoop inherited serverFd).Run ls (.serving s fd)) :
    ∃ qs, Quiet qs ∧ (selectLoop inherited serverFd).Run
      (qs ++ .command fd buffer buffer.dropLast es :: .select {fd} :: ls) (.serving t fd) := by
  have hcmd := (ready_run h0 hne h).step
    (LoopStep.command rfl rfl h0 (Finset.mem_singleton_self fd) hb hrun)
  have hconns : ({fd} : Finset Fd) \ (closedBy es).toFinset = {fd} := by simp [hes]
  have hlen : (oneSlot fd).length = 0 + 1 + (maxClients - 1) := oneSlot_length fd
  unfold Loop.afterCommand at hcmd
  rw [hconns] at hcmd
  exact idle_run (maxClients - 1) hlen rfl (fun j sd hj hsd => oneSlot_idle j sd hj hsd) hcmd

/-- The connection ends without a word. -/
theorem eof_run (h : (selectLoop inherited serverFd).Run ls (.serving s fd)) :
    ∃ ls', (selectLoop inherited serverFd).Run ls' (.waiting (s.removeSocket fd)) := by
  have heof := (ready_run h0 hne h).step
    (LoopStep.eof rfl rfl h0 (Finset.mem_singleton_self fd))
  have hslots : (oneSlot fd).set 0 0 = List.replicate maxClients 0 := rfl
  unfold Loop.dropConnection at heof
  rw [hslots, Finset.erase_singleton] at heof
  obtain ⟨qs, -, hrun⟩ := freed_run heof
  exact ⟨_, hrun⟩

/-- The connection says `exit`, and is closed. -/
theorem exit_run (buffer : Bytes) (hb : 0 < buffer.length ∧ buffer.length ≤ 1024)
    {es : List Effect} (hes : closedBy es = [fd])
    (hrun : (handleCommand fd buffer.dropLast (oneSlot fd)).run s =
      .ok (List.replicate maxClients 0, t, es))
    (h : (selectLoop inherited serverFd).Run ls (.serving s fd)) :
    ∃ qs, Quiet qs ∧ (selectLoop inherited serverFd).Run
      (qs ++ .command fd buffer buffer.dropLast es :: .select {fd} :: ls) (.waiting t) := by
  have hcmd := (ready_run h0 hne h).step
    (LoopStep.command rfl rfl h0 (Finset.mem_singleton_self fd) hb hrun)
  have hconns : ({fd} : Finset Fd) \ (closedBy es).toFinset = ∅ := by simp [hes]
  unfold Loop.afterCommand at hcmd
  rw [hconns] at hcmd
  exact freed_run hcmd

end Serve

end Schedule

/-- The standard streams and the listening socket. -/
def standardFds : Finset Fd := {0, 1, 2, 3}

theorem standardFds_least : IsLeast {d : Fd | d ∉ standardFds} 4 := by
  refine ⟨by decide, fun d hd => ?_⟩
  by_contra hlt
  have h4 : d < 4 := Nat.lt_of_not_le hlt
  have hmem : d ∈ standardFds := by
    interval_cases d <;> decide
  exact hd hmem

end InpLabs.Chat
