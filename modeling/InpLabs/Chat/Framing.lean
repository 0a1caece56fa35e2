/-
  File:      InpLabs/Chat/Framing.lean
  Subject:   **What the server takes for a command**: each read, less its last byte. That is the
             sequence of lines a client wrote only if every read returns one line.

  * `readsOf`, `commandsOf`: what is read from a connection since it was accepted, and what of it
    is passed to `handleCommand`;
  * `commandsOf_eq`: each read becomes one command;
  * `framing_iff`: the commands are the lines of the stream exactly when each read returned one line
    with its newline;
  * `framing_coalesced`: two lines in one read become one command.
-/
import InpLabs.Chat.SelectLoop

namespace InpLabs.Chat

open InpLabs.Lib

/-- The bytes a step reads from `fd`. -/
def bufferOf (fd : Fd) : Label → Option Bytes
  | .command fd' buffer _ _ => if fd' = fd then some buffer else none
  | _ => none

/-- The command a step passes to `handleCommand` for `fd`. -/
def messageOf (fd : Fd) : Label → Option Bytes
  | .command fd' _ message _ => if fd' = fd then some message else none
  | _ => none

/-- What has been read from `fd` since it was last accepted, in order. -/
def readsOf (fd : Fd) (ls : List Label) : List Bytes :=
  ((ls.takeWhile (· ≠ .accept fd)).filterMap (bufferOf fd)).reverse

/-- The commands passed to `handleCommand` for `fd` since it was last accepted, in order. -/
def commandsOf (fd : Fd) (ls : List Label) : List Bytes :=
  ((ls.takeWhile (· ≠ .accept fd)).filterMap (messageOf fd)).reverse

/-- The bytes a client writes: each line with its newline. -/
def stream (lines : List Bytes) : Bytes := lines.flatMap (· ++ [10])

/-! ## 1. Lists -/

/-- Pieces of a stream, each less its last byte, are its lines exactly when each piece is a line
    with its newline. -/
theorem map_dropLast_eq_lines {lines chunks : List Bytes} (hne : ∀ c ∈ chunks, c ≠ [])
    (hflat : chunks.flatten = stream lines) :
    chunks.map List.dropLast = lines ↔ chunks = lines.map (· ++ [10]) := by
  constructor
  · intro h
    induction lines generalizing chunks with
    | nil => simpa using h
    | cons x lines ih =>
      obtain ⟨c, cs, rfl, rfl, hcs⟩ := List.map_eq_cons_iff.mp h
      obtain ⟨y, a, rfl⟩ := List.eq_nil_or_concat' c |>.resolve_left (hne c List.mem_cons_self)
      simp only [stream, List.flatten_cons, List.flatMap_cons, List.dropLast_concat,
        List.append_assoc, List.append_cancel_left_eq, List.singleton_append,
        List.cons.injEq] at hflat
      obtain ⟨rfl, hrest⟩ := hflat
      have hcs' := ih (fun c hc => hne c (List.mem_cons_of_mem _ hc)) hrest hcs
      rw [hcs', List.map_cons, List.dropLast_concat]
  · rintro rfl
    simp [List.map_map, Function.comp_def]

/-! ## 2. Runs -/

section Runs

variable {inherited : Finset Fd} {serverFd : Fd} {ls : List Label} {l : Loop}

/-- **Each read becomes one command**, less its last byte. -/
theorem commandsOf_eq (fd : Fd) (h : (selectLoop inherited serverFd).Run ls l) :
    commandsOf fd ls = (readsOf fd ls).map List.dropLast ∧ ∀ c ∈ readsOf fd ls, c ≠ [] := by
  have hlabel : ∀ x ∈ ls, messageOf fd x = (bufferOf fd x).map List.dropLast ∧
      bufferOf fd x ≠ some [] := by
    refine h.history_invariant (I := fun ls _ => ∀ x ∈ ls,
      messageOf fd x = (bufferOf fd x).map List.dropLast ∧ bufferOf fd x ≠ some []) (by simp)
      fun ls l label l' _ ih (hs : LoopStep inherited serverFd l label l') x hx => ?_
    rcases List.mem_cons.mp hx with rfl | hx
    · cases hs with
      | @command i ready sd buffer list t es hpc hsd h0 hr hb hrun =>
        have hne : buffer ≠ [] := List.ne_nil_of_length_pos hb.1
        simp only [messageOf, bufferOf]
        by_cases hfd : sd = fd
        · rw [if_pos hfd, if_pos hfd]
          exact ⟨rfl, fun he => hne (Option.some.inj he)⟩
        · rw [if_neg hfd, if_neg hfd]
          exact ⟨rfl, nofun⟩
      | _ => exact ⟨rfl, nofun⟩
    · exact ih x hx
  have hmap : ∀ xs : List Label, (∀ x ∈ xs, x ∈ ls) →
      xs.filterMap (messageOf fd) = (xs.filterMap (bufferOf fd)).map List.dropLast := by
    intro xs hxs
    rw [List.map_filterMap]
    exact List.filterMap_congr fun x hx => (hlabel x (hxs x hx)).1
  have hsub : ∀ x ∈ ls.takeWhile (· ≠ .accept fd), x ∈ ls := fun x hx =>
    (List.takeWhile_sublist _).subset hx
  constructor
  · rw [commandsOf, readsOf, hmap _ hsub, List.map_reverse]
  · intro c hc hnil
    obtain ⟨x, hx, hxc⟩ := List.mem_filterMap.mp (List.mem_reverse.mp hc)
    exact (hlabel x (hsub x hx)).2 (hnil ▸ hxc)

variable {fd : Fd}

/-- **Framing**: in every run, if the bytes read from a connection are the stream of some lines, the
    commands are those lines exactly when each read returned one line with its newline. -/
theorem framing_iff (h : (selectLoop inherited serverFd).Run ls l) {lines : List Bytes}
    (hstream : (readsOf fd ls).flatten = stream lines) :
    commandsOf fd ls = lines ↔ readsOf fd ls = lines.map (· ++ [10]) := by
  obtain ⟨hcmd, hne⟩ := commandsOf_eq fd h
  rw [hcmd]
  exact map_dropLast_eq_lines hne hstream

theorem readsOf_cons {x : Label} (hx : x ≠ .accept fd) :
    readsOf fd (x :: ls) = readsOf fd ls ++ (bufferOf fd x).toList := by
  rw [readsOf, readsOf, List.takeWhile_cons_of_pos (by simpa using hx)]
  cases hb : bufferOf fd x <;> simp [hb]

theorem readsOf_quiet {qs : List Label} (hq : Quiet qs) :
    readsOf fd (qs ++ ls) = readsOf fd ls := by
  induction qs with
  | nil => rfl
  | cons x qs ih =>
    have hx : x ≠ .accept fd ∧ bufferOf fd x = none := by
      rcases hq x List.mem_cons_self with rfl | rfl <;> exact ⟨nofun, rfl⟩
    rw [List.cons_append, readsOf_cons hx.1, hx.2, ih fun y hy => hq y (List.mem_cons_of_mem _ hy)]
    exact List.append_nil _

/-- One more buffer is read, and the connection left open. -/
theorem serve_reads {s t : Server} {es : List Effect} (h0 : fd ≠ 0) (hne : serverFd ≠ fd)
    (buffer : Bytes) (hb : 0 < buffer.length ∧ buffer.length ≤ 1024) (hes : closedBy es = [])
    (hrun : (handleCommand fd buffer.dropLast (oneSlot fd)).run s = .ok (oneSlot fd, t, es))
    (h : (selectLoop inherited serverFd).Run ls (.serving s fd)) :
    ∃ ls', (selectLoop inherited serverFd).Run ls' (.serving t fd) ∧
      readsOf fd ls' = readsOf fd ls ++ [buffer] := by
  obtain ⟨qs, hq, hserved⟩ := serve_run h0 hne buffer hb hes hrun h
  refine ⟨_, hserved, ?_⟩
  rw [readsOf_quiet hq, readsOf_cons Label.noConfusion, readsOf_cons Label.noConfusion]
  simp [bufferOf]

end Runs

/-- Nothing has been read from the first connection. -/
theorem accepted_reads : ∃ ls,
    (selectLoop standardFds 3).Run ls (.serving (Server.new.addSocket 4) 4) ∧
      readsOf 4 ls = [] := by
  have h0 : (selectLoop standardFds 3).Run [] (.waiting Server.new) := .start rfl
  obtain ⟨qs, hq, hrun⟩ := accepted_run (by decide) (accept_run standardFds_least h0)
  refine ⟨_, hrun, ?_⟩
  rw [readsOf_quiet hq]
  simp [readsOf]

/-- Three lines, each in a read of its own. -/
theorem framing_three : ∃ ls l, (selectLoop standardFds 3).Run ls l ∧
    commandsOf 4 ls = [ascii "register a 1", ascii "login a 1", ascii "whoami"] := by
  obtain ⟨ls0, h0, hreads0⟩ := accepted_reads
  obtain ⟨ls1, h1, hreads1⟩ := serve_reads (by decide) (by decide) (ascii "register a 1\n")
    (by decide) (by decide) rfl h0
  obtain ⟨ls2, h2, hreads2⟩ := serve_reads (by decide) (by decide) (ascii "login a 1\n")
    (by decide) (by decide) rfl h1
  obtain ⟨ls3, h3, hreads3⟩ := serve_reads (by decide) (by decide) (ascii "whoami\n")
    (by decide) (by decide) rfl h2
  rw [hreads2, hreads1, hreads0] at hreads3
  refine ⟨ls3, _, h3, (framing_iff h3 ?_).mpr (hreads3.trans ?_)⟩
  · rw [hreads3]
    decide
  · decide

/-- **Two lines in one read are one command.** -/
theorem framing_coalesced : ∃ ls l, (selectLoop standardFds 3).Run ls l ∧
    (readsOf 4 ls).flatten = stream [ascii "whoami", ascii "whoami"] ∧
    commandsOf 4 ls = [ascii "whoami\nwhoami"] ∧
    commandsOf 4 ls ≠ [ascii "whoami", ascii "whoami"] := by
  obtain ⟨ls0, h0, hreads0⟩ := accepted_reads
  obtain ⟨ls, hrun, hreads⟩ := serve_reads (by decide) (by decide) (ascii "whoami\nwhoami\n")
    (by decide) (by decide) rfl h0
  rw [hreads0, List.nil_append] at hreads
  have hcmd : commandsOf 4 ls = [ascii "whoami\nwhoami"] := by
    rw [(commandsOf_eq 4 hrun).1, hreads]
    decide
  refine ⟨ls, _, hrun, ?_, hcmd, ?_⟩
  · rw [hreads]
    decide
  · rw [hcmd]
    decide

end InpLabs.Chat
