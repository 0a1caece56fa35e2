/-
  File:      InpLabs/Web/Threads.lean
  Subject:   The threads of the plain web server, one for each connection (homework1: server.c), and
             the array through which each is told its descriptor.

  `main` hands a thread a pointer into `client_infos`, and the thread reads the descriptor through
  it when it first runs. The array doubles when it is full, and `realloc` may move it.

  * `Threads`, `Step`, `threadServer`: the array, the descriptors that are open, and the threads.
    What `main` does between `lock` and `unlock` is one step: no thread can tell where in it its
    pointer becomes invalid;
  * `Separate`: each thread has a connection of its own, and the file that it reads, and these are
    what is open;
  * `StaysPut`: the array is not moved while a thread has yet to read its descriptor;
  * `thread_per_connection`: that is exactly when threads keep to their connections, and so it is
    before the eleventh is accepted.
-/
import InpLabs.Lib.Lts
import Mathlib.Data.Finset.Basic
import Mathlib.Logic.Function.Basic

namespace InpLabs.Web

open InpLabs.Lib

/-! ## 1. The processes -/

/-- A descriptor. -/
abbrev Fd := Nat

/-- `INITIAL_CAPACITY`. -/
def initialCapacity : Nat := 10

/-- `&client_infos[index].socket`, in the piece of memory that the array was in at the time. -/
structure Pointer where
  block : Nat
  index : Nat
  deriving DecidableEq

/-- Where a thread is: before `*(int *)arg`, with what it has read there, between `fopen` and
`fclose`, behind `fclose`, or behind `close`. -/
inductive ThreadPc where
  | created
  | serving (clientSocket : Fd)
  | reading (clientSocket file : Fd)
  | answered (clientSocket : Fd)
  | exited
  deriving DecidableEq

/-- What the thread takes for its connection. -/
def ThreadPc.clientSocket : ThreadPc → Option Fd
  | created => none
  | serving clientSocket => some clientSocket
  | reading clientSocket _ => some clientSocket
  | answered clientSocket => some clientSocket
  | exited => none

/-- The descriptor of the file that it reads. -/
def ThreadPc.file : ThreadPc → Option Fd
  | reading _ file => some file
  | _ => none

/-- A thread, with the connection that `accept` had returned when it was made. -/
structure Thread where
  arg : Pointer
  connection : Fd
  pc : ThreadPc
  deriving DecidableEq

/-- The process. `block` counts how often the array has been moved, and `sockets` are the fields of
its first `num_clients` elements, which are never reused. -/
structure Threads where
  block : Nat
  capacity : Nat
  sockets : List Fd
  thread : Nat → Option Thread
  opened : Finset Fd

/-- `main` before its loop. -/
def Threads.start (fds : Finset Fd) : Threads := ⟨0, initialCapacity, [], fun _ => none, fds⟩

/-- What happens next: `accept` returns a descriptor, and `realloc`, if it is called, moves the
array or does not; a thread reads its descriptor; it opens a file and closes it; it closes the
connection. -/
inductive ThreadLabel where
  | accept (clientFd : Fd) (moved : Bool)
  | read (k : Nat) (clientSocket : Fd)
  | fopen (k : Nat) (file : Fd)
  | fclose (k : Nat)
  | close (k : Nat)

/-- `num_clients >= client_capacity`. -/
def Threads.Full (s : Threads) : Prop := s.capacity ≤ s.sockets.length

instance (s : Threads) : Decidable s.Full := inferInstanceAs (Decidable (_ ≤ _))

/-- From `lock` to `unlock`. -/
def Threads.accept (s : Threads) (clientFd : Fd) (moved : Bool) : Threads :=
  let block := if s.Full ∧ moved then s.block + 1 else s.block
  { block
    capacity := if s.Full then s.capacity * 2 else s.capacity
    sockets := s.sockets ++ [clientFd]
    thread := Function.update s.thread s.sockets.length
      (some ⟨⟨block, s.sockets.length⟩, clientFd, .created⟩)
    opened := insert clientFd s.opened }

/-- Thread `k` goes on to `pc`. -/
def Threads.goOn (s : Threads) (k : Nat) (t : Thread) (pc : ThreadPc) : Threads :=
  { s with thread := Function.update s.thread k (some { t with pc }) }

/-- One step. A new descriptor is one that is not open; what is read from memory that has been given
back may be anything. -/
inductive ThreadStep : Threads → ThreadLabel → Threads → Prop where
  | accept {s : Threads} {clientFd : Fd} {moved : Bool} (hnew : clientFd ∉ s.opened) :
      ThreadStep s (.accept clientFd moved) (s.accept clientFd moved)
  | read {s : Threads} {k : Nat} {t : Thread} {clientSocket : Fd} (ht : s.thread k = some t)
      (hpc : t.pc = .created)
      (hread : t.arg.block = s.block → s.sockets[t.arg.index]? = some clientSocket) :
      ThreadStep s (.read k clientSocket) (s.goOn k t (.serving clientSocket))
  | fopen {s : Threads} {k : Nat} {t : Thread} {clientSocket file : Fd} (ht : s.thread k = some t)
      (hpc : t.pc = .serving clientSocket) (hnew : file ∉ s.opened) :
      ThreadStep s (.fopen k file)
        { s.goOn k t (.reading clientSocket file) with opened := insert file s.opened }
  | fclose {s : Threads} {k : Nat} {t : Thread} {clientSocket file : Fd} (ht : s.thread k = some t)
      (hpc : t.pc = .reading clientSocket file) :
      ThreadStep s (.fclose k)
        { s.goOn k t (.answered clientSocket) with opened := s.opened.erase file }
  | close {s : Threads} {k : Nat} {t : Thread} {clientSocket : Fd} (ht : s.thread k = some t)
      (hpc : t.pc = .serving clientSocket ∨ t.pc = .answered clientSocket) :
      ThreadStep s (.close k)
        { s.goOn k t .exited with opened := s.opened.erase clientSocket }

/-- The runs of the server; `fds` are the descriptors it has open for itself. -/
def threadServer (fds : Finset Fd) : Lts Threads ThreadLabel where
  init s := s = .start fds
  step := ThreadStep

/-! ## 2. A connection for each thread -/

/-- The descriptors of a thread: its connection, up to `close`, and the file that it reads. -/
def Thread.Holds (t : Thread) (fd : Fd) : Prop :=
  t.pc ≠ .exited ∧ fd = t.connection ∨ t.pc.file = some fd

/-- **Every thread keeps to its own connection**: it will read it or has read it, no two threads
have a descriptor in common, and their descriptors are what is open. -/
structure Separate (fds : Finset Fd) (s : Threads) : Prop where
  element : ∀ k t, s.thread k = some t → t.arg.index = k ∧ s.sockets[k]? = some t.connection
  valid : ∀ k t, s.thread k = some t → t.pc = .created → t.arg.block = s.block
  own : ∀ k t fd, s.thread k = some t → t.pc.clientSocket = some fd → fd = t.connection
  other : ∀ k t fd, s.thread k = some t → t.pc.file = some fd → fd ≠ t.connection
  unique : ∀ j k t u fd, s.thread j = some t → s.thread k = some u → t.Holds fd → u.Holds fd → j = k
  opened : ∀ fd, fd ∈ s.opened ↔ fd ∈ fds ∨ ∃ k t, s.thread k = some t ∧ t.Holds fd
  apart : ∀ k t fd, s.thread k = some t → t.Holds fd → fd ∉ fds

/-- The array is not moved while a thread has yet to read. -/
def StaysPut (s : Threads) : ThreadLabel → Prop
  | .accept _ moved => s.Full → moved → ∀ k t, s.thread k = some t → t.pc ≠ .created
  | _ => True

section Separate

variable {fds : Finset Fd} {s s' : Threads} {l : ThreadLabel} {j k : Nat} {t u : Thread} {fd : Fd}
  {moved : Bool} {pc : ThreadPc}

theorem separate_start (fds : Finset Fd) : Separate fds (.start fds) := by
  refine ⟨?_, ?_, ?_, ?_, ?_, fun fd => ?_, ?_⟩
  · intro k t h
    cases h
  · intro k t h
    cases h
  · intro k t fd h
    cases h
  · intro k t fd h
    cases h
  · intro j k t u fd h
    cases h
  · refine ⟨.inl, fun h => h.elim id fun h => ?_⟩
    obtain ⟨k, t, h, -⟩ := h
    cases h
  · intro k t fd h
    cases h

/-- The threads after `accept`: those before and the new one. -/
theorem accept_thread (h : (s.accept fd moved).thread k = some t) :
    s.thread k = some t ∨ k = s.sockets.length ∧ t.arg = ⟨(s.accept fd moved).block, k⟩ ∧
      t.connection = fd ∧ t.pc = .created := by
  change Function.update s.thread s.sockets.length _ k = some t at h
  rw [Function.update_apply] at h
  split at h
  · rename_i hk
    obtain rfl := Option.some.inj h
    exact .inr ⟨hk, by rw [hk]; rfl, rfl, rfl⟩
  · exact .inl h

/-- A thread that has gone on, or another one. -/
theorem goOn_thread (h : (s.goOn j t pc).thread k = some u) :
    k = j ∧ u = { t with pc } ∨ k ≠ j ∧ s.thread k = some u := by
  change Function.update s.thread j _ k = some u at h
  rw [Function.update_apply] at h
  split at h
  · rename_i hk
    exact .inl ⟨hk, (Option.some.inj h).symm⟩
  · rename_i hk
    exact .inr ⟨hk, h⟩

theorem goOn_self : (s.goOn k t pc).thread k = some { t with pc } := Function.update_self _ _ _

theorem goOn_of_ne (h : j ≠ k) : (s.goOn k t pc).thread j = s.thread j :=
  Function.update_of_ne h _ _

/-- A thread without a file. -/
theorem holds_connection (hpc : t.pc ≠ .exited) (hfile : t.pc.file = none) :
    t.Holds fd ↔ fd = t.connection := by
  simp [Thread.Holds, hpc, hfile]

namespace Separate

theorem index_lt (hs : Separate fds s) (ht : s.thread k = some t) : k < s.sockets.length :=
  (List.getElem?_eq_some_iff.mp (hs.element k t ht).2).1

theorem holds_opened (hs : Separate fds s) (ht : s.thread k = some t) (h : t.Holds fd) :
    fd ∈ s.opened := (hs.opened fd).mpr (.inr ⟨k, t, ht, h⟩)

/-- `accept` makes a thread with a connection of its own. -/
theorem accept (hs : Separate fds s) (hnew : fd ∉ s.opened)
    (hput : StaysPut s (.accept fd moved)) : Separate fds (s.accept fd moved) := by
  have hold : ∀ k t, s.thread k = some t → (s.accept fd moved).thread k = some t := by
    intro k t ht
    have hne : k ≠ s.sockets.length := Nat.ne_of_lt (hs.index_lt ht)
    exact (Function.update_of_ne hne _ _).trans ht
  have hself : (s.accept fd moved).thread s.sockets.length = some _ := Function.update_self _ _ _
  -- the new thread has the new connection only
  have hholds : ∀ {t : Thread} {fd'}, t.connection = fd → t.pc = .created → t.Holds fd' →
      fd' = fd := by
    intro t fd' hconn hpc h
    rcases h with h | h
    · exact h.2.trans hconn
    · rw [hpc] at h
      cases h
  refine ⟨fun k t h => ?_, fun k t h hpc => ?_, fun k t fd' h hfd => ?_, fun k t fd' h hfd => ?_,
    fun j k t u fd' ht hu hlt hlu => ?_, fun fd' => ?_, fun k t fd' h hfd => ?_⟩
  · rcases accept_thread h with h | ⟨rfl, harg, hconn, -⟩
    · obtain ⟨hindex, hsocket⟩ := hs.element k t h
      exact ⟨hindex, (List.getElem?_append_left (hs.index_lt h)).trans hsocket⟩
    · refine ⟨congrArg Pointer.index harg, ?_⟩
      rw [hconn]
      exact List.getElem?_concat_length
  · rcases accept_thread h with h | ⟨rfl, harg, -, -⟩
    · -- the array has not been moved, since this thread has yet to read
      have hnot : ¬ (s.Full ∧ moved = true) := fun hm => hput hm.1 hm.2 k t h hpc
      show t.arg.block = if _ then _ else _
      rw [if_neg hnot]
      exact hs.valid k t h hpc
    · exact congrArg Pointer.block harg
  · rcases accept_thread h with h | ⟨rfl, -, -, hcreated⟩
    · exact hs.own k t fd' h hfd
    · rw [hcreated] at hfd
      cases hfd
  · rcases accept_thread h with h | ⟨rfl, -, -, hcreated⟩
    · exact hs.other k t fd' h hfd
    · rw [hcreated] at hfd
      cases hfd
  · rcases accept_thread ht with ht | ⟨rfl, -, hct, hpt⟩
    · rcases accept_thread hu with hu | ⟨rfl, -, hcu, hpu⟩
      · exact hs.unique j k t u fd' ht hu hlt hlu
      · exact absurd (hholds hcu hpu hlu ▸ hs.holds_opened ht hlt) hnew
    · rcases accept_thread hu with hu | ⟨rfl, -, -, -⟩
      · exact absurd (hholds hct hpt hlt ▸ hs.holds_opened hu hlu) hnew
      · rfl
  · show fd' ∈ insert fd s.opened ↔ _
    rw [Finset.mem_insert, hs.opened]
    constructor
    · intro hin
      rcases hin with rfl | hfd | ⟨k, t, ht, h⟩
      · exact .inr ⟨_, _, hself, .inl ⟨ThreadPc.noConfusion, rfl⟩⟩
      · exact .inl hfd
      · exact .inr ⟨k, t, hold k t ht, h⟩
    · intro hin
      rcases hin with hfd | ⟨k, t, ht, h⟩
      · exact .inr (.inl hfd)
      · rcases accept_thread ht with ht | ⟨-, -, hconn, hpc⟩
        · exact .inr (.inr ⟨k, t, ht, h⟩)
        · exact .inl (hholds hconn hpc h)
  · rcases accept_thread h with h | ⟨rfl, -, hconn, hpc⟩
    · exact hs.apart k t fd' h hfd
    · rw [hholds hconn hpc hfd]
      exact fun hfd => hnew ((hs.opened fd).mpr (.inl hfd))

/-- A thread reads its own connection. -/
theorem reads_own (hs : Separate fds s) (ht : s.thread k = some t) (hpc : t.pc = .created)
    (hread : t.arg.block = s.block → s.sockets[t.arg.index]? = some fd) : fd = t.connection := by
  obtain ⟨hindex, hsocket⟩ := hs.element k t ht
  have hvalue := hread (hs.valid k t ht hpc)
  rw [hindex, hsocket] at hvalue
  exact (Option.some.inj hvalue).symm

/-- **A thread goes on**, with its own connection, and with no descriptor but those it had or one
that was not open. -/
theorem goOn (hs : Separate fds s) (ht : s.thread k = some t) {opened : Finset Fd}
    (hcreated : pc ≠ .created) (hown : ∀ fd, pc.clientSocket = some fd → fd = t.connection)
    (hother : ∀ fd, pc.file = some fd → fd ≠ t.connection)
    (hholds : ∀ fd, Thread.Holds { t with pc } fd → t.Holds fd ∨ fd ∉ s.opened)
    (hopened : ∀ fd, fd ∈ opened ↔
      fd ∈ s.opened ∧ ¬ t.Holds fd ∨ Thread.Holds { t with pc } fd) :
    Separate fds { s.goOn k t pc with opened } := by
  have hfresh : ∀ {j u fd}, s.thread j = some u → j ≠ k → u.Holds fd →
      ¬ Thread.Holds { t with pc } fd := by
    intro j u fd hu hj h h'
    rcases hholds fd h' with h' | h'
    · exact hj (hs.unique j k u t fd hu ht h h')
    · exact h' (hs.holds_opened hu h)
  refine ⟨fun j u hu => ?_, fun j u hu hpc => ?_, fun j u fd hu hfd => ?_, fun j u fd hu hfd => ?_,
    fun i j u v fd hu hv hlu hlv => ?_, fun fd => ?_, fun j u fd hu hfd => ?_⟩
  · rcases goOn_thread hu with ⟨rfl, rfl⟩ | ⟨-, hu⟩
    · exact hs.element j t ht
    · exact hs.element j u hu
  · rcases goOn_thread hu with ⟨rfl, rfl⟩ | ⟨-, hu⟩
    · exact absurd hpc hcreated
    · exact hs.valid j u hu hpc
  · rcases goOn_thread hu with ⟨rfl, rfl⟩ | ⟨-, hu⟩
    · exact hown fd hfd
    · exact hs.own j u fd hu hfd
  · rcases goOn_thread hu with ⟨rfl, rfl⟩ | ⟨-, hu⟩
    · exact hother fd hfd
    · exact hs.other j u fd hu hfd
  · rcases goOn_thread hu with ⟨rfl, rfl⟩ | ⟨hi, hu'⟩
    · rcases goOn_thread hv with ⟨rfl, rfl⟩ | ⟨hj, hv'⟩
      · rfl
      · exact absurd hlu (hfresh hv' hj hlv)
    · rcases goOn_thread hv with ⟨rfl, rfl⟩ | ⟨-, hv'⟩
      · exact absurd hlv (hfresh hu' hi hlu)
      · exact hs.unique i j u v fd hu' hv' hlu hlv
  · refine (hopened fd).trans ?_
    rw [hs.opened]
    constructor
    · intro hin
      rcases hin with ⟨hfd | ⟨j, u, hu, h⟩, hnot⟩ | h
      · exact .inl hfd
      · have hj : j ≠ k := by
          intro heq
          subst heq
          obtain rfl : u = t := Option.some.inj (hu.symm.trans ht)
          exact hnot h
        exact .inr ⟨j, u, (goOn_of_ne hj).trans hu, h⟩
      · exact .inr ⟨k, _, goOn_self, h⟩
    · intro hin
      rcases hin with hfd | ⟨j, u, hu, h⟩
      · exact .inl ⟨.inl hfd, fun h => hs.apart k t fd ht h hfd⟩
      · rcases goOn_thread hu with ⟨rfl, rfl⟩ | ⟨hj, hu⟩
        · exact .inr h
        · exact .inl ⟨.inr ⟨j, u, hu, h⟩, fun h' => hj (hs.unique j k u t fd hu ht h h')⟩
  · rcases goOn_thread hu with ⟨rfl, rfl⟩ | ⟨-, hu⟩
    · rcases hholds fd hfd with h | h
      · exact hs.apart j t fd ht h
      · exact fun hin => h ((hs.opened fd).mpr (.inl hin))
    · exact hs.apart j u fd hu hfd

theorem read (hs : Separate fds s) (ht : s.thread k = some t) (hpc : t.pc = .created)
    (hfd : fd = t.connection) : Separate fds (s.goOn k t (.serving fd)) := by
  have hold : ∀ x, t.Holds x ↔ x = t.connection := fun x =>
    holds_connection (hpc ▸ ThreadPc.noConfusion) (hpc ▸ rfl)
  have hnew : ∀ x, Thread.Holds { t with pc := .serving fd } x ↔ x = t.connection := fun x =>
    holds_connection ThreadPc.noConfusion rfl
  refine hs.goOn ht ThreadPc.noConfusion (fun x hx => Option.some.inj hx ▸ hfd)
    (fun x hx => nomatch hx) (fun x hx => .inl ((hold x).mpr ((hnew x).mp hx)))
    fun x => ?_
  rw [hold, hnew]
  refine ⟨fun hx => ?_, fun hx => hx.elim And.left fun hx => ?_⟩
  · by_cases heq : x = t.connection
    · exact .inr heq
    · exact .inl ⟨hx, heq⟩
  · exact hs.holds_opened ht ((hold x).mpr hx)

/-- A thread opens a file, which nobody has open. -/
theorem fopen (hs : Separate fds s) (ht : s.thread k = some t) (hpc : t.pc = .serving fd)
    {file : Fd} (hfile : file ∉ s.opened) :
    Separate fds { s.goOn k t (.reading fd file) with opened := insert file s.opened } := by
  have hold : ∀ x, t.Holds x ↔ x = t.connection := fun x =>
    holds_connection (hpc ▸ ThreadPc.noConfusion) (hpc ▸ rfl)
  have hnew : ∀ x, Thread.Holds { t with pc := .reading fd file } x ↔
      x = t.connection ∨ file = x := by
    intro x
    simp [Thread.Holds, ThreadPc.file]
  have hopen : t.connection ∈ s.opened := hs.holds_opened ht ((hold _).mpr rfl)
  refine hs.goOn ht ThreadPc.noConfusion (fun x hx => ?_) (fun x hx => ?_) (fun x hx => ?_)
    fun x => ?_
  · exact hs.own k t x ht (hpc ▸ hx)
  · obtain rfl : file = x := Option.some.inj hx
    exact fun heq => hfile (heq ▸ hopen)
  · rcases (hnew x).mp hx with heq | rfl
    · exact .inl ((hold x).mpr heq)
    · exact .inr hfile
  · rw [Finset.mem_insert, hold, hnew]
    constructor
    · intro hx
      rcases hx with rfl | hx
      · exact .inr (.inr rfl)
      · by_cases heq : x = t.connection
        · exact .inr (.inl heq)
        · exact .inl ⟨hx, heq⟩
    · intro hx
      rcases hx with hx | rfl | rfl
      · exact .inr hx.1
      · exact .inr hopen
      · exact .inl rfl

/-- A thread closes the file that it has read. -/
theorem fclose (hs : Separate fds s) (ht : s.thread k = some t) {file : Fd}
    (hpc : t.pc = .reading fd file) :
    Separate fds { s.goOn k t (.answered fd) with opened := s.opened.erase file } := by
  have hold : ∀ x, t.Holds x ↔ x = t.connection ∨ file = x := by
    intro x
    simp [Thread.Holds, hpc, ThreadPc.file]
  have hnew : ∀ x, Thread.Holds { t with pc := .answered fd } x ↔ x = t.connection := fun x =>
    holds_connection ThreadPc.noConfusion rfl
  have hne : file ≠ t.connection := hs.other k t file ht (hpc ▸ rfl)
  refine hs.goOn ht ThreadPc.noConfusion (fun x hx => hs.own k t x ht (hpc ▸ hx))
    (fun x hx => nomatch hx) (fun x hx => .inl ((hold x).mpr (.inl ((hnew x).mp hx))))
    fun x => ?_
  rw [Finset.mem_erase, hold, hnew, not_or]
  constructor
  · intro ⟨hx, hin⟩
    by_cases heq : x = t.connection
    · exact .inr heq
    · exact .inl ⟨hin, heq, hx.symm⟩
  · intro hx
    rcases hx with ⟨hin, -, hx⟩ | rfl
    · exact ⟨Ne.symm hx, hin⟩
    · exact ⟨hne.symm, hs.holds_opened ht ((hold _).mpr (.inl rfl))⟩

/-- A thread that has answered closes its own connection. -/
theorem close (hs : Separate fds s) (ht : s.thread k = some t)
    (hpc : t.pc = .serving fd ∨ t.pc = .answered fd) :
    Separate fds { s.goOn k t .exited with opened := s.opened.erase fd } := by
  have hown : fd = t.connection := by
    refine hs.own k t fd ht ?_
    rcases hpc with hpc | hpc <;> rw [hpc] <;> rfl
  have hold : ∀ x, t.Holds x ↔ x = t.connection := by
    intro x
    rcases hpc with hpc | hpc
    · exact holds_connection (hpc ▸ ThreadPc.noConfusion) (hpc ▸ rfl)
    · exact holds_connection (hpc ▸ ThreadPc.noConfusion) (hpc ▸ rfl)
  have hnew : ∀ x, ¬ Thread.Holds { t with pc := .exited } x := by
    intro x
    simp [Thread.Holds, ThreadPc.file]
  refine hs.goOn ht ThreadPc.noConfusion (fun x hx => nomatch hx)
    (fun x hx => nomatch hx) (fun x hx => absurd hx (hnew x)) fun x => ?_
  rw [Finset.mem_erase, hold, or_iff_left (hnew x), hown, and_comm]

/-- **The step lemma.** -/
theorem step (hs : Separate fds s) (hput : StaysPut s l) (h : ThreadStep s l s') :
    Separate fds s' := by
  cases h with
  | accept hnew => exact hs.accept hnew hput
  | read ht hpc hread => exact hs.read ht hpc (hs.reads_own ht hpc hread)
  | fopen ht hpc hnew => exact hs.fopen ht hpc hnew
  | fclose ht hpc => exact hs.fclose ht hpc
  | close ht hpc => exact hs.close ht hpc

end Separate

/-! ## 3. When threads keep to their connections -/

/-- A thread that may read any descriptor at all. -/
def Astray (s : Threads) : Prop := ∃ k, ∀ fd, ∃ s', ThreadStep s (.read k fd) s'

theorem Separate.not_astray (hs : Separate fds s) : ¬ Astray s := by
  intro hastray
  obtain ⟨k, hall⟩ := hastray
  have howns : ∀ fd, ∃ t, s.thread k = some t ∧ fd = t.connection := by
    intro fd
    obtain ⟨s', hread⟩ := hall fd
    cases hread with
    | read ht hpc hread => exact ⟨_, ht, hs.reads_own ht hpc hread⟩
  obtain ⟨t, ht, h0⟩ := howns 0
  obtain ⟨u, hu, h1⟩ := howns 1
  obtain rfl : t = u := Option.some.inj (ht.symm.trans hu)
  exact absurd (h0.trans h1.symm) (by decide)

/-- The array has gone, and the thread has yet to look there. -/
theorem astray_of_moved (hs : Separate fds s) (hput : ¬ StaysPut s l) (h : ThreadStep s l s') :
    Astray s' := by
  cases h with
  | read ht hpc hread => exact absurd trivial hput
  | fopen ht hpc hnew => exact absurd trivial hput
  | fclose ht hpc => exact absurd trivial hput
  | close ht hpc => exact absurd trivial hput
  | @accept clientFd moved hnew =>
    simp only [StaysPut, not_forall, not_not] at hput
    obtain ⟨hfull, hmoved, k, t, ht, hpc⟩ := hput
    have hne : k ≠ s.sockets.length := Nat.ne_of_lt (hs.index_lt ht)
    have hthread : (s.accept clientFd moved).thread k = some t :=
      (Function.update_of_ne hne _ _).trans ht
    refine ⟨k, fun fd => ⟨_, .read hthread hpc fun hblock => ?_⟩⟩
    have hgone : (s.accept clientFd moved).block = s.block + 1 := if_pos ⟨hfull, hmoved⟩
    rw [hs.valid k t ht hpc, hgone] at hblock
    exact absurd hblock.symm (Nat.succ_ne_self _)

/-- The array is not full before it has its first ten elements. -/
theorem first_separate (h : (threadServer fds).Reachable s) :
    initialCapacity ≤ s.capacity ∧ (s.sockets.length ≤ initialCapacity → Separate fds s) := by
  refine h.invariant (I := fun s => initialCapacity ≤ s.capacity ∧
    (s.sockets.length ≤ initialCapacity → Separate fds s)) (fun s hs => ?_)
    fun s l s' ⟨hcap, hi⟩ (hstep : ThreadStep s l s') => ?_
  · obtain rfl : s = .start fds := hs
    exact ⟨Nat.le_refl _, fun _ => separate_start fds⟩
  · cases hstep with
    | @accept clientFd moved hnew =>
      refine ⟨?_, fun hlen => ?_⟩
      · show _ ≤ if s.Full then s.capacity * 2 else s.capacity
        split <;> omega
      · have hlength : (s.accept clientFd moved).sockets.length = s.sockets.length + 1 :=
          List.length_append
        rw [hlength] at hlen
        refine (hi (by omega)).accept hnew fun hfull => ?_
        unfold Threads.Full at hfull
        omega
    | read ht hpc hread =>
      exact ⟨hcap, fun hlen => (hi hlen).read ht hpc ((hi hlen).reads_own ht hpc hread)⟩
    | fopen ht hpc hnew => exact ⟨hcap, fun hlen => (hi hlen).fopen ht hpc hnew⟩
    | fclose ht hpc => exact ⟨hcap, fun hlen => (hi hlen).fclose ht hpc⟩
    | close ht hpc => exact ⟨hcap, fun hlen => (hi hlen).close ht hpc⟩

/-- **Each thread answers its own connection**, closes it once and touches no other, as long as the
array is not moved under a thread that has yet to read its descriptor; a step that does so leaves a
thread that may answer and close any connection. No step does before the eleventh connection is
accepted. -/
theorem thread_per_connection (fds : Finset Fd) :
    (∀ s, ((threadServer fds).restrict StaysPut).Reachable s → Separate fds s ∧
      ∀ l s', ThreadStep s l s' → (¬ Astray s' ↔ StaysPut s l)) ∧
    ∀ s, (threadServer fds).Reachable s → s.sockets.length ≤ initialCapacity →
      Separate fds s := by
  refine ⟨fun s h => ?_, fun s h => (first_separate h).2⟩
  have hs : Separate fds s := h.invariant (fun s (h0 : s = .start fds) => h0 ▸ separate_start fds)
    fun _ _ _ hs hstep => hs.step hstep.1 hstep.2
  refine ⟨hs, fun l s' hstep => ⟨fun hnot => ?_, fun hput => (hs.step hput hstep).not_astray⟩⟩
  by_contra hput
  exact hnot (astray_of_moved hs hput hstep)

/-- Some connections are accepted, and no thread has run yet. -/
def accepted : Nat → Threads
  | 0 => .start {3}
  | n + 1 => (accepted n).accept (n + 4) false

theorem accepted_reachable (n : Nat) :
    ((threadServer {3}).restrict StaysPut).Reachable (accepted n) ∧
      ∀ fd ∈ (accepted n).opened, fd < n + 4 := by
  induction n with
  | zero => exact ⟨⟨[], .start rfl⟩, by decide⟩
  | succ n ih =>
    obtain ⟨hreach, hopened⟩ := ih
    have hnew : n + 4 ∉ (accepted n).opened := fun hin => absurd (hopened _ hin) (Nat.lt_irrefl _)
    refine ⟨hreach.step (l := .accept (n + 4) false)
      ⟨fun _ hmoved => Bool.noConfusion hmoved, .accept hnew⟩, fun fd hfd => ?_⟩
    rcases Finset.mem_insert.mp hfd with rfl | hfd
    · exact Nat.lt_succ_self _
    · exact Nat.lt_succ_of_lt (hopened fd hfd)

/-- The eleventh connection moves the array under the first thread. -/
theorem thread_per_connection_eleventh :
    Separate {3} (accepted 10) ∧ ∃ s, ThreadStep (accepted 10) (.accept 14 true) s ∧ Astray s := by
  obtain ⟨hreach, hopened⟩ := accepted_reachable 10
  obtain ⟨hseparate, hstep⟩ := (thread_per_connection {3}).1 _ hreach
  have haccept : ThreadStep (accepted 10) (.accept 14 true) _ :=
    .accept fun hin => absurd (hopened 14 hin) (by decide)
  refine ⟨hseparate, _, haccept, ?_⟩
  by_contra hnot
  have hcreated : (accepted 10).thread 0 = some ⟨⟨0, 0⟩, 4, .created⟩ := by decide
  exact (hstep _ _ haccept).mp hnot (by decide) rfl 0 _ hcreated rfl

end Separate

end InpLabs.Web
