/-
  File:      InpLabs/Web/Epoll.lean
  Subject:   The event loop of the TLS-capable web server and its two listening sockets (homework1:
             server_https.c).

  * `EventLoop`, `Action`, `step`: the listen queues, what epoll is about to report, and where the
    loop stands. Connections arrive at any time;
  * `expected`: the calls of `accept` to come for a port; `step_balance`: what one step does to the
    difference between them and the queue;
  * `stranded_iff`: a blocked loop leaves nothing in its queues exactly when no connection arrived
    on a port with an arrival that was yet to be reported, and no `accept` failed;
    `two_arrivals`: two connections before one report.
-/
import InpLabs.Lib.Lts
import Mathlib.Data.List.Induction
import Mathlib.Data.List.Perm.Basic
import Mathlib.Logic.Function.Basic

namespace InpLabs.Web

open InpLabs.Lib

/-! ## 1. The loop -/

/-- The two listening sockets: port 80 and port 443. -/
inductive Port where
  | http
  | https
  deriving DecidableEq

/-- A connection. -/
abbrev Conn := Nat

/-- Where the loop stands: in `epoll_wait`, before the next one of the reported events, or with the
connection it has accepted. -/
inductive LoopPc where
  | wait
  | handling (events : List Port)
  | serving (client : Conn) (events : List Port)
  deriving DecidableEq

/-- The queue of a listening socket, and whether a connection has arrived on it since epoll last
reported it. -/
structure EventLoop where
  queue : Port → List Conn
  pending : Port → Bool
  pc : LoopPc

/-- How `accept` ends: with the first connection of the queue; with an error because this one was
aborted by its client; with another error, such as a lack of descriptors. -/
inductive Accepted where
  | client
  | aborted
  | failed
  deriving DecidableEq

/-- What happens next: a connection arrives, `epoll_wait` returns, `accept` does, a connection has
been served, or the last event has been handled. -/
inductive Action where
  | arrive (port : Port) (conn : Conn)
  | report (events : List Port)
  | accept (result : Accepted)
  | served
  | again
  deriving DecidableEq

/-- The descriptors `epoll_wait` reports, in some order: both are fewer than `MAX_EVENTS`. -/
def EventLoop.ready (l : EventLoop) : List Port := [Port.http, .https].filter l.pending

/-- A connection that the backlog has room for; any other one never gets here. -/
def EventLoop.arrive (l : EventLoop) (port : Port) (conn : Conn) : EventLoop :=
  { l with
    queue := Function.update l.queue port (l.queue port ++ [conn])
    pending := Function.update l.pending port true }

def EventLoop.report (l : EventLoop) (events : List Port) : Option EventLoop :=
  if l.pc = .wait ∧ events ≠ [] ∧ events.Perm l.ready then
    some { l with pending := fun _ => false, pc := .handling events }
  else none

/-- With nothing in the queue the call does not return. -/
def EventLoop.accept (l : EventLoop) (result : Accepted) : Option EventLoop :=
  match l.pc with
  | .handling (port :: events) =>
    match l.queue port with
    | [] => none
    | client :: queue =>
      match result with
      | .client =>
        some { l with
          queue := Function.update l.queue port queue
          pc := .serving client events }
      | .aborted =>
        some { l with
          queue := Function.update l.queue port queue
          pc := .handling events }
      | .failed => some { l with pc := .handling events }
  | _ => none

/-- The end of a connection, whether the handshake, the request and the response went well or
not. -/
def EventLoop.served (l : EventLoop) : Option EventLoop :=
  match l.pc with
  | .serving _ events => some { l with pc := .handling events }
  | _ => none

def EventLoop.again (l : EventLoop) : Option EventLoop :=
  if l.pc = .handling [] then some { l with pc := .wait } else none

def EventLoop.step (l : EventLoop) : Action → Option EventLoop
  | .arrive port conn => some (l.arrive port conn)
  | .report events => l.report events
  | .accept result => l.accept result
  | .served => l.served
  | .again => l.again

/-- Before the loop is entered: what has arrived by then is reported like a later arrival, when the
descriptor is registered. -/
def EventLoop.start : EventLoop where
  queue _ := []
  pending _ := false
  pc := .wait

/-- The runs of the loop, with connections that arrive in between. -/
def eventLoop : Lts EventLoop Action where
  init l := l = .start
  step l a l' := l.step a = some l'

/-- The loop is blocked in `epoll_wait`, and nothing is to be reported. -/
def EventLoop.Blocked (l : EventLoop) : Prop := l.pc = .wait ∧ ∀ port, l.pending port = false

/-! ## 2. What is left in a queue -/

/-- The events that are still to be handled. -/
def LoopPc.events : LoopPc → List Port
  | .wait => []
  | .handling events => events
  | .serving _ events => events

/-- How often `accept` is to be called on a port for what has arrived so far. -/
def EventLoop.expected (l : EventLoop) (port : Port) : Nat :=
  (l.pending port).toNat + l.pc.events.count port

/-- The port on which a step leaves one connection more in the queue than there are calls to come:
by an arrival that is not reported by itself, or an `accept` that fails. -/
def EventLoop.strands (l : EventLoop) : Action → Option Port
  | .arrive port _ => if l.pending port then some port else none
  | .accept .failed => l.pc.events.head?
  | _ => none

section Balance

variable {l l' : EventLoop} {a : Action} {as : List Action}

/-- What was to be reported is to be handled after the report. -/
theorem count_ready (l : EventLoop) (port : Port) :
    l.ready.count port = (l.pending port).toNat := by
  unfold EventLoop.ready
  cases h : l.pending port with
  | false => exact List.count_eq_zero.mpr fun hmem => by simp [h] at hmem
  | true =>
    rw [List.count_filter h]
    cases port <;> rfl

theorem strands_arrive {p port : Port} {conn : Conn} :
    l.strands (.arrive p conn) = some port ↔ port = p ∧ l.pending port = true := by
  unfold EventLoop.strands
  dsimp only
  split
  · rename_i hpending
    exact ⟨fun h => (Option.some.inj h) ▸ ⟨rfl, hpending⟩, fun h => congrArg some h.1.symm⟩
  · rename_i hpending
    exact ⟨fun h => (Option.some_ne_none port h.symm).elim, fun h => absurd (h.1 ▸ h.2) hpending⟩

theorem arrive_balance (l : EventLoop) (p : Port) (conn : Conn) (port : Port) :
    ((l.arrive p conn).queue port).length + l.expected port =
      (l.queue port).length + (l.arrive p conn).expected port +
        if l.strands (.arrive p conn) = some port then 1 else 0 := by
  unfold EventLoop.arrive EventLoop.expected
  dsimp only
  by_cases hp : port = p
  · subst hp
    rw [Function.update_self, Function.update_self, List.length_append, List.length_singleton]
    by_cases hpending : l.pending port = true
    · rw [if_pos (strands_arrive.mpr ⟨rfl, hpending⟩), hpending]
      omega
    · rw [if_neg fun h => hpending (strands_arrive.mp h).2, Bool.eq_false_iff.mpr hpending,
        Bool.toNat_false, Bool.toNat_true]
      omega
  · rw [Function.update_of_ne hp, Function.update_of_ne hp,
      if_neg fun h => hp (strands_arrive.mp h).1, Nat.add_zero]

theorem report_balance {events : List Port} (h : l.report events = some l') (port : Port) :
    (l'.queue port).length + l.expected port = (l.queue port).length + l'.expected port := by
  unfold EventLoop.report at h
  split at h
  · rename_i hready
    obtain ⟨hpc, -, hperm⟩ := hready
    cases h
    have hcount := (hperm.count_eq port).trans (count_ready l port)
    unfold EventLoop.expected
    rw [hpc]
    simp only [LoopPc.events, hcount, List.count_nil, Bool.toNat_false]
    omega
  · cases h

theorem accept_balance {result : Accepted} (h : l.accept result = some l') (port : Port) :
    (l'.queue port).length + l.expected port =
      (l.queue port).length + l'.expected port +
        if l.strands (.accept result) = some port then 1 else 0 := by
  unfold EventLoop.accept at h
  split at h
  · rename_i p events hpc
    split at h
    · cases h
    · rename_i client queue hqueue
      have hcount : l.expected port =
          (l.pending port).toNat + (events.count port + if p = port then 1 else 0) := by
        unfold EventLoop.expected
        rw [hpc]
        simp only [LoopPc.events, List.count_cons, beq_iff_eq]
      have hlength : ((Function.update l.queue p queue) port).length +
          (if p = port then 1 else 0) = (l.queue port).length := by
        by_cases hp : p = port
        · subst hp
          rw [Function.update_self, if_pos rfl, hqueue, List.length_cons]
        · rw [Function.update_of_ne (Ne.symm hp), if_neg hp, Nat.add_zero]
      rw [hcount]
      cases result with
      | client =>
        cases h
        simp only [EventLoop.expected, EventLoop.strands, LoopPc.events, reduceCtorEq, if_false]
        omega
      | aborted =>
        cases h
        simp only [EventLoop.expected, EventLoop.strands, LoopPc.events, reduceCtorEq, if_false]
        omega
      | failed =>
        cases h
        simp only [EventLoop.expected, EventLoop.strands, hpc, LoopPc.events, List.head?_cons,
          Option.some.injEq]
        omega
  · cases h

/-- **One step**: the queue and the calls to come change by the same, but for what is stranded. -/
theorem step_balance (h : l.step a = some l') (port : Port) :
    (l'.queue port).length + l.expected port =
      (l.queue port).length + l'.expected port + if l.strands a = some port then 1 else 0 := by
  cases a with
  | arrive p conn =>
    cases h
    exact arrive_balance l p conn port
  | report events => exact report_balance h port
  | accept result => exact accept_balance h port
  | served =>
    replace h : l.served = some l' := h
    unfold EventLoop.served at h
    split at h
    · rename_i hpc
      cases h
      simp only [EventLoop.expected, EventLoop.strands, hpc, LoopPc.events, reduceCtorEq, if_false,
        Nat.add_zero]
    · cases h
  | again =>
    replace h : l.again = some l' := h
    unfold EventLoop.again at h
    split at h
    · rename_i hpc
      cases h
      simp only [EventLoop.expected, EventLoop.strands, hpc, LoopPc.events, reduceCtorEq, if_false,
        Nat.add_zero]
    · cases h

end Balance

/-! ## 3. Runs -/

/-- Every arrival is reported by itself, and no `accept` fails. -/
def EventLoop.Single (l : EventLoop) (a : Action) : Prop := l.strands a = none

section Runs

variable {l : EventLoop} {as : List Action}

theorem run_unique {l' : EventLoop} (h : eventLoop.Run as l) (h' : eventLoop.Run as l') :
    l = l' := by
  refine h.unique (fun l l' hl hl' => ?_) (fun l a t t' ht ht' => ?_) h'
  · exact Eq.trans hl (Eq.symm hl')
  · exact Option.some.inj (Eq.trans (Eq.symm ht) ht')

/-- The run of the given actions, the first one first. -/
theorem run_of_actions (h : as.foldlM EventLoop.step .start = some l) :
    eventLoop.Run as.reverse l := by
  induction as using List.reverseRecOn generalizing l with
  | nil =>
    cases h
    exact .start rfl
  | append_singleton as a ih =>
    rw [List.foldlM_append] at h
    obtain ⟨l', hl', hlast⟩ := Option.bind_eq_some_iff.mp h
    rw [List.foldlM_cons] at hlast
    obtain ⟨l'', hstep, hnil⟩ := Option.bind_eq_some_iff.mp hlast
    cases hnil
    rw [List.reverse_concat]
    exact .step (ih hl') hstep

/-- There are never fewer connections than calls to come, and never more exactly in the runs that
strand none. -/
theorem run_balance (h : eventLoop.Run as l) : (∀ port, l.expected port ≤ (l.queue port).length) ∧
    ((∀ port, (l.queue port).length = l.expected port) ↔
      (eventLoop.restrict EventLoop.Single).Run as l) := by
  induction h with
  | start h =>
    cases h
    exact ⟨fun port => Nat.le_refl _, iff_of_true (fun port => rfl) (.start rfl)⟩
  | step h hs ih =>
    rename_i as a l l'
    obtain ⟨hle, hrun⟩ := ih
    have hstep := step_balance hs
    refine ⟨fun port => ?_, fun heq => ?_, fun hsingle => ?_⟩
    · have hport := hstep port
      have hleport := hle port
      omega
    · -- what was stranded before, or is now, is never made up for
      have hbefore : ∀ port, (l.queue port).length = l.expected port := fun port => by
        have hport := hstep port
        have hleport := hle port
        have heqport := heq port
        omega
      have hnone : l.strands a = none := by
        refine Option.eq_none_iff_forall_ne_some.mpr fun port hport => ?_
        have hone := hstep port
        rw [if_pos hport, hbefore port, heq port] at hone
        omega
      exact .step (hrun.mp hbefore) ⟨hnone, hs⟩
    · obtain ⟨l₀, hl₀, hnone, -⟩ := hsingle.step_inv
      obtain rfl := run_unique hl₀.of_restrict h
      intro port
      have hport := hstep port
      rw [if_neg fun h => Option.some_ne_none port (h.symm.trans hnone)] at hport
      have hbefore := hrun.mpr hl₀ port
      omega

/-- `accept` is only called where a connection waits. -/
theorem accept_returns (h : eventLoop.Run as l) {port : Port} {events : List Port}
    (hpc : l.pc = .handling (port :: events)) (result : Accepted) : l.accept result ≠ none := by
  have hle := (run_balance h).1 port
  unfold EventLoop.expected at hle
  rw [hpc] at hle
  simp only [LoopPc.events, List.count_cons_self] at hle
  unfold EventLoop.accept
  rw [hpc]
  dsimp only
  cases hqueue : l.queue port with
  | nil =>
    rw [hqueue, List.length_nil] at hle
    omega
  | cons client queue => cases result <;> exact Option.some_ne_none _

/-- Nothing is expected of a blocked loop. -/
theorem expected_blocked (h : l.Blocked) (port : Port) : l.expected port = 0 := by
  unfold EventLoop.expected
  rw [h.1, h.2 port]
  rfl

/-- **No connection is stranded** in a run to a blocked loop exactly when every arrival came after
the last one on its port had been reported, and no `accept` failed. -/
theorem stranded_iff (h : eventLoop.Run as l) (hblocked : l.Blocked) :
    (∀ port, l.queue port = []) ↔ (eventLoop.restrict EventLoop.Single).Run as l := by
  rw [← (run_balance h).2]
  refine forall_congr' fun port => ?_
  rw [expected_blocked hblocked port, List.length_eq_zero_iff]

end Runs

/-- Three connections on two ports, each reported by itself; and one whose `accept` fails. -/
theorem stranded_served : (∃ as l, eventLoop.Run as l ∧ l.Blocked ∧
      (∀ port, l.queue port = []) ∧ (eventLoop.restrict EventLoop.Single).Run as l) ∧
    ∃ as l, eventLoop.Run as l ∧ l.Blocked ∧ l.queue .http = [0] ∧
      ¬ (eventLoop.restrict EventLoop.Single).Run as l := by
  constructor
  · have hrun := run_of_actions
      (rfl : [.arrive .http 0, .arrive .https 1, .report [.https, .http], .accept .client,
        .arrive .https 2, .served, .accept .client, .served, .again, .report [.https],
        .accept .client, .served, .again].foldlM EventLoop.step .start = some _)
    have hiff := stranded_iff hrun ⟨rfl, fun port => rfl⟩
    exact ⟨_, _, hrun, ⟨rfl, fun port => rfl⟩, fun port => by cases port <;> rfl,
      hiff.mp fun port => by cases port <;> rfl⟩
  · have hrun := run_of_actions
      (rfl : [.arrive .http 0, .report [.http], .accept .failed, .again].foldlM
        EventLoop.step .start = some _)
    refine ⟨_, _, hrun, ⟨rfl, fun port => rfl⟩, rfl, fun hsingle => ?_⟩
    have hempty := (stranded_iff hrun ⟨rfl, fun port => rfl⟩).mpr hsingle .http
    cases hempty

/-- **Two arrivals before one report**: the second connection stays in the queue. -/
theorem two_arrivals : ∃ as l, eventLoop.Run as l ∧ l.Blocked ∧ l.queue .http ≠ [] := by
  have hrun := run_of_actions
    (rfl : [.arrive .http 0, .arrive .http 1, .report [.http], .accept .client, .served,
      .again].foldlM EventLoop.step .start = some _)
  exact ⟨_, _, hrun, ⟨rfl, fun port => rfl⟩, List.cons_ne_nil _ _⟩

end InpLabs.Web
