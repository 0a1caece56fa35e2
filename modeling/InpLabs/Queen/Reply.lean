/-
  File:      InpLabs/Queen/Reply.lean
  Subject:   **Where the N-Queen client reassembles a reply** (lab7: solver.cpp, `recvMsg` and the
             loop of `main` that takes the board from the buffer).

  * `Socket`: what is to be read, piece by piece, and how it ends: the server falls silent, so that
    `read` times out, or it closes the connection, so that `read` returns 0 again and again;
  * `recvMsg`, `parseBoard`: the functions of the source. The loop goes round `limit` times at most;
    `none` says that this was not enough;
  * `recvMsg_timeout`, `recvMsg_closed`: every piece overwrites the one before it, and the loop ends
    with a timeout only;
  * `recvMsg_iff`: so the reply is in the buffer exactly when it came in one piece, before a
    timeout.
-/
import InpLabs.Lib.Cxx

namespace InpLabs.Queen

open InpLabs.Lib

/-! ## 1. Reading -/

/-- What follows the last piece. -/
inductive Ending where
  | timeout
  | closed
  deriving DecidableEq

/-- The connection, as the client reads it. -/
structure Socket where
  chunks : List Bytes
  ending : Ending
  deriving DecidableEq

/-- `read(sock, buf, count)`: the bytes it puts into the buffer, or `none` for -1. -/
def Socket.read (s : Socket) (count : Nat) : Option Bytes × Socket :=
  match s.chunks with
  | [] => (if s.ending = .timeout then none else some [], s)
  | c :: cs =>
    (some (c.take count), { s with chunks := if c.length ≤ count then cs else c.drop count :: cs })

/-- `MAX_MSG`, which is also the size of the buffer. -/
def maxMsg : Nat := 4 * 1024

/-- The buffer after a read of `data` into it and `buf[len] = '\0'`. -/
def fill (buf data : Bytes) : Bytes := (data ++ buf.drop data.length).set data.length 0

def recvMsg : Nat → Socket → Bytes → Option (Bytes × Socket)
  | 0, _, _ => none
  | limit + 1, s, buf =>
    match s.read (maxMsg - 1) with
    | (none, s) => some (buf, s)
    | (some data, s) => recvMsg limit s (fill buf data)

/-! ## 2. The board -/

/-- One pass of the loop over the buffer: the rows so far, and the one that is being read. -/
def readByte (st : List Bytes × Bytes) (c : UInt8) : List Bytes × Bytes :=
  if c = 10 then (st.1 ++ [st.2], [])
  else if c = 32 then st
  else (st.1, st.2 ++ [c])

/-- The rows `main` takes from the buffer. -/
def parseBoard (buf : Bytes) : List Bytes := ((cString buf).foldl readByte ([], [])).1

/-! ## 3. The loop -/

section Loop

variable {chunks : List Bytes} {buf data : Bytes}

theorem fill_length (h : data.length < buf.length) : (fill buf data).length = buf.length := by
  simp only [fill, List.length_set, List.length_append, List.length_drop]
  omega

theorem fill_prefix (h : data.length < buf.length) : data ++ [0] <+: fill buf data := by
  obtain ⟨b, rest, hrest⟩ : ∃ b rest, buf.drop data.length = b :: rest := by
    cases hdrop : buf.drop data.length with
    | nil => exact absurd (List.drop_eq_nil_iff.mp hdrop) (by omega)
    | cons b rest => exact ⟨b, rest, rfl⟩
  refine ⟨rest, ?_⟩
  rw [fill, hrest, List.set_append_right _ _ (le_refl _)]
  simp

/-- A piece leaves what stands behind it and its NUL. -/
theorem fill_get? {i : Nat} (h : data.length < i) : (fill buf data)[i]? = buf[i]? := by
  rw [fill, List.getElem?_set_ne (by omega), List.getElem?_append_right (by omega),
    List.getElem?_drop]
  congr 1
  omega

/-- After the server has closed the connection the loop never ends. -/
theorem recvMsg_closed (limit : Nat) (chunks : List Bytes) (buf : Bytes) :
    recvMsg limit ⟨chunks, .closed⟩ buf = none := by
  induction limit generalizing chunks buf with
  | zero => rfl
  | succ limit ih =>
    cases chunks with
    | nil => exact ih [] _
    | cons c cs => exact ih _ _

/-- With a timeout it ends, and every piece has been written over the one before it. -/
theorem recvMsg_timeout (hlen : ∀ c ∈ chunks, c.length < maxMsg) {limit : Nat}
    (hlimit : chunks.length < limit) (buf : Bytes) :
    recvMsg limit ⟨chunks, .timeout⟩ buf = some (chunks.foldl fill buf, ⟨[], .timeout⟩) := by
  induction chunks generalizing limit buf with
  | nil =>
    obtain ⟨limit, rfl⟩ := Nat.exists_eq_add_of_lt hlimit
    rfl
  | cons c cs ih =>
    obtain ⟨hc, hcs⟩ := List.forall_mem_cons.mp hlen
    obtain ⟨limit, rfl⟩ := Nat.exists_eq_succ_of_ne_zero (Nat.ne_zero_of_lt hlimit)
    have hle : c.length ≤ maxMsg - 1 := by omega
    have hread : Socket.read ⟨c :: cs, .timeout⟩ (maxMsg - 1) = (some c, ⟨cs, .timeout⟩) := by
      simp only [Socket.read, if_pos hle, List.take_of_length_le hle]
    rw [recvMsg, hread]
    exact ih hcs (by simpa using hlimit) _

theorem foldl_fill_length (hlen : ∀ c ∈ chunks, c.length < maxMsg) (hbuf : buf.length = maxMsg) :
    (chunks.foldl fill buf).length = maxMsg := by
  induction chunks generalizing buf with
  | nil => exact hbuf
  | cons c cs ih =>
    obtain ⟨hc, hcs⟩ := List.forall_mem_cons.mp hlen
    exact ih hcs ((fill_length (hbuf ▸ hc)).trans hbuf)

/-- What stands behind every piece has been there before. -/
theorem foldl_fill_get? {i : Nat} (h : ∀ c ∈ chunks, c.length < i) :
    (chunks.foldl fill buf)[i]? = buf[i]? := by
  induction chunks generalizing buf with
  | nil => rfl
  | cons c cs ih =>
    obtain ⟨hc, hcs⟩ := List.forall_mem_cons.mp h
    exact (ih hcs).trans (fill_get? hc)

/-- The last piece is what the buffer opens with. -/
theorem foldl_fill_begins (hlen : ∀ c ∈ chunks ++ [data], c.length < maxMsg)
    (hbuf : buf.length = maxMsg) : data ++ [0] <+: (chunks ++ [data]).foldl fill buf := by
  rw [List.foldl_append]
  have hcs : ∀ c ∈ chunks, c.length < maxMsg := fun c hc =>
    hlen c (List.mem_append_left _ hc)
  refine fill_prefix ?_
  rw [foldl_fill_length hcs hbuf]
  exact hlen data (by simp)

end Loop

/-! ## 4. The reply -/

/-- `recvMsg` returns and leaves the whole reply in the buffer with a NUL behind it, so that `main`
    reads the board that is in the reply. -/
def Reassembles (chunks : List Bytes) (ending : Ending) (buf : Bytes) : Prop :=
  ∃ N s buf', (∀ limit, N ≤ limit → recvMsg limit ⟨chunks, ending⟩ buf = some (buf', s)) ∧
    chunks.flatten ++ [0] <+: buf' ∧ parseBoard buf' = parseBoard chunks.flatten

section Reply

variable {chunks : List Bytes} {ending : Ending} {buf : Bytes}

/-- Where the loop ends, the buffer decides. -/
theorem reassembles_iff (hlen : ∀ c ∈ chunks, c.length < maxMsg) : Reassembles chunks ending buf ↔
    ending = .timeout ∧ chunks.flatten ++ [0] <+: chunks.foldl fill buf := by
  constructor
  · rintro ⟨N, s, buf', hrun, hprefix, -⟩
    cases ending with
    | closed =>
      have hnone := (recvMsg_closed N chunks buf).symm.trans (hrun N (le_refl N))
      cases hnone
    | timeout =>
      have hend := recvMsg_timeout hlen (Nat.lt_succ_of_le (Nat.le_add_right _ N)) buf
      rw [hrun _ (by omega)] at hend
      cases hend
      exact ⟨rfl, hprefix⟩
  · rintro ⟨rfl, hprefix⟩
    refine ⟨chunks.length + 1, _, _, fun limit hlimit => recvMsg_timeout hlen hlimit buf, hprefix,
      ?_⟩
    rw [parseBoard, cString_terminated hprefix, parseBoard]

/-- A reply in one piece. -/
theorem reassembles_one {c : Bytes} (hc : c.length < maxMsg) (hbuf : buf.length = maxMsg) :
    Reassembles [c] .timeout buf := by
  have hlen : ∀ d ∈ [c], d.length < maxMsg := by simpa using hc
  rw [reassembles_iff hlen, List.flatten_singleton]
  exact ⟨rfl, (foldl_fill_begins hlen hbuf : c ++ [0] <+: ([] ++ [c]).foldl fill buf)⟩

/-- Of several pieces, none of them empty, each is shorter than the reply. -/
theorem length_lt_flatten (hne : ∀ c ∈ chunks, c ≠ []) (h : 2 ≤ chunks.length) {c : Bytes}
    (hc : c ∈ chunks) : c.length < chunks.flatten.length := by
  obtain ⟨as, bs, rfl⟩ := List.append_of_mem hc
  have hothers : as ++ bs ≠ [] := by
    intro hnil
    obtain ⟨rfl, rfl⟩ := List.append_eq_nil_iff.mp hnil
    simp at h
  obtain ⟨d, hd⟩ := List.exists_mem_of_ne_nil _ hothers
  have hpos : 0 < d.length := List.length_pos_iff.mpr (hne d (by
    rcases List.mem_append.mp hd with hd | hd <;> simp [hd]))
  have hle : d.length ≤ as.flatten.length + bs.flatten.length := by
    rw [← List.length_append, ← List.flatten_append]
    exact (List.sublist_flatten_of_mem hd).length_le
  simp only [List.flatten_append, List.flatten_cons, List.length_append]
  omega

/-- A reply without NUL bytes in several pieces, of which the last is in the buffer. -/
theorem not_reassembles_plain (hne : ∀ c ∈ chunks, c ≠ []) (hlen : ∀ c ∈ chunks, c.length < maxMsg)
    (h : 2 ≤ chunks.length) (hplain : 0 ∉ chunks.flatten) (hbuf : buf.length = maxMsg) :
    ¬ Reassembles chunks ending buf := by
  rw [reassembles_iff hlen]
  rintro ⟨-, hprefix⟩
  have hnil : chunks ≠ [] := by
    rintro rfl
    simp at h
  obtain ⟨cs, c, rfl⟩ := (List.eq_nil_or_concat' _).resolve_left hnil
  have hlast : c ++ [0] <+: (cs ++ [c]).foldl fill buf := foldl_fill_begins hlen hbuf
  have hlt : c.length < (cs ++ [c]).flatten.length := length_lt_flatten hne h (by simp)
  have hlen' : (c ++ [0]).length ≤ (cs ++ [c]).flatten.length := by
    rw [List.length_append]
    exact hlt
  -- the NUL behind the last piece would stand inside the reply
  have hinside : c ++ [0] <+: (cs ++ [c]).flatten :=
    List.prefix_of_prefix_length_le hlast ((List.prefix_append _ _).trans hprefix) hlen'
  exact hplain (hinside.subset (by simp))

/-- A reply that has not come in one piece, where the buffer has held something else. -/
theorem not_reassembles_ones (hne : ∀ c ∈ chunks, c ≠ []) (hlen : chunks.flatten.length < maxMsg)
    (h : chunks.length ≠ 1) : ¬ Reassembles chunks ending (List.replicate maxMsg 1) := by
  have hchunk : ∀ c ∈ chunks, c.length < maxMsg := fun c hc =>
    Nat.lt_of_le_of_lt (List.sublist_flatten_of_mem hc).length_le hlen
  rw [reassembles_iff hchunk]
  rintro ⟨-, hprefix⟩
  have hbehind : ∀ c ∈ chunks, c.length < chunks.flatten.length := by
    intro c hc
    have hpos := List.length_pos_of_mem hc
    exact length_lt_flatten hne (by omega) hc
  have hzero := List.prefix_iff_getElem?.mp hprefix chunks.flatten.length (by simp)
  rw [foldl_fill_get? hbehind, List.getElem?_replicate, if_pos hlen] at hzero
  simp at hzero

end Reply

/-- **Where `recvMsg` reassembles a reply** shorter than the buffer, which has come in non-empty
    pieces: whatever the buffer held, exactly when the reply has come in one piece and a timeout
    follows it; and for a reply without NUL bytes, in every single buffer. -/
theorem recvMsg_iff (chunks : List Bytes) (ending : Ending) (hne : ∀ c ∈ chunks, c ≠ [])
    (hlen : chunks.flatten.length < maxMsg) :
    ((∀ buf, buf.length = maxMsg → Reassembles chunks ending buf) ↔
      ending = .timeout ∧ chunks.length = 1) ∧
    (chunks ≠ [] → 0 ∉ chunks.flatten → ∀ buf, buf.length = maxMsg →
      (Reassembles chunks ending buf ↔ ending = .timeout ∧ chunks.length = 1)) := by
  have hchunk : ∀ c ∈ chunks, c.length < maxMsg := fun c hc =>
    Nat.lt_of_le_of_lt (List.sublist_flatten_of_mem hc).length_le hlen
  have hone : ending = .timeout ∧ chunks.length = 1 → ∀ buf, buf.length = maxMsg →
      Reassembles chunks ending buf := by
    rintro ⟨rfl, h⟩ buf hbuf
    obtain ⟨c, rfl⟩ := List.length_eq_one_iff.mp h
    exact reassembles_one (hchunk c (by simp)) hbuf
  have hend : ∀ {buf}, Reassembles chunks ending buf → ending = .timeout := fun h =>
    ((reassembles_iff hchunk).mp h).1
  constructor
  · refine ⟨fun h => ?_, hone⟩
    have hones := h (List.replicate maxMsg 1) List.length_replicate
    exact ⟨hend hones, not_not.mp fun hk => not_reassembles_ones hne hlen hk hones⟩
  · intro hnil hplain buf hbuf
    refine ⟨fun h => ⟨hend h, ?_⟩, fun h => hone h buf hbuf⟩
    by_contra hk
    have hpos := List.length_pos_iff.mpr hnil
    exact not_reassembles_plain hne hchunk (by omega) hplain hbuf h

/-- A board in one piece. -/
theorem recvMsg_iff_onePiece :
    Reassembles [ascii ". Q\nQ .\n"] .timeout (List.replicate maxMsg 0) := by
  have hiff := (recvMsg_iff [ascii ". Q\nQ .\n"] .timeout (by decide) (by decide)).2 (by decide)
    (by decide) (List.replicate maxMsg 0) List.length_replicate
  exact hiff.mpr ⟨rfl, rfl⟩

/-- In two pieces, the first row is lost; and a server that closes the connection after the board
    keeps the client in its loop. -/
theorem recvMsg_twoPieces :
    ¬ Reassembles [ascii ". Q\n", ascii "Q .\n"] .timeout (List.replicate maxMsg 0) ∧
    (∃ s buf', recvMsg 3 ⟨[ascii ". Q\n", ascii "Q .\n"], .timeout⟩ (List.replicate maxMsg 0) =
      some (buf', s) ∧ parseBoard buf' = [ascii "Q."]) ∧
    parseBoard (ascii ". Q\nQ .\n") = [ascii ".Q", ascii "Q."] ∧
    ∀ limit, recvMsg limit ⟨[ascii ". Q\nQ .\n"], .closed⟩ (List.replicate maxMsg 0) = none := by
  have hlen : ∀ c ∈ [ascii ". Q\n", ascii "Q .\n"], c.length < maxMsg := by decide
  have hbuf : (List.replicate maxMsg (0 : UInt8)).length = maxMsg := List.length_replicate
  refine ⟨not_reassembles_plain (by decide) hlen (by decide) (by decide) hbuf,
    ⟨_, _, recvMsg_timeout hlen (by decide) _, ?_⟩, by decide,
    fun limit => recvMsg_closed limit _ _⟩
  have hlast : ascii "Q .\n" ++ [0] <+:
      [ascii ". Q\n", ascii "Q .\n"].foldl fill (List.replicate maxMsg 0) :=
    (foldl_fill_begins hlen hbuf : _ <+: ([ascii ". Q\n"] ++ [ascii "Q .\n"]).foldl fill _)
  rw [parseBoard, cString_terminated hlast]
  decide

end InpLabs.Queen
