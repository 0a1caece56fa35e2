/-
  File:      InpLabs/Web/Encoded.lean
  Subject:   Percent-encoded paths and the files they name (homework1: server_https.c,
             utils_https.c).

  * `Encodes`: the encodings of a path that may stand in a request line;
  * `decodeLoop_encoded`, `request_encoded`: a request is decoded as a whole, before it is split;
  * `looksUp_request`: so the path ends at the first decoded space or question mark;
  * `encoded_iff`: the file of that name is looked for exactly when the path has neither;
    `encoded_space`: a path with a space.
-/
import InpLabs.Web.Decision

namespace InpLabs.Web

open InpLabs.Lib Pathname

/-! ## 1. Encodings -/

/-- The bytes that are escaped in a request target: the space, the control characters, `%`, `?`. -/
def escapedByte (c : UInt8) : Bool := c ≤ 32 || c == 127 || c == 37 || c == 63

/-- The path `p` is encoded as `e`. -/
inductive Encodes : Bytes → Bytes → Prop where
  | nil : Encodes [] []
  | literal {c : UInt8} {p e : Bytes} (hc : escapedByte c = false) (h : Encodes p e) :
      Encodes (c :: p) (c :: e)
  | escape {a b : UInt8} {p e : Bytes} (ha : isxdigit a = true) (hb : isxdigit b = true)
      (h : Encodes p e) : Encodes ((16 * hexValue a + hexValue b) :: p) (37 :: a :: b :: e)

section Decoding

variable {other : UInt8 → UInt8} {p e rest : Bytes}

theorem decodeLoop_cons {c : UInt8} (hc : c ≠ 37) :
    decodeLoop other (c :: rest) = other c :: decodeLoop other rest :=
  decodeLoop_literal fun h => absurd h hc

theorem decodeLoop_encoded (h : Encodes p e) :
    decodeLoop id (e ++ rest) = p ++ decodeLoop id rest := by
  induction h with
  | nil => rfl
  | literal hc h ih =>
    have hper : escapedByte 37 = true := by decide
    rw [List.cons_append, decodeLoop_cons (fun e => by rw [e, hper] at hc; cases hc), ih]
    rfl
  | escape ha hb h ih =>
    simp only [List.cons_append, decodeLoop, ha, hb, Bool.and_self, if_true, ih]

theorem ne_of_isxdigit {c : UInt8} (hc : isxdigit c = true) : (0 : UInt8) ≠ c := by
  rintro rfl
  exact absurd hc (by decide)

theorem Encodes.nul_free (h : Encodes p e) : (0 : UInt8) ∉ e := by
  induction h with
  | nil => exact List.not_mem_nil
  | literal hc h ih =>
    have h0 : escapedByte 0 = true := by decide
    exact List.not_mem_cons_of_ne_of_not_mem (fun e => by rw [← e, h0] at hc; cases hc) ih
  | escape ha hb h ih =>
    exact List.not_mem_cons_of_ne_of_not_mem (by decide) (List.not_mem_cons_of_ne_of_not_mem
      (ne_of_isxdigit ha) (List.not_mem_cons_of_ne_of_not_mem (ne_of_isxdigit hb) ih))

/-- A string goes on behind bytes that are no terminator. -/
theorem cString_append (h : (0 : UInt8) ∉ p) : cString (p ++ rest) = p ++ cString rest := by
  refine List.takeWhile_append_of_pos fun c hc => ?_
  simpa using fun e : c = 0 => h (e ▸ hc)

end Decoding

/-! ## 2. Requests -/

/-- The request for a target. -/
def getRequest (target : Bytes) : Bytes :=
  ascii "GET " ++ target ++ ascii " HTTP/1.0\r\n\r\n"

/-- The bytes that end the path of a request. -/
def endsPath (c : UInt8) : Bool := isspace c || c == 63

/-- While the connection is handled, this path is looked for first. -/
def LooksUp {α : Type} (x : Traced Call α) (path : Bytes) : Prop :=
  x.trace.head? = some (.stat path)

section Request

variable {p e : Bytes}

/-- The string that is handled: the decoded path, and then the byte that ended the encoded one. -/
theorem request_encoded (h : Encodes p e) (hnul : (0 : UInt8) ∉ p) {c : UInt8} (hc : c ≠ 0)
    (hper : c ≠ 37) (tail behind : Bytes) : ∃ rest,
      Program.https.request (ascii "GET " ++ (e ++ c :: tail)) behind =
        some (ascii "GET " ++ (p ++ c :: rest)) := by
  have hget : (0 : UInt8) ∉ ascii "GET " := by decide
  have hcons : ∀ l, cString (c :: l) = c :: cString l := fun l =>
    List.takeWhile_cons_of_pos (by simpa using hc)
  have hdecode : ∀ l, decodeLoop id (ascii "GET " ++ l) = ascii "GET " ++ decodeLoop id l :=
    fun l => rfl
  refine ⟨cString (decodeLoop id (cString (tail ++ behind))), ?_⟩
  unfold Program.request
  rw [if_neg (fun h => Program.noConfusion h.1)]
  simp only [Program.urlDecode, List.append_assoc, List.cons_append]
  rw [cString_append hget, cString_append h.nul_free, hcons, hdecode, decodeLoop_encoded h,
    decodeLoop_cons hper, cString_append hget, cString_append hnul]
  exact congrArg (fun l => some (ascii "GET " ++ (p ++ l))) (hcons _)

theorem looksUp_serve (t : FileTree) (f : Bytes) (hlen : f.length ≤ 255) (path : Bytes) :
    LooksUp (serve t f) path ↔ path = html ++ f := by
  have htrace : (serve t f).trace.head? = some (.stat (html ++ f)) := by
    rw [← fullPath_eq hlen]
    rfl
  unfold LooksUp
  rw [htrace, Option.some.injEq, Call.stat.injEq]
  exact eq_comm

/-- What is cut out of a request behind its method, where the path is followed by `c`. -/
theorem filePath_eq (hlen : p.length ≤ 255) {c : UInt8} (hc : endsPath c = true) (rest : Bytes) :
    extractFilePath (((p ++ c :: rest).takeWhile (!isspace ·)).take 255) =
      p.takeWhile (!endsPath ·) := by
  have hboth : ∀ l : Bytes, (l.takeWhile (!isspace ·)).takeWhile (· != 63) =
      l.takeWhile (!endsPath ·) := fun l => by
    rw [List.takeWhile_takeWhile]
    refine congrArg (List.takeWhile · l) (funext fun a => ?_)
    by_cases hmark : a = 63
    · rw [hmark]
      decide
    · simp [endsPath, hmark]
  have hend : (p ++ c :: rest).takeWhile (!endsPath ·) = p.takeWhile (!endsPath ·) :=
    takeWhile_append_cons (by rw [hc, Bool.not_true]) p rest
  unfold extractFilePath
  rw [← List.take_takeWhile, hboth, hend]
  exact List.take_of_length_le ((List.takeWhile_prefix _).length_le.trans hlen)

/-- **The path that is looked for**: the decoded one up to its first space or question mark. -/
theorem looksUp_request (h : Encodes p e) (hnul : (0 : UInt8) ∉ p) (hslash : p.head? = some slash)
    (hlen : p.length ≤ 255) {c : UInt8} (hc : endsPath c = true) (tail behind : Bytes)
    (t : FileTree) (arrays : Arrays) (path : Bytes) :
    LooksUp (handleClient .https t arrays (ascii "GET " ++ (e ++ c :: tail)) behind) path ↔
      path = html ++ p.takeWhile (!endsPath ·) := by
  have h0 : c ≠ 0 := fun e => absurd (e ▸ hc) (by decide : ¬ endsPath 0 = true)
  have h37 : c ≠ 37 := fun e => absurd (e ▸ hc) (by decide : ¬ endsPath 37 = true)
  obtain ⟨rest, hrequest⟩ := request_encoded h hnul h0 h37 tail behind
  obtain ⟨q, rfl⟩ := List.head?_eq_some_iff.mp hslash
  have hget : tokenize (ascii "GET " ++ (slash :: q ++ c :: rest)) =
      ascii "GET" :: tokenize (slash :: q ++ c :: rest) :=
    words_append_cons (w := ascii "GET") (isspace_of_all (by decide)) (by decide) (by decide) _
  have hpath : tokenize (slash :: q ++ c :: rest) =
      (slash :: q ++ c :: rest).takeWhile (!isspace ·) ::
        tokenize ((slash :: q ++ c :: rest).dropWhile (!isspace ·)) := words_of_neg (by decide) _
  rw [hpath] at hget
  rw [handleClient_some hrequest]
  unfold LooksUp handleHTTPRequest
  dsimp only
  rw [scan_method hget, scan_path hget (by decide), if_neg (by decide), filePath_eq hlen hc]
  exact looksUp_serve t _ ((List.takeWhile_prefix _).length_le.trans hlen) path

end Request

/-! ## 3. Every encoded path -/

/-- The server looks for the file that the path `p`, encoded as `e`, names, and for the same one if
a query is appended. Whatever the buffer and the arrays held before plays no part. -/
def Resolves (p e : Bytes) : Prop :=
  ∀ (t : FileTree) (arrays : Arrays) (behind : Bytes),
    LooksUp (handleClient .https t arrays (getRequest e) behind) (html ++ p) ∧
    ∀ (query path : Bytes), (getRequest (e ++ 63 :: query)).length ≤ 1023 →
      (LooksUp (handleClient .https t arrays (getRequest (e ++ 63 :: query)) behind) path ↔
        LooksUp (handleClient .https t arrays (getRequest e) behind) path)

section Encoded

variable {p e : Bytes}

/-- **Encoded paths**: of the paths that fit the request and the array, exactly those without white
space and without a question mark are looked for under their own name. -/
theorem encoded_iff (he : Encodes p e) (hslash : p.head? = some slash) (hnul : (0 : UInt8) ∉ p)
    (hlen : p.length ≤ 255) (_ : (getRequest e).length ≤ 1023) :
    Resolves p e ↔ ∀ c ∈ p, isspace c = false ∧ c ≠ 63 := by
  have hplain : getRequest e = ascii "GET " ++ (e ++ 32 :: ascii "HTTP/1.0\r\n\r\n") := by
    unfold getRequest
    rw [List.append_assoc]
    rfl
  have hquery : ∀ query, getRequest (e ++ 63 :: query) =
      ascii "GET " ++ (e ++ 63 :: (query ++ ascii " HTTP/1.0\r\n\r\n")) := fun query => by
    unfold getRequest
    simp only [List.append_assoc, List.cons_append]
  unfold Resolves
  simp only [hplain, hquery]
  have hlook : ∀ {c : UInt8}, endsPath c = true → ∀ tail behind t arrays path,
      LooksUp (handleClient .https t arrays (ascii "GET " ++ (e ++ c :: tail)) behind) path ↔
        path = html ++ p.takeWhile (!endsPath ·) :=
    fun hc tail behind t arrays path =>
      looksUp_request he hnul hslash hlen hc tail behind t arrays path
  simp only [hlook (by decide : endsPath 32 = true), hlook (by decide : endsPath 63 = true),
    implies_true, and_true]
  constructor
  · intro h c hc
    have heq := List.append_cancel_left (h emptyTree ⟨[], []⟩ [])
    rw [heq] at hc
    have hstop := List.mem_takeWhile_imp hc
    simpa [endsPath] using hstop
  · intro h t arrays behind
    congr 1
    refine (List.takeWhile_eq_self_iff.mpr fun c hc => ?_).symm
    simpa [endsPath] using h c hc

end Encoded

/-- A path with an escaped `@` and a literal `+`. -/
theorem encoded_at : Resolves (ascii "/@+") (ascii "/%40+") := by
  have hp : ascii "/@+" = [47, 16 * hexValue 52 + hexValue 48, 43] := by decide
  have he : ascii "/%40+" = [47, 37, 52, 48, 43] := by decide
  have henc : Encodes (ascii "/@+") (ascii "/%40+") := by
    rw [hp, he]
    exact .literal rfl (.escape rfl rfl (.literal rfl .nil))
  have hplain : (ascii "/@+").all (fun c => !isspace c && c != 63) = true := by decide
  exact (encoded_iff henc (by decide) (by decide) (by decide) (by decide)).mpr
    (by simpa using hplain)

/-- **A path with a space** is looked for up to the space. -/
theorem encoded_space :
    Encodes (ascii "/a b") (ascii "/a%20b") ∧ ¬ Resolves (ascii "/a b") (ascii "/a%20b") := by
  have hp : ascii "/a b" = [47, 97, 16 * hexValue 50 + hexValue 48, 98] := by decide
  have he : ascii "/a%20b" = [47, 97, 37, 50, 48, 98] := by decide
  constructor
  · rw [hp, he]
    exact .literal rfl (.literal rfl (.escape rfl rfl (.literal rfl .nil)))
  · intro h
    have hlook := (h emptyTree ⟨[], []⟩ [0]).1
    unfold LooksUp at hlook
    exact absurd hlook (by decide)

end InpLabs.Web
