/-
  File:      InpLabs/Web/Isolation.lean
  Subject:   What of its own memory a server reads when it handles a request (homework1: server.c,
             server_https.c and their utils).

  * `Residue`: what stands in the buffer, behind it and in the two arrays before a request arrives;
  * `asked`: what a decoded request asks for, if it names a method and, for `GET`, a path;
    `handle_asked`, `not_asked`: exactly then the arrays play no part;
  * `isolation_iff`: a response is a function of the bytes received exactly when a terminator is
    among them and they ask for something; `stale_request`: a request that is not terminated.
-/
import InpLabs.Web.Decision

namespace InpLabs.Web

open InpLabs.Lib Pathname

/-! ## 1. What is in memory before -/

/-- `BUFFER_SIZE` -/
def bufferSize : Nat := 1024

/-- The memory that a request meets. -/
structure Residue where
  buffer : Bytes
  full : buffer.length = bufferSize
  beyond : Bytes
  arrays : Arrays

/-- The buffer once the received bytes stand at its start. -/
def Residue.received (m : Residue) (received : Bytes) : Bytes :=
  received ++ m.buffer.drop received.length

/-- What stands behind the received bytes. -/
def Residue.behind (m : Residue) (received : Bytes) : Bytes :=
  m.buffer.drop received.length ++ m.beyond

/-- The bytes of the response, if all of it is defined. -/
def responseBytes (program : Program) (t : FileTree) (m : Residue) (received : Bytes) :
    Option Bytes :=
  (handleClient program t m.arrays received (m.behind received)).result.map fun r =>
    r.elim [] sendHTTPResponse

/-! ## 2. What a request asks for -/

/-- A request with another method than `GET` asks for nothing, one with a path for its file. -/
def asked (request : Bytes) : Option (Option Bytes) :=
  match tokenize request with
  | [] => none
  | method :: ws =>
    if method ≠ ascii "GET" then some none
    else ws.head?.map fun path => some (extractFilePath (path.take 255))

/-- What is answered to it. -/
def answer (t : FileTree) : Option Bytes → Traced Call HttpResponse
  | none => pure get501Response
  | some filePath => serve t filePath

section Asked

variable {t : FileTree} {arrays : Arrays} {request : Bytes}

/-- What asks for something: another method than `GET`, or `GET` with a path. -/
theorem asked_some {x : Option Bytes} (h : asked request = some x) :
    (x = none ∧ ∃ method ws, tokenize request = method :: ws ∧ method ≠ ascii "GET") ∨
      ∃ path ws, tokenize request = ascii "GET" :: path :: ws ∧
        x = some (extractFilePath (path.take 255)) := by
  unfold asked at h
  cases hwords : tokenize request with
  | nil =>
    rw [hwords] at h
    cases h
  | cons method ws =>
    rw [hwords] at h
    dsimp only at h
    by_cases hget : method = ascii "GET"
    · subst hget
      rw [if_neg (not_not.mpr rfl)] at h
      cases ws with
      | nil => cases h
      | cons path ws =>
        cases h
        exact .inr ⟨path, ws, rfl, rfl⟩
    · rw [if_pos hget] at h
      cases h
      exact .inl ⟨rfl, method, ws, rfl, hget⟩

/-- What asks for nothing: white space, or `GET` alone. -/
theorem asked_none (h : asked request = none) :
    tokenize request = [] ∨ tokenize request = [ascii "GET"] := by
  unfold asked at h
  cases hwords : tokenize request with
  | nil => exact .inl rfl
  | cons method ws =>
    rw [hwords] at h
    dsimp only at h
    by_cases hget : method = ascii "GET"
    · subst hget
      rw [if_neg (not_not.mpr rfl)] at h
      obtain rfl : ws = [] := by simpa using h
      exact .inr rfl
    · rw [if_pos hget] at h
      cases h

/-- A request that asks for something is handled without a look at the arrays. -/
theorem handle_asked {x : Option Bytes} (h : asked request = some x) :
    handleHTTPRequest t arrays request = answer t x := by
  unfold handleHTTPRequest
  dsimp only
  rcases asked_some h with ⟨rfl, method, ws, hwords, hget⟩ | ⟨path, ws, hwords, rfl⟩
  · rw [scan_method hwords, if_pos (mt take_eq_get.mp hget)]
    rfl
  · rw [scan_method hwords, if_neg (not_not.mpr (take_eq_get.mpr rfl)),
      scan_path hwords (by decide)]
    rfl

/-- A request of white space assigns nothing. -/
theorem scan_nil (h : tokenize request = []) :
    scan arrays request = (arrays.method, arrays.path) := by
  unfold scan
  dsimp only
  rw [if_pos (dropWhile_eq_nil h)]

/-- A request that is a single word assigns no path. -/
theorem scan_get (h : tokenize request = [ascii "GET"]) :
    scan arrays request = (ascii "GET", arrays.path) := by
  obtain ⟨hfirst, hrest⟩ := words_eq_cons h
  have htake : (ascii "GET").take 9 = ascii "GET" := by decide
  unfold scan
  dsimp only
  rw [if_neg (dropWhile_ne_nil h), hfirst, htake, if_pos (dropWhile_eq_nil hrest)]

/-- Otherwise the method or the path is what its array held before. -/
theorem not_asked (h : asked request = none) :
    (∀ arrays, handleHTTPRequest t arrays request = if arrays.method ≠ ascii "GET" then
      pure get501Response else serve t (extractFilePath arrays.path)) ∨
    ∀ arrays, handleHTTPRequest t arrays request = serve t (extractFilePath arrays.path) := by
  unfold handleHTTPRequest
  dsimp only
  rcases asked_none h with hwords | hwords
  · refine .inl fun arrays => ?_
    rw [scan_nil hwords]
  · refine .inr fun arrays => ?_
    rw [scan_get hwords, if_neg (not_not.mpr rfl)]

end Asked

/-! ## 3. A tree that tells requests apart -/

/-- Whatever is looked for is a directory. -/
abbrev everything : FileTree where
  Node := Unit
  entry _ := .dir fun _ => some ()
  cwd := ()

section Everything

variable {f : Bytes}

theorem everything_find (path : Bytes) : everything.find path = some everything.cwd := by
  have hstep : ∀ c, everything.step everything.cwd c = some everything.cwd := fun c => ite_self _
  have hwalk : ∀ cs, everything.walk everything.cwd cs = some everything.cwd := by
    intro cs
    induction cs with
    | nil => rfl
    | cons c cs ih => rw [FileTree.walk_cons, hstep, Option.bind_some, ih]
  exact hwalk _

/-- A path without a slash at its end is redirected. -/
theorem everything_moved (hlen : f.length ≤ 255) (hslash : f.getLast? ≠ some slash) :
    (serve everything f).result = some (get301Response f) := by
  have hlast : (html ++ f).getLast? ≠ some slash := by
    rw [List.getLast?_append]
    cases hf : f.getLast? with
    | none => decide
    | some c =>
      rw [hf] at hslash
      exact hslash
  rw [serve_result, fullPath_eq hlen]
  unfold FileTree.entryAt
  rw [everything_find]
  exact if_pos hlast

end Everything

/-! ## 4. Isolation -/

/-- What is handled ends in the buffer, and the response does not depend on what was in memory. -/
def Isolated (program : Program) (received : Bytes) : Prop :=
  (∀ m : Residue, program.request received (m.behind received) ≠ none → 0 ∈ m.received received) ∧
  ∀ (t : FileTree) (m m' : Residue),
    responseBytes program t m received = responseBytes program t m' received

section Isolation

variable {program : Program} {t : FileTree} {received : Bytes}

/-- The string that is handled, where a terminator was received. -/
theorem request_terminated (h : (0 : UInt8) ∈ received) (behind : Bytes) :
    program.request received behind =
      some (cString (program.urlDecode (cString received))) := by
  have hcut : cString (received ++ behind) = cString received :=
    takeWhile_append_of_mem h (by decide) behind
  unfold Program.request
  rw [if_neg (fun hnil => List.ne_nil_of_mem h hnil.2), hcut]

theorem responseBytes_request {m : Residue} {request : Bytes}
    (h : program.request received (m.behind received) = some request) :
    responseBytes program t m received =
      (handleHTTPRequest t m.arrays request).result.map sendHTTPResponse := by
  unfold responseBytes
  rw [handleClient_some h, Option.map_map]
  rfl

/-- A buffer that holds a string and zeros. -/
def Residue.holding (string : Bytes) (arrays : Arrays) : Residue where
  buffer := (string ++ List.replicate bufferSize 0).take bufferSize
  full := by rw [List.length_take, List.length_append, List.length_replicate]; omega
  beyond := []
  arrays := arrays

/-- Where the request asks for nothing in particular, two contents of the arrays are told apart. -/
theorem residue_shows {request : Bytes} (h : asked request = none) :
    ∃ (a b : Arrays) (r r' : HttpResponse),
      (handleHTTPRequest everything a request).result = some r ∧
      (handleHTTPRequest everything b request).result = some r' ∧
      (r, r') ∈ [(get301Response [], get501Response),
        (get301Response [], get301Response (ascii "x"))] := by
  have hroot : (serve everything []).result = some (get301Response []) :=
    everything_moved (by decide) (by decide)
  have hx : (serve everything (ascii "x")).result = some (get301Response (ascii "x")) :=
    everything_moved (by decide) (by decide)
  rcases not_asked (t := everything) h with harrays | harrays
  · refine ⟨⟨ascii "GET", []⟩, ⟨[], []⟩, _, get501Response, ?_, ?_, List.mem_cons_self⟩
    · rw [harrays, if_neg (not_not.mpr rfl)]
      exact hroot
    · rw [harrays, if_pos (by decide)]
      rfl
  · refine ⟨⟨[], []⟩, ⟨[], ascii "x"⟩, _, _, ?_, ?_, List.mem_cons_of_mem _ List.mem_cons_self⟩
    · rw [harrays]
      exact hroot
    · rw [harrays]
      exact hx

/-- **Isolation**: what was in memory before plays no part exactly when nothing is handled, or when
a terminator was received and the request before it asks for something. -/
theorem isolation_iff (program : Program) {received : Bytes} (_ : received.length ≤ bufferSize) :
    Isolated program received ↔ (program = .plain ∧ received = []) ∨
      ((0 : UInt8) ∈ received ∧
        asked (cString (program.urlDecode (cString received))) ≠ none) := by
  constructor
  · intro ⟨hterm, hsame⟩
    by_cases hclosed : program = .plain ∧ received = []
    · exact .inl hclosed
    have hzero : (0 : UInt8) ∈ received := by
      let m : Residue := ⟨List.replicate bufferSize 1, List.length_replicate, [], ⟨[], []⟩⟩
      have hhandled : program.request received (m.behind received) ≠ none := by
        unfold Program.request
        rw [if_neg hclosed]
        exact Option.some_ne_none _
      rcases List.mem_append.mp (hterm m hhandled) with h | h
      · exact h
      · exact absurd (List.eq_of_mem_replicate (List.mem_of_mem_drop h)) (by decide)
    refine .inr ⟨hzero, fun hnone => ?_⟩
    obtain ⟨a, b, r, r', ha, hb, hr⟩ := residue_shows hnone
    have heq := hsame everything (.holding [] a) (.holding [] b)
    rw [responseBytes_request (request_terminated hzero _),
      responseBytes_request (request_terminated hzero _)] at heq
    replace heq := (congrArg (Option.map sendHTTPResponse) ha).symm.trans
      (heq.trans (congrArg (Option.map sendHTTPResponse) hb))
    have hall : ∀ q ∈ [(get301Response [], get501Response),
        (get301Response [], get301Response (ascii "x"))],
        sendHTTPResponse q.1 ≠ sendHTTPResponse q.2 := by decide
    exact hall _ hr (Option.some.inj heq)
  · rintro (⟨rfl, rfl⟩ | ⟨hzero, hasked⟩)
    · exact ⟨fun m hhandled => absurd rfl hhandled, fun t m m' => rfl⟩
    · obtain ⟨x, hx⟩ := Option.ne_none_iff_exists'.mp hasked
      refine ⟨fun m _ => List.mem_append_left _ hzero, fun t m m' => ?_⟩
      rw [responseBytes_request (request_terminated hzero _),
        responseBytes_request (request_terminated hzero _), handle_asked hx, handle_asked hx]

end Isolation

/-- A request with a terminator behind it. -/
theorem isolation_terminated :
    Isolated .https (ascii "GET / HTTP/1.0\r\n\r\n" ++ [0]) :=
  (isolation_iff .https (by decide)).mpr (.inr (by decide))

/-- **A short request** is continued by what an earlier one left in the buffer. -/
theorem stale_request : ¬ Isolated .https (ascii "GET /a") := by
  intro ⟨_, hsame⟩
  have hzeros : Program.https.request (ascii "GET /a")
      ((Residue.holding [] ⟨[], []⟩).behind (ascii "GET /a")) = some (ascii "GET /a") := by decide
  have hstale : Program.https.request (ascii "GET /a")
      ((Residue.holding (ascii "GET /ab") ⟨[], []⟩).behind (ascii "GET /a")) =
        some (ascii "GET /ab") := by decide
  have heq := hsame everything (.holding [] ⟨[], []⟩) (.holding (ascii "GET /ab") ⟨[], []⟩)
  rw [responseBytes_request hzeros, responseBytes_request hstale] at heq
  exact absurd heq (by decide)

end InpLabs.Web
