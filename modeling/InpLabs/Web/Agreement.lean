/-
  File:      InpLabs/Web/Agreement.lean
  Subject:   The plain server and the TLS-capable one, on the same request (homework1: server.c and
             utils.c, server_https.c and utils_https.c).

  * `Writer`, `sent`: the calls that send a response, in `utils.c` and in the two branches of
    `utils_https.c`; `calls_flatten`: the bytes are the same;
  * `answers_differ`: two different things that a request can be taken to ask for are answered
    differently for some file tree;
  * `agreement_iff`: the servers agree exactly on the requests that ask both of them for the same;
    `plus_request`: a path with a plus sign.
-/
import InpLabs.Web.Headers
import InpLabs.Web.Plus

namespace InpLabs.Web

open InpLabs.Lib Pathname

/-! ## 1. Sending a response -/

/-- The calls that write a response: `dprintf` and `write` in `utils.c`, twice `write`, or twice
`SSL_write`, in `utils_https.c`. -/
inductive Writer where
  | dprintf
  | write
  | sslWrite
  deriving DecidableEq

/-- `dprintf(client_fd, "%s", header)` stops at a terminator; `SSL_write` of nothing sends
nothing. -/
def Writer.calls (writer : Writer) (r : HttpResponse) : List Bytes :=
  let content := if r.statusCode = 301 then [] else [r.content.take r.contentLength]
  match writer with
  | .dprintf => cString (formatHeader r) :: content
  | .write => formatHeader r :: content
  | .sslWrite => (formatHeader r :: content).filter (· ≠ [])

/-- The bytes a client of the program gets, where its request is the given one and a terminator and
other bytes stand behind it in the buffer. -/
def sent (program : Program) (writer : Writer) (t : FileTree) (arrays : Arrays)
    (request rest : Bytes) : Option Bytes :=
  (handleClient program t arrays request (0 :: rest)).result.map fun r =>
    r.elim [] fun r => (writer.calls r).flatten

section Writers

variable {r : HttpResponse}

theorem sendHTTPResponse_eq (r : HttpResponse) : sendHTTPResponse r =
    formatHeader r ++ if r.statusCode = 301 then [] else r.content.take r.contentLength := by
  unfold sendHTTPResponse formatHeader
  dsimp only
  split
  · rw [List.append_nil]
  · rfl

/-- **All writers send the same**, as long as the header holds no terminator. -/
theorem calls_flatten (writer : Writer) (h : (0 : UInt8) ∉ formatHeader r) :
    (writer.calls r).flatten = sendHTTPResponse r := by
  have hcstring : cString (formatHeader r) = formatHeader r := by
    rw [← List.append_nil (formatHeader r), cString_append h]
    rfl
  rw [sendHTTPResponse_eq]
  unfold Writer.calls
  cases writer with
  | dprintf =>
    dsimp only
    rw [hcstring, List.flatten_cons]
    split <;> simp
  | write =>
    dsimp only
    rw [List.flatten_cons]
    split <;> simp
  | sslWrite =>
    dsimp only
    rw [List.flatten_filter_ne_nil, List.flatten_cons]
    split <;> simp

/-- A header holds no terminator, where the strings in it hold none. -/
theorem header_nul_free (hr : r.Free 0) : (0 : UInt8) ∉ formatHeader r := by
  rw [formatHeader_lines]
  exact headerSection_free (by decide) (headerLines_free (by decide) (by decide) hr)

end Writers

/-! ## 2. Answers -/

section Answers

variable {t : FileTree} {f request : Bytes} {x : Option Bytes} {r : HttpResponse}

/-- The header of an answer holds no terminator, if the path that was asked for holds none. -/
theorem answer_nul_free (hx : ∀ f, x = some f → (0 : UInt8) ∉ f)
    (h : (answer t x).result = some r) : (0 : UInt8) ∉ formatHeader r :=
  header_nul_free (answer_free (by decide) hx h)

/-- The string that a program handles. -/
def Program.decoded (program : Program) (request : Bytes) : Bytes :=
  cString (program.urlDecode (cString request))

/-- A request for a file has the method `GET` and a path. -/
theorem asked_get (h : asked request = some (some f)) :
    ∃ path ws, tokenize request = ascii "GET" :: path :: ws ∧ f = filePath path := by
  rcases asked_some h with ⟨hnone, -⟩ | ⟨path, ws, hwords, hf⟩
  · cases hnone
  · exact ⟨path, ws, hwords, Option.some.inj hf⟩

theorem asked_nul_free (h : asked (cString request) = some (some f)) : (0 : UInt8) ∉ f := by
  obtain ⟨path, ws, hwords, rfl⟩ := asked_get h
  intro hmem
  have hword : path ∈ tokenize (cString request) := by
    rw [hwords]
    exact List.mem_cons_of_mem _ List.mem_cons_self
  have hbyte := mem_of_mem_words hword ((filePath_initial path).subset hmem)
  exact absurd (List.mem_takeWhile_imp hbyte) (by decide)

/-- A request with a terminator behind it is handled as it is. -/
theorem request_nul (program : Program) (hne : request ≠ []) (rest : Bytes) :
    program.request request (0 :: rest) = some (program.decoded request) := by
  have hcut : cString (request ++ 0 :: rest) = cString request :=
    takeWhile_append_cons (by decide) request rest
  unfold Program.request
  rw [if_neg fun h => hne h.2, hcut]
  rfl

theorem sent_request {program : Program} {writer : Writer} (hne : request ≠ []) (arrays : Arrays)
    (rest : Bytes) : sent program writer t arrays request rest =
      (handleHTTPRequest t arrays (program.decoded request)).result.map fun r =>
        (writer.calls r).flatten := by
  unfold sent
  rw [handleClient_some (request_nul program hne rest), Option.map_map]
  rfl

/-- What is sent to a client whose request asks for something. -/
theorem sent_asked {program : Program} {writer : Writer} (hne : request ≠ [])
    (h : asked (program.decoded request) = some x) (arrays : Arrays) (rest : Bytes) :
    sent program writer t arrays request rest = (answer t x).result.map sendHTTPResponse := by
  rw [sent_request hne, handle_asked h]
  cases hr : (answer t x).result with
  | none => rfl
  | some r =>
    have hfree : (0 : UInt8) ∉ formatHeader r := by
      refine answer_nul_free (fun f hf => ?_) hr
      subst hf
      exact asked_nul_free h
    exact congrArg some (calls_flatten writer hfree)

end Answers

/-! ## 3. Answers that differ -/

/-- The codes of all responses. -/
def codes : List Nat := [200, 301, 403, 404, 501]

/-- In every tree the two requests get the same bytes. -/
def SameAnswer (x y : Option Bytes) : Prop :=
  ∀ t, (answer t x).result.map sendHTTPResponse = (answer t y).result.map sendHTTPResponse

section Differ

variable {t : FileTree} {f g p q u : Bytes} {x y : Option Bytes} {r r' : HttpResponse}

/-- The code stands in the first bytes of a response. -/
theorem status_eq (hr : r.statusCode ∈ codes) (hr' : r'.statusCode ∈ codes)
    (h : sendHTTPResponse r = sendHTTPResponse r') : r.statusCode = r'.statusCode := by
  have htake : ∀ r : HttpResponse, r.statusCode ∈ codes → (sendHTTPResponse r).take 12 =
      ascii "HTTP/1.0 " ++ ascii (toString r.statusCode) := by
    intro r hr
    unfold sendHTTPResponse
    simp only [codes, List.mem_cons, List.not_mem_nil, or_false] at hr
    rcases hr with hr | hr | hr | hr | hr <;> rw [hr] <;> rfl
  have hcodes : ∀ c ∈ codes, ∀ c' ∈ codes, ascii (toString c) = ascii (toString c') → c = c' := by
    decide
  have hfirst := (htake r hr).symm.trans ((congrArg (List.take 12) h).trans (htake r' hr'))
  exact hcodes _ hr _ hr' (List.append_cancel_left hfirst)

/-- Answers with two codes are not the same. -/
theorem not_sameAnswer (hx : (answer t x).result = some r) (hy : (answer t y).result = some r')
    (hr : r.statusCode ∈ codes) (hr' : r'.statusCode ∈ codes) (hne : r.statusCode ≠ r'.statusCode) :
    ¬ SameAnswer x y := by
  intro h
  have hbytes := h t
  rw [hx, hy] at hbytes
  exact hne (status_eq hr hr' (Option.some.inj hbytes))

/-- The path can be read off a redirection. -/
theorem moved_inj (h : sendHTTPResponse (get301Response f) = sendHTTPResponse (get301Response g)) :
    f = g := by
  unfold sendHTTPResponse get301Response at h
  dsimp only at h
  rw [if_pos rfl, if_pos rfl] at h
  have hlocation := List.append_cancel_right (List.append_cancel_right h)
  exact List.append_cancel_right (List.append_cancel_left hlocation)

/-- A directory with a slash at its end, and an index, is answered with a page. -/
theorem directory_served (hlen : f.length ≤ 255) (hf : f.getLast? = some slash)
    {lookup : Bytes → Option t.Node} (hdir : t.entryAt (html ++ f) = some (.dir lookup))
    (hindex : (t.find (html ++ f ++ index)).isSome) :
    ∃ r, (serve t f).result = some r ∧ r.statusCode = 200 := by
  obtain ⟨g, rfl⟩ := List.getLast?_eq_some_iff.mp hf
  have hlast : (html ++ (g ++ [slash])).getLast? = some slash := by
    rw [List.getLast?_append_of_ne_nil html (List.concat_ne_nil slash g)]
    exact hf
  obtain ⟨n, hn⟩ := Option.isSome_iff_exists.mp hindex
  have hentry : t.entryAt (html ++ (g ++ [slash]) ++ index) = some (t.entry n) := by
    unfold FileTree.entryAt
    rw [hn]
    rfl
  obtain ⟨r, hr, hcode, -⟩ := get200Response_dir hdir hentry
  refine ⟨r, ?_, hcode⟩
  have hfull := fullPath_eq hlen
  rw [serve_result, hfull, hdir]
  dsimp only
  rw [if_neg (not_not.mpr hlast), find_indexPath g (hfull ▸ fullPath_length _), hn, hr]
  rfl

/-- Without the one or the other there is no page. -/
theorem directory_refused (hlen : f.length ≤ 255) (hf : f.getLast? = some slash)
    (hindex : t.find (html ++ f ++ index) = none) :
    ∃ r, (serve t f).result = some r ∧ r.statusCode ∈ [403, 404] := by
  obtain ⟨g, rfl⟩ := List.getLast?_eq_some_iff.mp hf
  have hlast : (html ++ (g ++ [slash])).getLast? = some slash := by
    rw [List.getLast?_append_of_ne_nil html (List.concat_ne_nil slash g)]
    exact hf
  have hfull := fullPath_eq hlen
  rw [serve_result, hfull]
  cases hentry : t.entryAt (html ++ (g ++ [slash])) with
  | none => exact ⟨_, rfl, by decide⟩
  | some e =>
    have hdir : t.entryAt (html ++ g ++ [slash]) = some e := by
      rw [List.append_assoc]
      exact hentry
    obtain ⟨lookup, rfl⟩ := FileTree.entryAt_slash hdir
    dsimp only
    rw [if_neg (not_not.mpr hlast), find_indexPath g (hfull ▸ fullPath_length _), hindex]
    exact ⟨_, rfl, by decide⟩

/-- The names on the way to an index. -/
theorem names_index (hf : f.getLast? = some slash) :
    names (html ++ f ++ index) = names (html ++ f) ++ [index] := by
  obtain ⟨g, rfl⟩ := List.getLast?_eq_some_iff.mp hf
  have hlong : html ++ (g ++ [slash]) ++ index = (html ++ g) ++ slash :: index := by simp
  have hshort : html ++ (g ++ [slash]) = (html ++ g) ++ slash :: [] := by simp
  have hnil : names [] = [] := rfl
  have hname : names index = [index] := by decide
  rw [hlong, hshort, names_append, names_append, hnil, hname, List.append_nil]

/-- With a slash at its end every path is answered with a page. -/
theorem everything_served (hlen : f.length ≤ 255) (hf : f.getLast? = some slash) :
    ∃ r, (serve everything f).result = some r ∧ r.statusCode = 200 := by
  have hdir : everything.entryAt (html ++ f) = some (.dir fun _ => some ()) := by
    unfold FileTree.entryAt
    rw [everything_find]
    rfl
  exact directory_served hlen hf hdir (by rw [everything_find]; rfl)

/-- On the way to an index there is a page for its directory. -/
theorem chain_served (hlen : f.length ≤ 255) (hf : f.getLast? = some slash) :
    ∃ r, (serve (FileTree.chain (names (html ++ f) ++ [index])) f).result = some r ∧
      r.statusCode = 200 := by
  have hdir : (FileTree.chain (names (html ++ f) ++ [index])).entryAt (html ++ f) =
      some ((FileTree.chain (names (html ++ f) ++ [index])).entry (names (html ++ f))) := by
    unfold FileTree.entryAt
    rw [FileTree.chain_find, if_pos (List.prefix_append _ _)]
    rfl
  refine directory_served hlen hf hdir ?_
  rw [FileTree.chain_find, names_index hf, if_pos List.prefix_rfl]
  rfl

/-- Any other code is told from a redirection. -/
theorem other_than_moved (hlen : f.length ≤ 255) (hf : f.getLast? ≠ some slash)
    (hx : (answer everything x).result = some r) (hr : r.statusCode ∈ codes)
    (hne : r.statusCode ≠ 301) : ¬ SameAnswer x (some f) := by
  have hmoved : (answer everything (some f)).result = some (get301Response f) :=
    everything_moved hlen hf
  have hcode : (get301Response f).statusCode = 301 := rfl
  exact not_sameAnswer hx hmoved hr (by rw [hcode]; decide) (by rw [hcode]; exact hne)

/-- **Two paths are answered differently** in some tree, if one of them is the other with spaces for
plus signs. -/
theorem paths_differ {k : Nat} (hq : q = List.replicate k 43 ++ u)
    (hu : u = [] ∨ u = p ∨ ∃ z, u = p ++ 43 :: z) (hne : filePath p ≠ filePath q) :
    ¬ SameAnswer (some (filePath p)) (some (filePath q)) := by
  have hplen := filePath_length p
  have hqlen := filePath_length q
  by_cases hp : (filePath p).getLast? = some slash <;>
    by_cases hslash : (filePath q).getLast? = some slash
  · -- two directories: only the first one is on the way to its index
    obtain ⟨r, hr, hcode⟩ := chain_served hplen hp
    have hnone : (FileTree.chain (names (html ++ filePath p) ++ [index])).find
        (html ++ filePath q ++ index) = none := by
      rw [FileTree.chain_find, names_index hslash, if_neg (names_differ hq hu hne hp hslash)]
    obtain ⟨r', hr', hcode'⟩ := directory_refused hqlen hslash hnone
    refine not_sameAnswer hr hr' (by rw [hcode]; decide) ?_ ?_
    · exact (by decide : ∀ c ∈ [403, 404], c ∈ codes) _ hcode'
    · rw [hcode]
      exact (by decide : ∀ c ∈ [403, 404], 200 ≠ c) _ hcode'
  · obtain ⟨r, hr, hcode⟩ := everything_served hplen hp
    exact other_than_moved hqlen hslash hr (hcode ▸ by decide) (hcode ▸ by decide)
  · obtain ⟨r, hr, hcode⟩ := everything_served hqlen hslash
    have hr' : (answer everything (some (filePath q))).result = some r := hr
    intro h
    exact other_than_moved hplen hp hr' (hcode ▸ by decide) (hcode ▸ by decide) fun t => (h t).symm
  · -- two redirections
    intro h
    have hbytes := h everything
    have hp' : (answer everything (some (filePath p))).result = _ := everything_moved hplen hp
    have hq' : (answer everything (some (filePath q))).result = _ := everything_moved hqlen hslash
    rw [hp', hq'] at hbytes
    exact hne (moved_inj (Option.some.inj hbytes))

/-- A method other than `GET` is told from every path. -/
theorem method_differs (hlen : f.length ≤ 255) : ¬ SameAnswer none (some f) := by
  have hnone : (answer everything none).result = some get501Response := rfl
  by_cases hf : f.getLast? = some slash
  · obtain ⟨r, hr, hcode⟩ := everything_served hlen hf
    exact not_sameAnswer hnone hr (by decide) (by rw [hcode]; decide) (by rw [hcode]; decide)
  · exact other_than_moved hlen hf hnone (by decide) (by decide)

end Differ

/-! ## 4. Agreement -/

/-- The two programs send the same, each of them whatever its memory holds, and the second one both
to a plain client and to one behind TLS. -/
def Agree (request : Bytes) : Prop :=
  ∀ (t : FileTree) (arrays arrays' : Arrays) (rest rest' : Bytes),
    ∀ writer ∈ [Writer.write, Writer.sslWrite],
      sent .plain .dprintf t arrays request rest = sent .https writer t arrays' request rest'

section Agreement

variable {request : Bytes}

/-- Where a program finds nothing in a request, its arrays decide what it sends. -/
theorem arrays_show {program : Program} (writer : Writer) (hne : request ≠ [])
    (h : asked (program.decoded request) = none) : ∃ a b,
      sent program writer everything a request [] ≠
        sent program writer everything b request [] := by
  obtain ⟨a, b, r, r', ha, hb, hr⟩ := residue_shows h
  refine ⟨a, b, fun heq => ?_⟩
  rw [sent_request hne, sent_request hne] at heq
  replace heq := (congrArg (Option.map _) ha).symm.trans (heq.trans (congrArg (Option.map _) hb))
  have hall : ∀ writer ∈ [Writer.dprintf, .write, .sslWrite],
      ∀ q ∈ [(get301Response [], get501Response),
        (get301Response [], get301Response (ascii "x"))],
        (writer.calls q.1).flatten ≠ (writer.calls q.2).flatten := by decide
  exact hall writer (by cases writer <;> decide) _ hr (Option.some.inj heq)

/-- To a client that sends nothing only one program answers. -/
theorem not_agree_nil : ¬ Agree [] := by
  intro h
  have heq := h everything ⟨[], []⟩ ⟨[], []⟩ [] [] .write List.mem_cons_self
  have hnothing : sent .plain .dprintf everything ⟨[], []⟩ [] [] = some [] := rfl
  have hanswer : sent .https .write everything ⟨[], []⟩ [] [] ≠ some [] := by decide
  exact hanswer (heq ▸ hnothing)

/-- Two different things to ask for are answered differently in some tree. -/
theorem answers_differ {x y : Option Bytes} (hx : asked (Program.plain.decoded request) = some x)
    (hy : asked (Program.https.decoded request) = some y) (hne : x ≠ y) : ¬ SameAnswer x y := by
  cases x with
  | none =>
    cases y with
    | none => exact absurd rfl hne
    | some g =>
      obtain ⟨q, vs, -, rfl⟩ := asked_get hy
      exact method_differs (filePath_length q)
  | some f =>
    obtain ⟨p, ws, hp, rfl⟩ := asked_get hx
    cases y with
    | none => exact fun h => method_differs (filePath_length p) fun t => (h t).symm
    | some g =>
      obtain ⟨q, vs, hq, rfl⟩ := asked_get hy
      have hplus := (decoded_plus (cString request)).cString
      obtain ⟨l, m, hlm, hl, hm⟩ := method_plus hplus hp hq (by decide)
      obtain ⟨k, u, hqu, hu⟩ := path_plus hlm hl hm
      exact paths_differ hqu hu fun h => hne (congrArg some h)

/-- **Agreement**: the programs send the same exactly when both find in the request what it asks
for, and find the same. -/
theorem agreement_iff (_ : request.length < bufferSize) : Agree request ↔
    ∃ x, asked (Program.plain.decoded request) = some x ∧
      asked (Program.https.decoded request) = some x := by
  by_cases hne : request = []
  · subst hne
    exact iff_of_false not_agree_nil fun ⟨x, hx, _⟩ => by cases hx
  constructor
  · intro h
    cases hx : asked (Program.plain.decoded request) with
    | none =>
      obtain ⟨a, b, hab⟩ := arrays_show .dprintf hne hx
      have ha := h everything a ⟨[], []⟩ [] [] .write List.mem_cons_self
      have hb := h everything b ⟨[], []⟩ [] [] .write List.mem_cons_self
      exact absurd (ha.trans hb.symm) hab
    | some x =>
      cases hy : asked (Program.https.decoded request) with
      | none =>
        obtain ⟨a, b, hab⟩ := arrays_show .write hne hy
        have ha := h everything ⟨[], []⟩ a [] [] .write List.mem_cons_self
        have hb := h everything ⟨[], []⟩ b [] [] .write List.mem_cons_self
        exact absurd (ha.symm.trans hb) hab
      | some y =>
        by_cases hxy : x = y
        · exact ⟨x, rfl, congrArg some hxy.symm⟩
        · refine absurd (fun t => ?_) (answers_differ hx hy hxy)
          have hsent := h t ⟨[], []⟩ ⟨[], []⟩ [] [] .write List.mem_cons_self
          rw [sent_asked hne hx, sent_asked hne hy] at hsent
          exact hsent
  · intro ⟨x, hx, hy⟩ t arrays arrays' rest rest' writer _
    rw [sent_asked hne hx, sent_asked hne hy]

end Agreement

/-- A request for the root. -/
theorem agreement_root : Agree (ascii "GET / HTTP/1.0\r\n\r\n") :=
  (agreement_iff (by decide)).mpr ⟨some [slash], by decide, by decide⟩

/-- **A plus sign in a path** is a space to one of them, and a plus sign to the other. -/
theorem plus_request : ¬ Agree (ascii "GET /a+b HTTP/1.0\r\n\r\n") := by
  intro h
  have hsent := h everything ⟨[], []⟩ ⟨[], []⟩ [] [] .write List.mem_cons_self
  have hplain : asked (Program.plain.decoded (ascii "GET /a+b HTTP/1.0\r\n\r\n")) =
      some (some (ascii "/a")) := by decide
  have hhttps : asked (Program.https.decoded (ascii "GET /a+b HTTP/1.0\r\n\r\n")) =
      some (some (ascii "/a+b")) := by decide
  rw [sent_asked (by decide) hplain, sent_asked (by decide) hhttps] at hsent
  have hp : (answer everything (some (ascii "/a"))).result = some (get301Response (ascii "/a")) :=
    everything_moved (by decide) (by decide)
  have hq : (answer everything (some (ascii "/a+b"))).result =
      some (get301Response (ascii "/a+b")) := everything_moved (by decide) (by decide)
  rw [hp, hq] at hsent
  exact absurd (moved_inj (Option.some.inj hsent)) (by decide)

end InpLabs.Web
