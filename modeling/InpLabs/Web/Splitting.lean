/-
  File:      InpLabs/Web/Splitting.lean
  Subject:   **No response splitting** (homework1: utils.c, utils_https.c).

  * `asked_line_free`: the path is cut out of the decoded request at white space, so that no CR and
    no LF is in it, escaped or not;
  * `serve_returns`: every path is answered;
  * `no_splitting`: the header that a client reads has the lines of the answer, and no others.
-/
import InpLabs.Web.Agreement

namespace InpLabs.Web

open InpLabs.Lib Pathname

section Splitting

variable {t : FileTree} {f request w w' : Bytes} {ws : List Bytes} {x : Option Bytes}
  {r : HttpResponse}

/-- White space is not in the path. -/
theorem asked_line_free (h : asked request = some (some f)) {c : UInt8} (hc : isspace c = true) :
    c ∉ f := by
  obtain ⟨path, ws, hwords, rfl⟩ := asked_get h
  intro hmem
  have hword : path ∈ tokenize request := by
    rw [hwords]
    exact List.mem_cons_of_mem _ List.mem_cons_self
  have hplain := sep_of_mem_words hword ((filePath_initial path).subset hmem)
  rw [hc] at hplain
  cases hplain

/-- Two words ask for something. -/
theorem asked_of_words (h : tokenize request = w :: w' :: ws) : ∃ x, asked request = some x := by
  cases hx : asked request with
  | some x => exact ⟨x, rfl⟩
  | none =>
    rcases asked_none hx with hwords | hwords
    · rw [hwords] at h
      cases h
    · rw [hwords] at h
      cases h

/-- Every path is answered. -/
theorem serve_returns (hlen : f.length ≤ 255) : ∃ r, (serve t f).result = some r := by
  by_cases hne : f = []
  · -- the directory itself, without a slash
    subst hne
    have hfull : fullPath [] = html := fullPath_eq (Nat.zero_le 255)
    have hhtml : html ≠ ascii "html/" := by decide
    have hlast : html.getLast? ≠ some slash := by decide
    rw [serve_result, hfull]
    cases hentry : t.entryAt html with
    | none => exact ⟨_, rfl⟩
    | some e =>
      cases e with
      | file content =>
        obtain ⟨r, hr, -⟩ := get200Response_result (if_neg hhtml) hentry
        exact ⟨r, hr⟩
      | dir lookup =>
        dsimp only
        rw [if_pos hlast]
        exact ⟨_, rfl⟩
  · obtain ⟨r, hr, -⟩ := serve_meets (t := t) hlen hne
    exact ⟨r, hr⟩

theorem answer_returns (h : asked request = some x) : ∃ r, (answer t x).result = some r := by
  cases x with
  | none => exact ⟨_, rfl⟩
  | some f =>
    obtain ⟨path, ws, -, rfl⟩ := asked_get h
    exact serve_returns (filePath_length path)

/-- The lines of an answer are ended by what is written behind them, and by nothing in them. -/
theorem answer_plain (hask : asked request = some x) (h : (answer t x).result = some r) :
    ∀ line ∈ r.headerLines, Plain line := by
  have hfree : ∀ c, isspace c = true → (∀ s ∈ texts, c ∉ ascii s) → r.Free c :=
    fun c hc htexts => answer_free htexts (fun f hf => asked_line_free (hf ▸ hask) hc) h
  intro line hline
  exact ⟨headerLines_ne_nil line hline,
    headerLines_free (by decide) (by decide) (hfree cr (by decide) (by decide)) line hline,
    headerLines_free (by decide) (by decide) (hfree lf (by decide) (by decide)) line hline⟩

/-- **No response splitting**: to a request with two words, in either program and through each of
the writers, the answer to what was asked is sent. Its header section is made up of a status line,
`Content-Length`, `Content-Type` and, for 301, `Location`, in each of which there is no other CR or
LF; a client reads these lines, and then the content. -/
theorem no_splitting (program : Program) (writer : Writer) (t : FileTree) (arrays : Arrays)
    {request : Bytes} (_ : request.length < bufferSize) (rest : Bytes) {w w' : Bytes}
    {ws : List Bytes} (h : tokenize (program.decoded request) = w :: w' :: ws) :
    ∃ x r body, asked (program.decoded request) = some x ∧ (answer t x).result = some r ∧
      sent program writer t arrays request rest = some (headerSection r.headerLines ++ body) ∧
      (∀ line ∈ r.headerLines, Plain line) ∧
      readHeader [] (headerSection r.headerLines ++ body) = some (r.headerLines, body) := by
  obtain ⟨x, hx⟩ := asked_of_words h
  obtain ⟨r, hr⟩ := answer_returns (t := t) hx
  have hne : request ≠ [] := by
    rintro rfl
    cases program <;> cases h
  have hplain := answer_plain hx hr
  have hsent : sent program writer t arrays request rest = some (headerSection r.headerLines ++
      if r.statusCode = 301 then [] else r.content.take r.contentLength) := by
    rw [sent_asked hne hx, hr, Option.map_some, sendHTTPResponse_eq, formatHeader_lines]
  exact ⟨x, r, _, hx, hr, hsent, hplain, readHeader_section hplain _⟩

end Splitting

/-- An escaped line end and a header behind it: the path ends before them. -/
theorem no_splitting_escaped : ∃ body,
    sent .https .sslWrite everything ⟨[], []⟩ (ascii "GET /a%0d%0aSet-Cookie:%20b HTTP/1.0\r\n\r\n")
      [] = some (headerSection (get301Response (ascii "/a")).headerLines ++ body) := by
  have hwords : tokenize (Program.https.decoded
      (ascii "GET /a%0d%0aSet-Cookie:%20b HTTP/1.0\r\n\r\n")) =
      [ascii "GET", ascii "/a", ascii "Set-Cookie:", ascii "b", ascii "HTTP/1.0"] := by decide
  obtain ⟨x, r, body, hx, hr, hsent, -⟩ :=
    no_splitting .https .sslWrite everything ⟨[], []⟩ (by decide) [] hwords
  have hask : asked (Program.https.decoded
      (ascii "GET /a%0d%0aSet-Cookie:%20b HTTP/1.0\r\n\r\n")) = some (some (ascii "/a")) := by
    decide
  obtain rfl : x = some (ascii "/a") := Option.some.inj (hx.symm.trans hask)
  have hmoved : (answer everything (some (ascii "/a"))).result = _ :=
    everything_moved (by decide) (by decide)
  obtain rfl := Option.some.inj (hr.symm.trans hmoved)
  exact ⟨body, hsent⟩

end InpLabs.Web
