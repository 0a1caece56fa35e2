/-
  File:      InpLabs/Web/Headers.lean
  Subject:   The header of a response, line by line (homework1: utils.c, utils_https.c,
             `sendHTTPResponse`).

  * `headerLines`: the lines of a header; `formatHeader_lines`: it is a section of these lines;
  * `answer_free`: a byte that is in no text of the program and not in the path that was asked for
    is in no string of an answer, and so, `headerLines_free`, in no line of its header.
-/
import InpLabs.Lib.Header
import InpLabs.Web.Isolation

namespace InpLabs.Web

open InpLabs.Lib Pathname

/-! ## 1. The lines -/

/-- What `snprintf` formats: everything but the content. -/
def formatHeader (r : HttpResponse) : Bytes :=
  let crlf := ascii "\r\n"
  let header := ascii "HTTP/1.0 " ++ ascii (toString r.statusCode) ++ ascii " " ++
    r.statusDescription ++ crlf ++ ascii "Content-Length: " ++ ascii (toString r.contentLength) ++
    crlf ++ ascii "Content-Type: " ++ r.contentType
  if r.statusCode = 301 then header ++ crlf ++ ascii "Location: " ++ r.location ++ crlf ++ crlf
  else header ++ ascii "; charset=utf-8" ++ crlf ++ crlf

/-- The lines of a header. -/
def HttpResponse.headerLines (r : HttpResponse) : List Bytes :=
  let statusLine := ascii "HTTP/1.0 " ++ ascii (toString r.statusCode) ++ ascii " " ++
    r.statusDescription
  let contentLength := ascii "Content-Length: " ++ ascii (toString r.contentLength)
  let contentType := ascii "Content-Type: " ++ r.contentType
  if r.statusCode = 301 then
    [statusLine, contentLength, contentType, ascii "Location: " ++ r.location]
  else [statusLine, contentLength, contentType ++ ascii "; charset=utf-8"]

/-- What stands in the lines besides the strings and the numbers of the response. -/
def labels : List String :=
  ["HTTP/1.0 ", " ", "Content-Length: ", "Content-Type: ", "; charset=utf-8", "Location: "]

/-- The byte `c` is in none of the strings of a header. -/
structure HttpResponse.Free (r : HttpResponse) (c : UInt8) : Prop where
  statusDescription : c ∉ r.statusDescription
  contentType : c ∉ r.contentType
  location : c ∉ r.location

section Lines

variable {r : HttpResponse} {c : UInt8} {line : Bytes}

theorem formatHeader_lines (r : HttpResponse) :
    formatHeader r = headerSection r.headerLines := by
  have hcrlf : ascii "\r\n" = crlf := by decide
  unfold formatHeader HttpResponse.headerLines headerSection
  dsimp only
  rw [hcrlf]
  split <;> simp only [List.flatMap_cons, List.flatMap_nil, List.append_assoc, List.append_nil]

/-- The five kinds of lines. -/
theorem mem_headerLines (h : line ∈ r.headerLines) :
    line = ascii "HTTP/1.0 " ++ ascii (toString r.statusCode) ++ ascii " " ++ r.statusDescription ∨
    line = ascii "Content-Length: " ++ ascii (toString r.contentLength) ∨
    line = ascii "Content-Type: " ++ r.contentType ∨
    line = ascii "Content-Type: " ++ r.contentType ++ ascii "; charset=utf-8" ∨
    line = ascii "Location: " ++ r.location := by
  unfold HttpResponse.headerLines at h
  dsimp only at h
  split at h <;> simp only [List.mem_cons, List.not_mem_nil, or_false] at h
  · rcases h with h | h | h | h
    · exact .inl h
    · exact .inr (.inl h)
    · exact .inr (.inr (.inl h))
    · exact .inr (.inr (.inr (.inr h)))
  · rcases h with h | h | h
    · exact .inl h
    · exact .inr (.inl h)
    · exact .inr (.inr (.inr (.inl h)))

/-- A byte that is in no label, no digit and in no string of the response. -/
theorem headerLines_free (hlabels : ∀ s ∈ labels, c ∉ ascii s) (hdigit : isdigit c = false)
    (hr : r.Free c) : ∀ line ∈ r.headerLines, c ∉ line := by
  obtain ⟨hd, ht, hl⟩ := hr
  have hdigits : ∀ n : Nat, c ∉ ascii (toString n) := fun n h => by
    rw [isdigit_of_mem_repr h] at hdigit
    cases hdigit
  simp only [labels, List.mem_cons, List.not_mem_nil, or_false, forall_eq_or_imp,
    forall_eq] at hlabels
  intro line hline
  rcases mem_headerLines hline with rfl | rfl | rfl | rfl | rfl <;>
    simp only [List.mem_append, hlabels, hdigits, hd, ht, hl, or_self, not_false_eq_true]

theorem headerLines_ne_nil : ∀ line ∈ r.headerLines, line ≠ [] := by
  have hlabels : ∀ s ∈ labels, ascii s ≠ [] := by decide
  simp only [labels, List.mem_cons, List.not_mem_nil, or_false, forall_eq_or_imp,
    forall_eq] at hlabels
  intro line hline
  rcases mem_headerLines hline with rfl | rfl | rfl | rfl | rfl <;>
    simp only [List.append_eq_nil_iff, hlabels, false_and, and_false, not_false_eq_true, ne_eq]

end Lines

/-! ## 2. The strings of an answer -/

/-- The texts that the program puts into responses. -/
def texts : List String :=
  ["OK", "Moved Permanently", "Forbidden", "Not Found", "Not Implemented", "text/html",
    "image/jpeg", "audio/mpeg", "image/png", "text/plain", "/"]

section Strings

variable {t : FileTree} {x : Option Bytes} {r : HttpResponse} {c : UInt8}

theorem mimeType_free (htexts : ∀ s ∈ texts, c ∉ ascii s) (path : Bytes) : c ∉ mimeType path := by
  unfold mimeType
  split_ifs <;> exact htexts _ (by decide)

theorem get200Response_free (htexts : ∀ s ∈ texts, c ∉ ascii s) {path : Bytes}
    (h : (get200Response t path).result = some r) : r.Free c := by
  obtain ⟨content, -, hr⟩ := Traced.result_bind_eq_some h
  cases hr
  exact ⟨htexts "OK" (by decide), mimeType_free htexts _, List.not_mem_nil⟩

/-- **The strings of an answer** come from the program, but for the path of a redirection. -/
theorem answer_free (htexts : ∀ s ∈ texts, c ∉ ascii s) (hx : ∀ f, x = some f → c ∉ f)
    (h : (answer t x).result = some r) : r.Free c := by
  have herror : ∀ (code : Nat) (s : String) (content : Bytes), s ∈ texts →
      (errorResponse code (ascii s) content).Free c := fun code s content hs =>
    ⟨htexts s hs, htexts "text/html" (by decide), List.not_mem_nil⟩
  cases x with
  | none =>
    cases h
    exact herror 501 "Not Implemented" _ (by decide)
  | some f =>
    have h' : (serve t f).result = some r := h
    rw [serve_result] at h'
    split at h'
    · cases h'
      exact herror 404 "Not Found" _ (by decide)
    · exact get200Response_free htexts h'
    · split at h'
      · cases h'
        have hslash : c ∉ [slash] := htexts "/" (by decide)
        exact ⟨htexts "Moved Permanently" (by decide), htexts "text/html" (by decide),
          fun hmem => (List.mem_append.mp hmem).elim (hx f rfl) hslash⟩
      · split at h'
        · exact get200Response_free htexts h'
        · cases h'
          exact herror 403 "Forbidden" _ (by decide)

end Strings

end InpLabs.Web
