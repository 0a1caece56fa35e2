/-
  File:      InpLabs/Web/Mime.lean
  Subject:   **Where the type of a page follows the extension of its file** (homework1: README.md,
             utils.c and utils_https.c, the 200 response).

  * `extension`, `extensionType`: the extension of a path, and the type that goes with it;
  * `mimeType_iff`: the program looks for all extensions anywhere in the path, one after the other,
    and so it finds that type exactly when none of those it looks for first occurs;
  * `mime_iff`: every file that is opened while a connection is handled.
-/
import InpLabs.Lib.FirstMatch
import InpLabs.Web.Decision

namespace InpLabs.Web

open InpLabs.Lib Pathname

/-! ## 1. Extensions -/

/-- What stands behind the last slash. -/
def lastComponent (path : Bytes) : Bytes := (afterLast slash path).getD path

/-- What stands behind the last dot of that. -/
def extension (path : Bytes) : Option Bytes := afterLast 46 (lastComponent path)

/-- The types of the extensions, in the order in which the program looks for them. -/
def mimeTypes : List (Bytes × Bytes) :=
  [(ascii "html", ascii "text/html"), (ascii "jpg", ascii "image/jpeg"),
    (ascii "mp3", ascii "audio/mpeg"), (ascii "png", ascii "image/png")]

/-- The type that goes with an extension. -/
def extensionType (x : Option Bytes) : Bytes :=
  firstMatch (fun k => some k == x) (ascii "text/plain") mimeTypes

/-- The extension occurs, with its dot, somewhere in the path. -/
def occurs (path k : Bytes) : Bool := (find (46 :: k) path).isSome

section Types

variable {path x : Bytes}

theorem lastComponent_suffix (path : Bytes) : lastComponent path <:+ path := by
  unfold lastComponent
  cases h : afterLast slash path with
  | none => exact List.suffix_rfl
  | some c =>
    obtain ⟨before, hpath, -⟩ := afterLast_eq_some.mp h
    exact ⟨before ++ [slash], by simp [hpath]⟩

/-- The path ends with its extension. -/
theorem extension_suffix (h : extension path = some x) : 46 :: x <:+ path := by
  obtain ⟨before, hlast, -⟩ := afterLast_eq_some.mp h
  exact List.IsSuffix.trans ⟨before, hlast.symm⟩ (lastComponent_suffix path)

theorem occurs_iff {k : Bytes} : occurs path k = true ↔ 46 :: k <:+: path :=
  find_isSome_iff (List.cons_ne_nil 46 k)

/-- The program takes the first extension that occurs. -/
theorem mimeType_eq (path : Bytes) :
    mimeType path = firstMatch (occurs path) (ascii "text/plain") mimeTypes := rfl

/-- **The type of a path** is that of its extension exactly when no extension that the program looks
for earlier occurs in it. -/
theorem mimeType_iff (path : Bytes) : mimeType path = extensionType (extension path) ↔
    ∀ k ∈ (mimeTypes.map Prod.fst).takeWhile (some · ≠ extension path), ¬ 46 :: k <:+: path := by
  have hown : ∀ k, (some k == extension path) = true → occurs path k = true := fun k hk =>
    occurs_iff.mpr (extension_suffix (beq_iff_eq.mp hk).symm).isInfix
  rw [mimeType_eq, extensionType, firstMatch_eq_iff hown (by decide)]
  have hkind : (fun k => !(some k == extension path)) =
      fun k => decide (some k ≠ extension path) := by
    funext k
    by_cases hk : some k = extension path <;> simp [hk]
  rw [hkind]
  refine forall_congr' fun k => imp_congr_right fun _ => ?_
  rw [← occurs_iff, Bool.not_eq_true]

end Types

/-! ## 2. The files that are opened -/

section Opened

variable {program : Program} {t : FileTree} {arrays : Arrays}
  {request received behind full f path content : Bytes}

/-- A file that is opened is sent, with the type of its path. -/
theorem get200Response_opens (hfile : t.entryAt path = some (.file content))
    (hopen : .fopen path ∈ (get200Response t full).trace) :
    ∃ r, (get200Response t full).result = some r ∧ r.statusCode = 200 ∧
      r.contentType = mimeType path := by
  have hcalls : (get200Response t full).All
      (· = .fopen (if full = ascii "html/" then ascii "html/index.html" else full)) := by
    unfold get200Response readFile
    exact (Traced.all_bind _ _).mpr ⟨Traced.all_touch.mpr rfl, fun _ _ => Traced.all_pure⟩
  have hpath := Call.fopen.inj (hcalls _ hopen)
  obtain ⟨r, hr, hcode, htype, -⟩ := get200Response_result hpath.symm hfile
  exact ⟨r, hr, hcode, htype⟩

/-- Where something is opened, it is for the page that is answered. -/
theorem serve_opens (hopen : .fopen path ∈ (serve t f).trace) :
    .fopen path ∈ (get200Response t (fullPath f)).trace ∧
      (serve t f).result = (get200Response t (fullPath f)).result := by
  have hstat : (stat t (fullPath f)).result = some (t.entryAt (fullPath f)) := rfl
  have haccess : (access t (indexPath (fullPath f))).result =
      some (t.find (indexPath (fullPath f))).isSome := rfl
  unfold serve at hopen
  rw [Traced.trace_bind hstat] at hopen
  rw [serve_result]
  replace hopen := (List.mem_cons.mp hopen).resolve_left Call.noConfusion
  cases hentry : t.entryAt (fullPath f) with
  | none =>
    rw [hentry] at hopen
    cases hopen
  | some e =>
    rw [hentry] at hopen
    cases e with
    | file content => exact ⟨hopen, rfl⟩
    | dir lookup =>
      dsimp only at hopen ⊢
      by_cases hslash : (fullPath f).getLast? ≠ some slash
      · rw [if_pos hslash] at hopen
        cases hopen
      · rw [if_neg hslash, Traced.trace_bind haccess] at hopen
        rw [if_neg hslash]
        replace hopen := (List.mem_cons.mp hopen).resolve_left Call.noConfusion
        by_cases hindex : (t.find (indexPath (fullPath f))).isSome = true
        · rw [if_pos hindex] at hopen ⊢
          exact ⟨hopen, rfl⟩
        · rw [if_neg hindex] at hopen
          cases hopen

theorem handleHTTPRequest_opens (hopen : .fopen path ∈ (handleHTTPRequest t arrays request).trace) :
    ∃ full, .fopen path ∈ (get200Response t full).trace ∧
      (handleHTTPRequest t arrays request).result = (get200Response t full).result := by
  unfold handleHTTPRequest at hopen ⊢
  dsimp only at hopen ⊢
  split at hopen
  · cases hopen
  · rename_i hget
    rw [if_neg hget]
    exact ⟨_, serve_opens hopen⟩

/-- **Every file that is opened**: what is sent is the page of `get200Response`. -/
theorem handleClient_opens
    (hopen : .fopen path ∈ (handleClient program t arrays received behind).trace) :
    ∃ full, .fopen path ∈ (get200Response t full).trace ∧
      (handleClient program t arrays received behind).result =
        (get200Response t full).result.map some := by
  cases hrequest : program.request received behind with
  | none =>
    unfold handleClient at hopen
    rw [hrequest] at hopen
    cases hopen
  | some request =>
    rw [handleClient_some hrequest] at hopen ⊢
    obtain ⟨full, hfull, hresult⟩ := handleHTTPRequest_opens hopen
    exact ⟨full, hfull, congrArg (Option.map some) hresult⟩

end Opened

/-! ## 3. Every request -/

/-- **The type of a served file** goes with the extension of its path exactly when none of the
extensions that the program looks for before that one occurs anywhere in the path. -/
theorem mime_iff (program : Program) (t : FileTree) (arrays : Arrays) (received behind : Bytes)
    {path content : Bytes} (hfile : t.entryAt path = some (.file content))
    (hopen : .fopen path ∈ (handleClient program t arrays received behind).trace) :
    ∃ r, (handleClient program t arrays received behind).result = some (some r) ∧
      r.statusCode = 200 ∧ (r.contentType = extensionType (extension path) ↔
        ∀ k ∈ (mimeTypes.map Prod.fst).takeWhile (some · ≠ extension path),
          ¬ 46 :: k <:+: path) := by
  obtain ⟨full, hfull, hresult⟩ := handleClient_opens hopen
  obtain ⟨r, hr, hcode, htype⟩ := get200Response_opens hfile hfull
  refine ⟨r, ?_, hcode, ?_⟩
  · rw [hresult, hr]
    rfl
  · rw [htype]
    exact mimeType_iff path

/-- The index of the root is sent as what it is. -/
theorem mime_index : ∃ r, (handleClient .https site ⟨[], []⟩ (ascii "GET / HTTP/1.0\r\n\r\n")
    [0]).result = some (some r) ∧ r.contentType = extensionType (some (ascii "html")) := by
  have hfile : site.entryAt (ascii "html/index.html") = some (.file (ascii "root")) := rfl
  have hopen : .fopen (ascii "html/index.html") ∈ (handleClient .https site ⟨[], []⟩
    (ascii "GET / HTTP/1.0\r\n\r\n") [0]).trace := by decide
  obtain ⟨r, hr, -, hiff⟩ := mime_iff .https site ⟨[], []⟩ _ [0] hfile hopen
  have hextension : extension (ascii "html/index.html") = some (ascii "html") := by decide
  have hnone : (mimeTypes.map Prod.fst).takeWhile (some · ≠ some (ascii "html")) = [] := by decide
  rw [hextension, hnone] at hiff
  exact ⟨r, hr, hiff.mpr fun k hk => absurd hk List.not_mem_nil⟩

/-- The places of a site with one file. -/
inductive Shelf where
  | cwd
  | root
  | page

/-- A file whose extension is `txt`. -/
def shelf : FileTree where
  Node := Shelf
  entry
    | .cwd => .dir fun c => if c = html then some .root else none
    | .root => .dir fun c => if c = ascii "a.html.txt" then some .page else none
    | .page => .file (ascii "text")
  cwd := .cwd

/-- **A type from the middle of a name**: a text file is sent as a page. -/
theorem mime_middle : ∃ r, (handleClient .plain shelf ⟨[], []⟩
    (ascii "GET /a.html.txt HTTP/1.0\r\n\r\n") [0]).result = some (some r) ∧
    .fopen (ascii "html/a.html.txt") ∈ (handleClient .plain shelf ⟨[], []⟩
      (ascii "GET /a.html.txt HTTP/1.0\r\n\r\n") [0]).trace ∧
    shelf.entryAt (ascii "html/a.html.txt") = some (.file (ascii "text")) ∧
    r.contentType = ascii "text/html" ∧
    extensionType (extension (ascii "html/a.html.txt")) = ascii "text/plain" ∧
    r.contentType ≠ extensionType (extension (ascii "html/a.html.txt")) :=
  ⟨_, rfl, by decide, rfl, by decide, by decide, by decide⟩

end InpLabs.Web
