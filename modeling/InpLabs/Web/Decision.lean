/-
  File:      InpLabs/Web/Decision.lean
  Subject:   The response to a request, against the specification (homework1: README.md).

  * `specification`: what is to be answered, by method, path and file tree;
  * `serve_meets`: behind the test of the method, the answer is right exactly when the index of the
    directory is one that the server finds;
  * `decision_iff`: every request, from its first two words on;
  * `index_ignored`: the index of a directory other than the root is not sent.
-/
import InpLabs.Web.Confinement

namespace InpLabs.Web

open InpLabs.Lib Pathname

/-! ## 1. The specification -/

inductive Answer where
  | notImplemented
  | notFound
  | moved (location : Bytes)
  | forbidden
  | ok (body : Bytes)

/-- The response is this answer. -/
def HttpResponse.Gives (r : HttpResponse) : Answer → Prop
  | .notImplemented => r.statusCode = 501
  | .notFound => r.statusCode = 404
  | .moved location => r.statusCode = 301 ∧ r.location = location
  | .forbidden => r.statusCode = 403
  | .ok body => r.statusCode = 200 ∧ r.content = body ∧ r.contentLength = body.length

/-- The name of the index of a directory. -/
def index : Bytes := ascii "index.html"

/-- The answer for a directory with this index; there is none where that is a directory itself. -/
def indexAnswer {ν : Type} : Option (Entry ν) → Option Answer
  | none => some .forbidden
  | some (.file content) => some (.ok content)
  | some (.dir _) => none

/-- The answer to a request for the path `f`. -/
def specification (t : FileTree) (method f : Bytes) : Option Answer :=
  if method ≠ ascii "GET" then some .notImplemented
  else
    match t.entryAt (html ++ f) with
    | none => some .notFound
    | some (.file content) => some (.ok content)
    | some (.dir _) =>
      if f.getLast? ≠ some slash then some (.moved (f ++ [slash]))
      else indexAnswer (t.entryAt (html ++ f ++ index))

/-- The response is as specified. -/
def HttpResponse.Meets (r : HttpResponse) (t : FileTree) (method f : Bytes) : Prop :=
  ∃ a, specification t method f = some a ∧ r.Gives a

/-- The index of the directory `f` is a file, and `f` is the root or the file is empty. -/
def IndexServed (t : FileTree) (f : Bytes) : Prop :=
  ∀ lookup e, f.getLast? = some slash → t.entryAt (html ++ f) = some (.dir lookup) →
    t.entryAt (html ++ f ++ index) = some e → ∃ content, e = .file content ∧
      (f = [slash] ∨ content = [])

/-! ## 2. What is answered -/

theorem specification_get (t : FileTree) (f : Bytes) : specification t (ascii "GET") f =
    match t.entryAt (html ++ f) with
    | none => some .notFound
    | some (.file content) => some (.ok content)
    | some (.dir _) =>
      if f.getLast? ≠ some slash then some (.moved (f ++ [slash]))
      else indexAnswer (t.entryAt (html ++ f ++ index)) :=
  if_neg (not_not.mpr rfl)

section Serve

variable {t : FileTree} {f path : Bytes}

/-- Nothing is cut off a path of at most 255 bytes. -/
theorem fullPath_eq (h : f.length ≤ 255) : fullPath f = html ++ f := by
  refine List.take_of_length_le ?_
  have hlength : (ascii "html").length = 4 := by decide
  rw [List.length_append, hlength]
  omega

theorem serve_result (t : FileTree) (f : Bytes) : (serve t f).result =
    match t.entryAt (fullPath f) with
    | none => some get404Response
    | some (.file _) => (get200Response t (fullPath f)).result
    | some (.dir _) =>
      if (fullPath f).getLast? ≠ some slash then some (get301Response f)
      else if (t.find (indexPath (fullPath f))).isSome then (get200Response t (fullPath f)).result
      else some get403Response := by
  have hstat : (stat t (fullPath f)).result = some (t.entryAt (fullPath f)) := rfl
  unfold serve
  rw [Traced.result_bind hstat]
  cases t.entryAt (fullPath f) with
  | none => rfl
  | some e =>
    cases e with
    | file content => rfl
    | dir lookup =>
      dsimp only
      by_cases hslash : (fullPath f).getLast? ≠ some slash
      · rw [if_pos hslash, if_pos hslash]
        rfl
      · have haccess : (access t (indexPath (fullPath f))).result =
          some (t.find (indexPath (fullPath f))).isSome := rfl
        rw [if_neg hslash, if_neg hslash, Traced.result_bind haccess]
        split <;> rfl

/-- The response with what is read behind the path that is opened. -/
theorem get200Response_result {e : Entry t.Node} {p : Bytes}
    (hp : (if path = ascii "html/" then ascii "html/index.html" else path) = p)
    (h : t.entryAt p = some e) :
    ∃ r, (get200Response t path).result = some r ∧ r.statusCode = 200 ∧
      r.contentType = mimeType p ∧ r.content = readable e ∧
      r.contentLength = (readable e).length := by
  have hread : (readFile t p).result = some (readable e) := by
    unfold readFile Traced.touch
    rw [h]
    rfl
  unfold get200Response
  dsimp only
  rw [hp, Traced.result_bind hread]
  exact ⟨_, rfl, rfl, rfl, rfl, rfl⟩

/-- The server's path to an index has a slash too many, which does no harm. -/
theorem find_indexPath (g : Bytes) (hlength : (html ++ (g ++ [slash])).length ≤ 269) :
    t.find (indexPath (html ++ (g ++ [slash]))) = t.find (html ++ (g ++ [slash]) ++ index) := by
  have hname : slash ∉ index := by decide
  rw [indexPath_eq hlength]
  have hsplit : html ++ (g ++ [slash]) ++ slash :: index =
      html ++ g ++ slash :: slash :: index := by simp
  have hindex : html ++ (g ++ [slash]) ++ index = html ++ g ++ slash :: index := by simp
  rw [hindex, ← FileTree.find_child_slash (html ++ g) hname, ← hsplit]
  rfl

/-- What is read for a directory: its index only for the root, and nothing for any other one. -/
theorem get200Response_dir {g : Bytes} {lookup : Bytes → Option t.Node} {e : Entry t.Node}
    (hdir : t.entryAt (html ++ (g ++ [slash])) = some (.dir lookup))
    (hindex : t.entryAt (html ++ (g ++ [slash]) ++ index) = some e) :
    ∃ r, (get200Response t (html ++ (g ++ [slash]))).result = some r ∧ r.statusCode = 200 ∧
      r.contentLength = r.content.length ∧ r.content = if g = [] then readable e else [] := by
  by_cases hg : g = []
  · subst hg
    have hopen : (if html ++ ([] ++ [slash]) = ascii "html/" then ascii "html/index.html"
        else html ++ ([] ++ [slash])) = html ++ ([] ++ [slash]) ++ index := by decide
    obtain ⟨r, hr, hcode, -, hcontent, hlength⟩ := get200Response_result hopen hindex
    exact ⟨r, hr, hcode, hcontent ▸ hlength, hcontent⟩
  · have hne : html ++ (g ++ [slash]) ≠ ascii "html/" := by
      intro h
      have hroot : html ++ (g ++ [slash]) = html ++ ([] ++ [slash]) := h
      exact hg (List.append_cancel_right (List.append_cancel_left hroot))
    obtain ⟨r, hr, hcode, -, hcontent, hlength⟩ := get200Response_result (if_neg hne) hdir
    refine ⟨r, hr, hcode, hcontent ▸ hlength, ?_⟩
    rw [if_neg hg]
    exact hcontent

/-- An answer with what is read for a directory is the index if there is a file to send. -/
theorem gives_index {r : HttpResponse} {e : Entry t.Node} {g : Bytes} (hcode : r.statusCode = 200)
    (hlength : r.contentLength = r.content.length)
    (hcontent : r.content = if g = [] then readable e else []) :
    (∃ a, indexAnswer (some e) = some a ∧ r.Gives a) ↔
      ∃ content, e = .file content ∧ (g ++ [slash] = [slash] ∨ content = []) := by
  have hroot : g ++ [slash] = [slash] ↔ g = [] := by simp
  simp only [hroot]
  cases e with
  | dir lookup =>
    refine iff_of_false (fun ⟨a, ha, _⟩ => ?_) (fun ⟨c, hc, _⟩ => ?_)
    · cases ha
    · cases hc
  | file content =>
    constructor
    · intro ⟨a, ha, hgives⟩
      cases ha
      refine ⟨content, rfl, ?_⟩
      by_cases hg : g = []
      · exact .inl hg
      · rw [if_neg hg] at hcontent
        exact .inr (hgives.2.1.symm.trans hcontent)
    · intro ⟨c, hc, hor⟩
      cases hc
      have hbody : r.content = content := by
        rcases hor with hg | hnil
        · rw [if_pos hg] at hcontent
          exact hcontent
        · rw [hcontent, hnil]
          exact ite_self _
      exact ⟨.ok content, rfl, hcode, hbody, hbody ▸ hlength⟩

/-- The answer for a directory that is asked for with a slash. -/
theorem serve_meets_dir {g : Bytes} {lookup : Bytes → Option t.Node}
    (hlength : (g ++ [slash]).length ≤ 255)
    (hdir : t.entryAt (html ++ (g ++ [slash])) = some (.dir lookup)) :
    ∃ r, (serve t (g ++ [slash])).result = some r ∧
      (r.Meets t (ascii "GET") (g ++ [slash]) ↔ IndexServed t (g ++ [slash])) := by
  have hfull := fullPath_eq hlength
  have hslash : (g ++ [slash]).getLast? = some slash := List.getLast?_concat
  have hlast : (html ++ (g ++ [slash])).getLast? = some slash := by
    rw [List.getLast?_append_of_ne_nil html (List.concat_ne_nil slash g)]
    exact hslash
  rw [serve_result, hfull]
  unfold HttpResponse.Meets IndexServed
  rw [specification_get, hdir]
  dsimp only
  rw [if_neg (not_not.mpr hslash), if_neg (not_not.mpr hlast),
    find_indexPath g (hfull ▸ fullPath_length _)]
  cases hindex : t.entryAt (html ++ (g ++ [slash]) ++ index) with
  | none =>
    rw [Option.map_eq_none_iff.mp hindex]
    refine ⟨get403Response, rfl, iff_of_true ⟨.forbidden, rfl, rfl⟩ ?_⟩
    intro lookup' e _ _ he
    cases he
  | some e =>
    obtain ⟨m, hm, -⟩ := Option.map_eq_some_iff.mp hindex
    obtain ⟨r, hr, hcode, hlen, hcontent⟩ := get200Response_dir hdir hindex
    rw [hm]
    refine ⟨r, hr, (gives_index hcode hlen hcontent).trans ⟨?_, fun h => ?_⟩⟩
    · intro h lookup' e' _ _ he
      cases he
      exact h
    · exact h lookup e hslash rfl rfl

/-- **Behind the test of the method**: there is a response, and it is as specified exactly when the
index that the specification asks for is one that is sent. -/
theorem serve_meets (hlength : f.length ≤ 255) (hne : f ≠ []) :
    ∃ r, (serve t f).result = some r ∧ (r.Meets t (ascii "GET") f ↔ IndexServed t f) := by
  by_cases hslash : f.getLast? = some slash ∧ ∃ lookup, t.entryAt (html ++ f) = some (.dir lookup)
  · obtain ⟨hlast, lookup, hdir⟩ := hslash
    obtain ⟨g, rfl⟩ := List.getLast?_eq_some_iff.mp hlast
    exact serve_meets_dir hlength hdir
  · -- no index is asked for
    have hserved : IndexServed t f :=
      fun lookup e hlast hdir => absurd ⟨hlast, lookup, hdir⟩ hslash
    have hlast : (html ++ f).getLast? = f.getLast? := List.getLast?_append_of_ne_nil html hne
    rw [serve_result, fullPath_eq hlength]
    unfold HttpResponse.Meets
    rw [specification_get]
    cases hentry : t.entryAt (html ++ f) with
    | none => exact ⟨get404Response, rfl, iff_of_true ⟨.notFound, rfl, rfl⟩ hserved⟩
    | some entry =>
      cases entry with
      | file content =>
        have hroot : html ++ f ≠ ascii "html/" := by
          intro h
          rw [h] at hentry
          have hfile : t.entryAt (ascii "html" ++ [slash]) = some (.file content) := hentry
          obtain ⟨lookup, hdir⟩ := FileTree.entryAt_slash hfile
          cases hdir
        obtain ⟨r, hr, hcode, -, hcontent, hlen⟩ := get200Response_result (if_neg hroot) hentry
        exact ⟨r, hr, iff_of_true ⟨.ok content, rfl, hcode, hcontent, hlen⟩ hserved⟩
      | dir lookup =>
        have hno : f.getLast? ≠ some slash := fun h => hslash ⟨h, lookup, hentry⟩
        dsimp only
        rw [hlast, if_pos hno, if_pos hno]
        exact ⟨get301Response f, rfl, iff_of_true ⟨.moved _, rfl, rfl, rfl⟩ hserved⟩

end Serve

/-! ## 3. Every request -/

theorem take_eq_get {method : Bytes} : method.take 9 = ascii "GET" ↔ method = ascii "GET" := by
  have hlength : (ascii "GET").length = 3 := by decide
  constructor
  · intro h
    have htake := congrArg List.length h
    rw [List.length_take, hlength] at htake
    rwa [List.take_of_length_le (by omega)] at h
  · rintro rfl
    decide

/-- **The decision**: a request with a method and a path is answered as specified, exactly when it
does not ask for the index of a directory other than the root, and the index is no directory. -/
theorem decision_iff (t : FileTree) (arrays : Arrays) {request method path : Bytes}
    {ws : List Bytes} (h : tokenize request = method :: path :: ws) (hlength : path.length ≤ 255)
    (hslash : path.head? = some slash) :
    ∃ r, (handleHTTPRequest t arrays request).result = some r ∧
      (r.Meets t method (extractFilePath path) ↔
        (method = ascii "GET" → IndexServed t (extractFilePath path))) := by
  unfold handleHTTPRequest
  dsimp only
  rw [scan_method h]
  by_cases hget : method = ascii "GET"
  · subst hget
    rw [if_neg (not_not.mpr (take_eq_get.mpr rfl)), scan_path h (by decide),
      List.take_of_length_le hlength]
    have hfile : (extractFilePath path).length ≤ 255 :=
      (List.takeWhile_prefix _).length_le.trans hlength
    have hne : extractFilePath path ≠ [] := by
      obtain ⟨rest, rfl⟩ := List.head?_eq_some_iff.mp hslash
      exact List.cons_ne_nil _ _
    obtain ⟨r, hr, hmeets⟩ := serve_meets hfile hne
    exact ⟨r, hr, hmeets.trans ⟨fun h _ => h, fun h => h rfl⟩⟩
  · rw [if_pos (mt take_eq_get.mp hget)]
    refine ⟨get501Response, rfl, iff_of_true ⟨.notImplemented, if_pos hget, rfl⟩ fun h => ?_⟩
    exact absurd h hget

/-- The length that is announced is that of the content. -/
theorem response_length {t : FileTree} {arrays : Arrays} {request : Bytes} {r : HttpResponse}
    (h : (handleHTTPRequest t arrays request).result = some r) :
    r.contentLength = r.content.length := by
  have hpage : ∀ path, (get200Response t path).result = some r →
      r.contentLength = r.content.length := by
    intro path hr
    obtain ⟨content, hcontent, hr⟩ := Traced.result_bind_eq_some hr
    cases hr
    rfl
  unfold handleHTTPRequest at h
  dsimp only at h
  split at h
  · cases h
    rfl
  · rw [serve_result] at h
    split at h
    · cases h
      rfl
    · exact hpage _ h
    · split at h
      · cases h
        rfl
      · split at h
        · exact hpage _ h
        · cases h
          rfl

/-- The content of a page is sent in full, behind the header. -/
theorem content_suffix {t : FileTree} {arrays : Arrays} {request : Bytes} {r : HttpResponse}
    (h : (handleHTTPRequest t arrays request).result = some r) (hcode : r.statusCode ≠ 301) :
    r.content <:+ sendHTTPResponse r := by
  unfold sendHTTPResponse
  dsimp only
  rw [if_neg hcode, response_length h, List.take_length]
  exact List.suffix_append _ _

/-- The places of a small site. -/
inductive Place where
  | cwd
  | root
  | rootIndex
  | sub
  | subIndex

/-- The root and its directory `a`, with an index each. -/
def site : FileTree where
  Node := Place
  entry
    | .cwd => .dir fun c => if c = html then some .root else none
    | .root => .dir fun c =>
      if c = index then some .rootIndex else if c = ascii "a" then some .sub else none
    | .rootIndex => .file (ascii "root")
    | .sub => .dir fun c => if c = index then some .subIndex else none
    | .subIndex => .file (ascii "sub")
  cwd := .cwd

/-- The root is answered with its index. -/
theorem decision_root : ∃ r, (handleHTTPRequest site ⟨[], []⟩ (ascii "GET / HTTP/1.0")).result =
    some r ∧ r.Meets site (ascii "GET") (ascii "/") := by
  have hwords : tokenize (ascii "GET / HTTP/1.0") = [ascii "GET", ascii "/", ascii "HTTP/1.0"] := by
    decide
  obtain ⟨r, hr, hiff⟩ := decision_iff site ⟨[], []⟩ hwords (by decide) (by decide)
  refine ⟨r, hr, hiff.mpr fun _ => ?_⟩
  have hindex : site.entryAt (html ++ ascii "/" ++ index) = some (.file (ascii "root")) := rfl
  intro lookup e _ _ he
  cases hindex.symm.trans he
  exact ⟨ascii "root", rfl, .inl rfl⟩

/-- **An index ignored**: the directory `a` is answered with an empty page. -/
theorem index_ignored : ¬ ∃ r,
    (handleHTTPRequest site ⟨[], []⟩ (ascii "GET /a/ HTTP/1.0")).result = some r ∧
      r.Meets site (ascii "GET") (ascii "/a/") := by
  intro ⟨r, hr, a, ha, hgives⟩
  have hspec : specification site (ascii "GET") (ascii "/a/") = some (.ok (ascii "sub")) := rfl
  have hempty : (handleHTTPRequest site ⟨[], []⟩ (ascii "GET /a/ HTTP/1.0")).result.map
    HttpResponse.content = some [] := by decide
  cases hspec.symm.trans ha
  rw [hr, Option.map_some, hgives.2.1] at hempty
  exact absurd hempty (by decide)

end InpLabs.Web
