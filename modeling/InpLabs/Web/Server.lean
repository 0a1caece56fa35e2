/-
  File:      InpLabs/Web/Server.lean
  Subject:   The static web servers (homework1: server.c and utils.c, server_https.c and
             utils_https.c).

  * `Program.request`: what a client's bytes become before they are handled. The buffer is not
    terminated: the string goes on in whatever stands behind the bytes that were received;
  * `Call`, `stat`, `access`, `readFile`: the calls that look at the file tree, each of them kept
    in the trace. A null pointer of `fopen` is used, so that nothing is defined behind it;
  * `handleHTTPRequest`, with one definition for each response; the two programs have the same.
-/
import InpLabs.Lib.FileTree
import InpLabs.Lib.Traced
import InpLabs.Web.Url

namespace InpLabs.Web

open InpLabs.Lib Pathname

/-! ## 1. The request -/

/-- The string that `handleHTTPRequest` is called with, if it is: `server.c` closes a connection
on which nothing is received, `server_https.c` handles what its buffer holds. -/
def Program.request (program : Program) (received behind : Bytes) : Option Bytes :=
  if program = .plain ∧ received = [] then none
  else some (cString (program.urlDecode (cString (received ++ behind))))

/-! ## 2. The file tree -/

inductive Call where
  | stat (path : Bytes)
  | access (path : Bytes)
  | fopen (path : Bytes)
  deriving DecidableEq

def Call.path : Call → Bytes
  | .stat path => path
  | .access path => path
  | .fopen path => path

def stat (t : FileTree) (path : Bytes) : Traced Call (Option (Entry t.Node)) :=
  Traced.touch (.stat path) true (t.entryAt path)

/-- `access(path, F_OK)` -/
def access (t : FileTree) (path : Bytes) : Traced Call Bool :=
  Traced.touch (.access path) true (t.find path).isSome

/-- What `fread` gets from a file: the reading of a directory fails. -/
def readable {ν : Type} : Entry ν → Bytes
  | .file content => content
  | .dir _ => []

/-- `fopen`, and then `fseek`, `ftell` and `fread`. -/
def readFile (t : FileTree) (path : Bytes) : Traced Call Bytes :=
  Traced.touch (.fopen path) (t.entryAt path).isSome ((t.entryAt path).elim [] readable)

/-! ## 3. The responses -/

structure HttpResponse where
  statusCode : Nat
  statusDescription : Bytes
  content : Bytes
  contentType : Bytes
  location : Bytes
  contentLength : Nat
  deriving DecidableEq

def errorResponse (statusCode : Nat) (statusDescription content : Bytes) : HttpResponse where
  statusCode := statusCode
  statusDescription := statusDescription
  content := content
  contentType := ascii "text/html"
  location := []
  contentLength := content.length

def get501Response : HttpResponse :=
  errorResponse 501 (ascii "Not Implemented")
    (ascii "<html><body><h1>501 Not Implemented</h1></body></html>")

def get404Response : HttpResponse :=
  errorResponse 404 (ascii "Not Found") (ascii "<html><body><h1>404 Not Found</h1></body></html>")

def get403Response : HttpResponse :=
  errorResponse 403 (ascii "Forbidden") (ascii "<html><body><h1>403 Forbidden</h1></body></html>")

def get301Response (filePath : Bytes) : HttpResponse where
  statusCode := 301
  statusDescription := ascii "Moved Permanently"
  content := []
  contentType := ascii "text/html"
  location := filePath ++ [slash]
  contentLength := 0

/-- The type of a file goes by the first of these strings that its path contains (`strstr`). -/
def mimeType (path : Bytes) : Bytes :=
  if (find (ascii ".html") path).isSome then ascii "text/html"
  else if (find (ascii ".jpg") path).isSome then ascii "image/jpeg"
  else if (find (ascii ".mp3") path).isSome then ascii "audio/mpeg"
  else if (find (ascii ".png") path).isSome then ascii "image/png"
  else ascii "text/plain"

/-- Only `html/` is replaced by its index. -/
def get200Response (t : FileTree) (fullPath : Bytes) : Traced Call HttpResponse := do
  let path := if fullPath = ascii "html/" then ascii "html/index.html" else fullPath
  let content ← readFile t path
  pure
    { statusCode := 200
      statusDescription := ascii "OK"
      content := content
      contentType := mimeType path
      location := []
      contentLength := content.length }

/-! ## 4. The handler -/

/-- `snprintf(full_path, 270, "html%s", file_path)` -/
def fullPath (filePath : Bytes) : Bytes := (ascii "html" ++ filePath).take 269

/-- `snprintf(index_path, 300, "%s/index.html", full_path)` -/
def indexPath (fullPath : Bytes) : Bytes := (fullPath ++ ascii "/index.html").take 299

/-- Everything behind the test of the method. -/
def serve (t : FileTree) (filePath : Bytes) : Traced Call HttpResponse := do
  match ← stat t (fullPath filePath) with
  | none => pure get404Response
  | some (.file _) => get200Response t (fullPath filePath)
  | some (.dir _) =>
    if (fullPath filePath).getLast? ≠ some slash then pure (get301Response filePath)
    else if ← access t (indexPath (fullPath filePath)) then get200Response t (fullPath filePath)
    else pure get403Response

def handleHTTPRequest (t : FileTree) (arrays : Arrays) (request : Bytes) :
    Traced Call HttpResponse :=
  let (method, path) := scan arrays request
  if method ≠ ascii "GET" then pure get501Response else serve t (extractFilePath path)

/-- One connection: what is received on it is handled. -/
def handleClient (program : Program) (t : FileTree) (arrays : Arrays) (received behind : Bytes) :
    Traced Call (Option HttpResponse) :=
  match program.request received behind with
  | none => pure none
  | some request => do return some (← handleHTTPRequest t arrays request)

/-- What becomes of a connection whose request is handled. -/
theorem handleClient_some {program : Program} {t : FileTree} {arrays : Arrays}
    {received behind request : Bytes} (h : program.request received behind = some request) :
    handleClient program t arrays received behind =
      ⟨(handleHTTPRequest t arrays request).trace,
        (handleHTTPRequest t arrays request).result.map some⟩ := by
  unfold handleClient
  rw [h]
  exact Traced.bind_pure _ _

/-- `sendHTTPResponse`: the bytes it writes. -/
def sendHTTPResponse (r : HttpResponse) : Bytes :=
  let crlf := ascii "\r\n"
  let header := ascii "HTTP/1.0 " ++ ascii (toString r.statusCode) ++ ascii " " ++
    r.statusDescription ++ crlf ++ ascii "Content-Length: " ++ ascii (toString r.contentLength) ++
    crlf ++ ascii "Content-Type: " ++ r.contentType
  if r.statusCode = 301 then header ++ crlf ++ ascii "Location: " ++ r.location ++ crlf ++ crlf
  else header ++ ascii "; charset=utf-8" ++ crlf ++ crlf ++ r.content.take r.contentLength

end InpLabs.Web
