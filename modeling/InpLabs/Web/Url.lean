/-
  File:      InpLabs/Web/Url.lean
  Subject:   From the bytes of a request to a method and a path (homework1: utils.c, utils_https.c).

  * `urlDecode`: in the two versions that the servers have; `decode_induction`: a string is empty,
    or begins with an escape, or with a character that is not decoded;
  * `scan`: `sscanf(request, "%9s %255s", method, path)`. What it does not assign keeps what the
    two arrays held before, and they are not initialised (`Arrays`);
  * `extractFilePath`: the query string is cut off.
-/
import InpLabs.Lib.Cxx

namespace InpLabs.Web

open InpLabs.Lib

/-! ## 1. Decoding -/

def isxdigit (c : UInt8) : Bool := isdigit c || (65 ≤ c && c ≤ 70) || (97 ≤ c && c ≤ 102)

/-- The value of a hexadecimal digit. -/
def hexValue (c : UInt8) : UInt8 :=
  if isdigit c then c - 48 else if c ≤ 70 then c - 55 else c - 87

/-- The loop of `urlDecode`; `other` is what becomes of a character that is not decoded. -/
def decodeLoop (other : UInt8 → UInt8) : Bytes → Bytes
  | [] => []
  | 37 :: a :: b :: url =>
    if isxdigit a && isxdigit b then
      (16 * hexValue a + hexValue b) :: decodeLoop other url
    else other 37 :: decodeLoop other (a :: b :: url)
  | c :: url => other c :: decodeLoop other url

/-- The two programs: `server.c` with `utils.c`, and `server_https.c` with `utils_https.c`. -/
inductive Program where
  | plain
  | https
  deriving DecidableEq

/-- `urlDecode`: in `utils.c` a plus sign stands for a space. -/
def Program.urlDecode : Program → Bytes → Bytes
  | .plain => decodeLoop fun c => if c = 43 then 32 else c
  | .https => decodeLoop id

/-- A percent sign before `t` begins no escape. -/
def Malformed (t : Bytes) : Prop := ∀ a b u, t = a :: b :: u → (isxdigit a && isxdigit b) = false

section Decoding

variable {other : UInt8 → UInt8} {a b c : UInt8} {url : Bytes}

theorem decodeLoop_escape (h : (isxdigit a && isxdigit b) = true) :
    decodeLoop other (37 :: a :: b :: url) =
      (16 * hexValue a + hexValue b) :: decodeLoop other url := by
  rw [decodeLoop, if_pos h]

theorem decodeLoop_literal (h : c = 37 → Malformed url) :
    decodeLoop other (c :: url) = other c :: decodeLoop other url := by
  by_cases hescape : ∃ a b u, c = 37 ∧ url = a :: b :: u
  · obtain ⟨a, b, u, rfl, rfl⟩ := hescape
    rw [decodeLoop, if_neg (by simp only [h rfl a b u rfl, Bool.false_eq_true, not_false_eq_true])]
  · rw [decodeLoop]
    exact fun a b u hc hurl => hescape ⟨a, b, u, hc, hurl⟩

theorem decode_induction {motive : Bytes → Prop} (nil : motive [])
    (escape : ∀ a b url, (isxdigit a && isxdigit b) = true → motive url →
      motive (37 :: a :: b :: url))
    (literal : ∀ c url, (c = 37 → Malformed url) → motive url → motive (c :: url)) (url : Bytes) :
    motive url := by
  induction url using decodeLoop.induct with
  | case1 => exact nil
  | case2 a b url h ih => exact escape a b url h ih
  | case3 a b url h ih =>
    refine literal 37 _ (fun _ a' b' u heq => ?_) ih
    cases heq
    exact eq_false_of_ne_true h
  | case4 c url h ih => exact literal c url (fun hc a b u hurl => (h a b u hc hurl).elim) ih

end Decoding

/-! ## 2. The request line -/

/-- The strings in `char method[10]` and `char path[256]` before anything is assigned. -/
structure Arrays where
  method : Bytes
  path : Bytes

/-- `sscanf(request, "%9s %255s", method, path)`. -/
def scan (arrays : Arrays) (request : Bytes) : Bytes × Bytes :=
  let line := request.dropWhile isspace
  if line = [] then (arrays.method, arrays.path)
  else
    let method := (line.takeWhile (!isspace ·)).take 9
    let rest := (line.drop method.length).dropWhile isspace
    if rest = [] then (method, arrays.path)
    else (method, (rest.takeWhile (!isspace ·)).take 255)

/-- `extractFilePath`: the path up to the question mark. -/
def extractFilePath (path : Bytes) : Bytes := path.takeWhile (· != 63)

/-! ## 3. What is assigned -/

section Scan

variable {arrays : Arrays} {request method path : Bytes} {ws : List Bytes}

/-- The method is the first word, cut to nine bytes. -/
theorem scan_method (h : tokenize request = method :: ws) :
    (scan arrays request).1 = method.take 9 := by
  unfold scan
  dsimp only
  rw [if_neg (dropWhile_ne_nil h), (words_eq_cons h).1]
  split <;> rfl

/-- The path is the second word, cut to 255 bytes. -/
theorem scan_path (h : tokenize request = method :: path :: ws) (hm : method.length ≤ 9) :
    (scan arrays request).2 = path.take 255 := by
  obtain ⟨hfirst, hrest⟩ := words_eq_cons h
  unfold scan
  dsimp only
  rw [if_neg (dropWhile_ne_nil h), hfirst, List.take_of_length_le hm,
    if_neg (dropWhile_ne_nil hrest), (words_eq_cons hrest).1]

end Scan

end InpLabs.Web
