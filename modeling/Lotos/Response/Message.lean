import Lotos.Lib.Framing
import Lotos.Buffer.Defs
import Lotos.Request.Arrival
import Lotos.Request.ErrPage

/-!
# Responses as messages

A client reads a response without knowing how it was sent: the head up to the empty line, and then as many bytes as its
`Content-Length` announces.  `Response` is what a response says; its parts have no line ends in them, so that it is a message
that ends by itself (`responseCodec`).  What the functions `response_append_*` append is the encoding of such a response, if
the length that they announce is the length of what is sent after the head.
-/

namespace Lotos

/-! ### What a response says -/

/-- The key of the line that announces the length. -/
def lengthKey : List Byte := str "Content-Length: "

/-- The length that a line announces. -/
def announcedBy (line : List Byte) : Option ℕ :=
  if lengthKey <+: line ∧ ∀ d ∈ line.drop lengthKey.length, isDigit d = true then some (decimal (line.drop lengthKey.length))
  else none

/-- The length that a head announces. -/
def announced (head : List (List Byte)) : Option ℕ := head.findSome? announcedBy

/-- **The client's side**: messages with a head of lines, and the body that the head announces. -/
def responseCodec : Framing.Codec (Framing.Message CR announced) Byte := Framing.messageCodec CR LF announced

structure Response where
  minor : ℕ
  /-- the code and its text -/
  status : List Byte
  date : List Byte
  contentType : List Byte
  keepAlive : Bool
  body : List Byte
  clean : CR ∉ status ∧ CR ∉ date ∧ CR ∉ contentType

def Response.head (m : Response) : List (List Byte) := [
  (if m.minor = 1 then str "HTTP/1.1 " else str "HTTP/1.0 ") ++ m.status,
  str "Date: " ++ m.date,
  str "Server: lotos/0.1",
  str "Content-Type: " ++ m.contentType,
  lengthKey ++ str (toString (m.body.length : ℤ)),
  if m.keepAlive then str "Connection: keep-alive" else str "Connection: close"]

theorem announcedBy_other {line rest : List Byte} (h : ¬ lengthKey <+: line ∧ ¬ line <+: lengthKey) :
    announcedBy (line ++ rest) = none := by
  refine if_neg ?_
  rintro ⟨hpre, -⟩
  rcases List.prefix_or_prefix_of_prefix hpre (List.prefix_append line rest) with hpre | hpre
  · exact h.1 hpre
  · exact h.2 hpre

theorem announcedBy_length (n : ℕ) : announcedBy (lengthKey ++ str (toString (n : ℤ))) = some n := by
  obtain ⟨hdigits, hval⟩ := decimal_toString n
  have hdrop : (lengthKey ++ str (toString (n : ℤ))).drop lengthKey.length = str (toString (n : ℤ)) := List.drop_left
  rw [announcedBy, hdrop, if_pos ⟨List.prefix_append _ _, hdigits⟩, hval]

theorem Response.announced (m : Response) : announced m.head = some m.body.length := by
  have hstatus : announcedBy ((if m.minor = 1 then str "HTTP/1.1 " else str "HTTP/1.0 ") ++ m.status) = none := by
    split_ifs
    · exact announcedBy_other (by decide +kernel)
    · exact announcedBy_other (by decide +kernel)
  have hdate : announcedBy (str "Date: " ++ m.date) = none := announcedBy_other (by decide +kernel)
  have hserver : announcedBy (str "Server: lotos/0.1") = none := by decide +kernel
  have htype : announcedBy (str "Content-Type: " ++ m.contentType) = none := announcedBy_other (by decide +kernel)
  simp only [Lotos.announced, Response.head, List.findSome?_cons, hstatus, hdate, hserver, htype, announcedBy_length]

theorem Response.lines (m : Response) : ∀ l ∈ m.head, l ≠ [] ∧ CR ∉ l := by
  have hline {key rest : List Byte} (hne : key ≠ []) (hkey : CR ∉ key) (hrest : CR ∉ rest) : key ++ rest ≠ [] ∧
      CR ∉ key ++ rest := by
    refine ⟨List.append_ne_nil_of_left_ne_nil hne _, ?_⟩
    rw [List.mem_append, not_or]
    exact ⟨hkey, hrest⟩
  obtain ⟨hstatus, hdate, htype⟩ := m.clean
  have hlength : CR ∉ str (toString (m.body.length : ℤ)) := by
    intro hmem
    exact absurd ((decimal_toString m.body.length).1 CR hmem) (by decide)
  simp only [Response.head, List.forall_mem_cons, List.not_mem_nil, false_implies, implies_true, and_true]
  refine ⟨?_, hline (by decide +kernel) (by decide +kernel) hdate, by decide +kernel,
    hline (by decide +kernel) (by decide +kernel) htype, hline (by decide +kernel) (by decide +kernel) hlength, ?_⟩
  · split_ifs
    · exact hline (by decide +kernel) (by decide +kernel) hstatus
    · exact hline (by decide +kernel) (by decide +kernel) hstatus
  · split_ifs
    · decide +kernel
    · decide +kernel

/-- A response is a message: it ends by itself. -/
def Response.message (m : Response) : Framing.Message CR Lotos.announced := ⟨m.head, m.body, m.lines, m.announced⟩

/-- **The functions `response_append_*` write a response.** -/
theorem Response.encode (m : Response) : responseCodec.encode m.message =
    appendedBy [.statusLine m.minor (some m.status), .date (str "Date: " ++ m.date ++ CRLF), .server,
        .contentType m.contentType, .contentLength m.body.length, .connection m.keepAlive, .crlf] ++ m.body := by
  have hserver : str "Server: lotos/0.1" = str "Server: " ++ str "lotos/0.1" := by decide +kernel
  simp only [responseCodec, Framing.messageCodec, Response.message, Response.head, Framing.joinLines, List.flatMap_cons,
    List.flatMap_nil, appendedBy, hserver, Helper.pieces, Option.toList_some, List.flatten_cons, List.flatten_nil, lengthKey,
    CRLF, List.append_nil, List.append_assoc, List.cons_append, List.nil_append]

/-! ### What the request provides -/

/-- The line that `strftime` writes is a header line. -/
structure Env.Dated (env : Env) (date : List Byte) : Prop where
  line : env.date = str "Date: " ++ date ++ CRLF
  clean : CR ∉ date

/-- The code and its text. -/
def statusText (code : ℕ) : List Byte := (statusTable code).getD []

/-- The error page of a code. -/
def ErrPage.of (page : ErrPage) (code : ℕ) : List Byte := page.render ((statusTable code).getD (str "(null)"))

/-- The error pages are C strings, and fit into `rendered_err_page`. -/
structure ErrPage.Fits (page : ErrPage) : Prop where
  pre : NUL ∉ page.pre
  post : NUL ∉ page.post
  ends : page.Ends
  length : ∀ code, (page.of code).length < bufsiz

theorem statusTable_all {P : List Byte → Prop} (htable : ∀ e ∈ statusMap, P (str (toString e.1) ++ SP :: str e.2))
    {default : List Byte} (hdefault : P default) (code : ℕ) : P ((statusTable code).getD default) := by
  cases h : statusTable code with
  | none => exact hdefault
  | some status =>
    obtain ⟨text, hlookup, rfl⟩ := Option.map_eq_some_iff.mp h
    obtain ⟨l₁, l₂, hmap, -⟩ := List.lookup_eq_some_iff.mp hlookup
    exact htable (code, text) (by rw [hmap]; simp)

theorem statusTable_length (code : ℕ) : ((statusTable code).getD (str "(null)")).length ≤ 100 :=
  statusTable_all (P := fun status => status.length ≤ 100) (by decide +kernel) (by decide +kernel) code

theorem statusText_clean (code : ℕ) : CR ∉ statusText code :=
  statusTable_all (P := fun status => CR ∉ status) (by decide +kernel) (by decide +kernel) code

/-- The type of a resource, by its extension. -/
def mimeTypeOf (extension : List Byte) : List Byte :=
  ((mimeList.reverse.find? fun e => str e.1 = extension).map fun e => str e.2).getD (str "text/html")

theorem mimeTypeOf_clean (extension : List Byte) : CR ∉ mimeTypeOf extension := by
  have htable : ∀ e ∈ mimeList, CR ∉ str e.2 := by decide +kernel
  unfold mimeTypeOf
  cases h : mimeList.reverse.find? fun e => str e.1 = extension with
  | none => exact (by decide +kernel : CR ∉ str "text/html")
  | some e => exact htable e (List.mem_reverse.mp (List.mem_of_find?_eq_some h))

/-- `dict_get(&mime_dict, …)` and the default. -/
theorem mimeDict_type (data : List Byte) (s : Ssstr) : (dictGet data mimeDict s).getD (str "text/html") =
    if s.str = .null then str "text/html" else mimeTypeOf (s.bytes data) := by
  have hinit : dictGet data (Dict.init : Dict (List Byte)) s = none := by simp [dictGet, Dict.init]
  rw [mimeDict_eq]
  split_ifs with hnull
  · rw [dictGet_foldl_null _ _ _ hnull hinit]
    rfl
  · rw [dictGet_foldl _ _ _ hnull, hinit, Option.or_none, ← List.map_reverse, List.find?_map, Option.map_map]
    rfl

theorem contentType_clean (data : List Byte) (s : Ssstr) : CR ∉ (dictGet data mimeDict s).getD (str "text/html") := by
  rw [mimeDict_type]
  split_ifs
  · decide +kernel
  · exact mimeTypeOf_clean _

end Lotos
