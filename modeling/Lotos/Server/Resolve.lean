import Lotos.Request.Path
import Lotos.Request.Reuse
import Lotos.Server.Delivery

/-!
# From the path to the resource

`request_handle_request_line` opens the path, and in a directory its `index.html`.  The test after the second `openat` is on
the descriptor of the directory, so that a directory without an `index.html` is not answered by 404; and the size of a file
passes through an `int`.  In every other case the resource is the selected file, and its size is what is announced and
what is sent.
-/

namespace Lotos

/-- The regular file that is to be sent. -/
def File.selected : File → Option (List Byte)
  | .regular content => some content
  | .dir _ index => index

/-- After the request line: the selected file is open, with its size, which is what is announced and what is sent. -/
structure Conn.Selected (c c' : Conn) (content : List Byte) : Prop where
  /-- a descriptor that has been opened, and not closed again -/
  fd : ∃ fd opened closed, c'.req.resourceFd = some fd ∧ c'.ghost.opened = c.ghost.opened ++ opened ∧
    c'.ghost.closed = c.ghost.closed ++ closed ∧ fd ∈ opened ∧ fd ∉ closed
  resource : c'.req.resource = content
  size : c'.req.resourceSize = content.length
  /-- of every later state of the request -/
  length : ∀ (env : Env) (d d' : Conn) (files : List SendResult), d.req.resource = c'.req.resource →
    d.req.resourceSize = c'.req.resourceSize → d.req.par.errReq = false → Benign files →
    responseHandleSendFile d files = (.ok, d') →
    d'.ghost.wire = d.ghost.wire ++ content ∧
      (d.req.responseAppendContentLength env).ob = d.req.ob ++
        (str "Content-Length: " ++ str (toString (content.length : ℤ)) ++ CRLF)

/-- What `request_handle_request_line` is to do with what `openat` has found. -/
def Conn.Resolved (env : Env) (c : Conn) (found : Option File) : Prop :=
  match found.bind File.selected with
  | none => ∃ c', requestHandleRequestLine env c = .ok (.ok, c') ∧ c'.ghost.answers = c.ghost.answers ++ [404]
  | some content =>
    ∃ c', requestHandleRequestLine env c = .ok (.ok, c') ∧ c'.ghost.answers = c.ghost.answers ∧ c.Selected c' content

section Resolve

variable {env : Env} {c : Conn} {ar : ParseArchive}

theorem sendfileCount_of_lt {n : ℕ} (h : n < 2 ^ 31) : sendfileCount n = n := by
  unfold sendfileCount
  omega

/-- What is announced and sent of a file of less than 2^31 bytes. -/
theorem selected_length {content : List Byte} (hlen : content.length < 2 ^ 31) (env : Env) {d d' : Conn}
    {files : List SendResult} (hres : d.req.resource = content) (hsize : d.req.resourceSize = content.length)
    (herr : d.req.par.errReq = false) (hfiles : Benign files) (hsend : responseHandleSendFile d files = (.ok, d')) :
    d'.ghost.wire = d.ghost.wire ++ content ∧
      (d.req.responseAppendContentLength env).ob =
        d.req.ob ++ (str "Content-Length: " ++ str (toString (content.length : ℤ)) ++ CRLF) := by
  constructor
  · have hcount : d.req.resource.length ≤ sendfileCount d.req.resourceSize := by
      rw [hres, hsize, sendfileCount_of_lt hlen]
    rcases responseHandleSendFile_spec d hfiles hcount with ⟨-, heq⟩ | ⟨-, -, heq⟩
    · rw [hsend] at heq
      cases heq
    · obtain ⟨-, rfl⟩ := Prod.ext_iff.mp (hsend.symm.trans heq)
      rw [← hres]
      rfl
  · simp only [Request.responseAppendContentLength, herr, hsize, Request.append]
    rfl

theorem openResource_file (c : Conn) {file : File} {content : List Byte} (hfile : file.selected = some content) :
    (∃ fd opened closed, (openResource c file).req.resourceFd = some fd ∧
        (openResource c file).ghost.opened = c.ghost.opened ++ opened ∧
        (openResource c file).ghost.closed = c.ghost.closed ++ closed ∧ fd ∈ opened ∧ fd ∉ closed) ∧
      (openResource c file).req.resource = content ∧ (openResource c file).req.resourceSize = toInt content.length := by
  rcases file with content | ⟨size, index⟩
  · cases hfile
    unfold openResource Conn.setResource
    simp only
    generalize toInt (content.length : ℤ) = n
    refine ⟨⟨c.nextFd, [c.nextFd], [], rfl, rfl, ?_, by simp, by simp⟩, rfl, rfl⟩
    exact (List.append_nil _).symm
  · obtain rfl : index = some content := hfile
    unfold openResource Conn.setResource
    simp only
    generalize toInt (content.length : ℤ) = n
    refine ⟨⟨c.nextFd + 1, [c.nextFd, c.nextFd + 1], [c.nextFd], rfl, ?_, rfl, by simp, by simp⟩, rfl, rfl⟩
    exact List.append_assoc _ _ _

theorem openResource_selected (c : Conn) {file : File} {content : List Byte} (hfile : file.selected = some content)
    (hlen : content.length < 2 ^ 31) : c.Selected (openResource c file) content := by
  have hint : toInt (content.length : ℤ) = content.length := toInt_eq (by omega) (by omega)
  obtain ⟨hfd, hres, hsize⟩ := openResource_file c hfile
  refine ⟨hfd, hres, hsize.trans hint, ?_⟩
  intro env d d' files hres' hsize'
  exact selected_length hlen env (hres'.trans hres) (hsize'.trans (hsize.trans hint))

theorem toInt_length_eq {n : ℕ} (h : toInt n = n) : n < 2 ^ 31 := by
  rw [toInt, Int.bmod_def] at h
  split_ifs at h <;> omega

theorem requestLine_found (hc : c.AtLine) (hp : parseRequestLine c.req.ib c.req.par = (.ok, ar))
    (hversion : ar.version.httpMajor ≤ 1 ∧ ar.version.httpMinor ≤ 1) {b : ℕ} (hb : ar.url.absPath.str = .buf b) :
    ∃ path p, openatPath c.req.ib ar = some path ∧ requestHandleRequestLine env c =
      match env.openat path with
      | none => .ok (responseAssembleErrBuffer env ((c.mapPar fun _ => ar).acceptVersion.closePath p) 404)
      | some file => .ok (.ok, openResource ((c.mapPar fun _ => ar).acceptVersion.closePath p) file) := by
  obtain ⟨p, hend⟩ := Option.ne_none_iff_exists'.mp ((hc.path hp).1 b hb)
  have hpath : openatPath c.req.ib ar = some (relativePath (c.req.ib.set p NUL) b ar.url.absPath.len) := by
    rw [openatPath, hb]
    simp only [hend, Option.map_some]
  obtain ⟨p', hopen⟩ := @requestHandlePath_openat (c.mapPar fun _ => ar).acceptVersion _ hpath
  exact ⟨_, p', hpath, (requestLine_path hp hversion env).trans (hopen env)⟩

/-- **Resource resolution.**  For every accepted request line with a path, and every file system, the request is answered by
404 exactly if the path is absent or a directory without an `index.html`, and otherwise the selected file is left open with
its size, if and only if the path is no directory without an `index.html` and the selected file is of less than 2^31
bytes. -/
theorem resolved_iff (env : Env) (c : Conn) (ar : ParseArchive) (hc : c.AtLine)
    (hp : parseRequestLine c.req.ib c.req.par = (.ok, ar)) (hversion : ar.version.httpMajor ≤ 1 ∧ ar.version.httpMinor ≤ 1)
    (b : ℕ) (hb : ar.url.absPath.str = .buf b) :
    ∃ path, openatPath c.req.ib ar = some path ∧
      (c.Resolved env (env.openat path) ↔ (∀ size, env.openat path ≠ some (.dir size none)) ∧
        ∀ content, (env.openat path).bind File.selected = some content → content.length < 2 ^ 31) := by
  obtain ⟨path, p, hpath, heq⟩ := @requestLine_found env c ar hc hp hversion b hb
  refine ⟨path, hpath, ?_⟩
  set c₁ := (c.mapPar fun _ => ar).acceptVersion.closePath p with hc₁
  unfold Conn.Resolved
  rw [heq]
  rcases env.openat path with _ | file
  · -- absent
    refine iff_of_true ⟨(responseAssembleErrBuffer env c₁ 404).2, rfl, ?_⟩ ⟨nofun, nofun⟩
    rw [assembleErr_eq]
    rfl
  · have hframe := openResource_frame c₁ file
    have hanswers : (openResource c₁ file).ghost.answers = c.ghost.answers := by rw [hframe.ghost]; rfl
    simp only [Option.bind_some]
    cases hfile : file.selected with
    | none =>
      -- a directory without an `index.html`
      obtain ⟨size, rfl⟩ : ∃ size, file = .dir size none := by
        rcases file with content | ⟨size, _ | content⟩
        · cases hfile
        · exact ⟨size, rfl⟩
        · cases hfile
      refine iff_of_false ?_ fun h => h.1 size rfl
      rintro ⟨c', hok, hans⟩
      cases hok
      rw [hanswers] at hans
      have hlength := congrArg List.length hans
      simp at hlength
    | some content =>
      have hdir : ∀ size, some file ≠ some (File.dir size none) := by
        rintro size ⟨⟩
        cases hfile
      constructor
      · rintro ⟨c', hok, -, hsel⟩
        cases hok
        refine ⟨hdir, ?_⟩
        rintro _ ⟨⟩
        exact toInt_length_eq ((openResource_file c₁ hfile).2.2.symm.trans hsel.size)
      · rintro ⟨-, hlen⟩
        have hsel := openResource_selected c₁ hfile (hlen content rfl)
        exact ⟨_, rfl, hanswers, hsel.fd, hsel.resource, hsel.size, hsel.length⟩

/-- A connection that has received these bytes. -/
def Conn.received (bs : List Byte) : Conn := (ConnState.accept 4 0).conn.receive bs

theorem received_atLine (bs : List Byte) : (Conn.received bs).AtLine := (fresh_atLine rfl rfl).receive bs

/-- The archive after a request line. -/
def getRoot : ParseArchive := (parseRequestLine (str "GET / HTTP/1.1\r\n") parseArchiveInit).2

theorem parse_getRoot : parseRequestLine (Conn.received (str "GET / HTTP/1.1\r\n")).req.ib
    (Conn.received (str "GET / HTTP/1.1\r\n")).req.par = (.ok, getRoot) := by
  have hstatus : (parseRequestLine (str "GET / HTTP/1.1\r\n") parseArchiveInit).1 = .ok := by decide +kernel
  exact Prod.ext hstatus rfl

/-- A file. -/
theorem resolved_iff_file : ∃ path, openatPath (str "GET / HTTP/1.1\r\n") getRoot = some path ∧
    ((Conn.received (str "GET / HTTP/1.1\r\n")).Resolved (.page (str "hello")) (some (.regular (str "hello"))) ↔
      (∀ size, some (File.regular (str "hello")) ≠ some (.dir size none)) ∧
        ∀ content, (some (File.regular (str "hello"))).bind File.selected = some content → content.length < 2 ^ 31) :=
  resolved_iff (.page (str "hello")) (.received (str "GET / HTTP/1.1\r\n")) getRoot (received_atLine _) parse_getRoot
    (by decide +kernel) 4 (by decide +kernel)

/-- A directory without an `index.html`. -/
theorem not_forall_resolved :
    ¬ ∀ (env : Env) (c : Conn) (ar : ParseArchive) (b : ℕ), c.AtLine → parseRequestLine c.req.ib c.req.par = (.ok, ar) →
      ar.version.httpMajor ≤ 1 ∧ ar.version.httpMinor ≤ 1 → ar.url.absPath.str = .buf b →
      ∃ path, openatPath c.req.ib ar = some path ∧ c.Resolved env (env.openat path) := by
  intro hall
  obtain ⟨path, -, hres⟩ := hall ⟨fun _ => some (.dir 4096 none), [], ⟨[], [], []⟩⟩
    (.received (str "GET / HTTP/1.1\r\n")) getRoot 4 (received_atLine _) parse_getRoot
    (by decide +kernel) (by decide +kernel)
  obtain ⟨c', hok, hans⟩ := hres
  have hanswers : (requestHandleRequestLine ⟨fun _ => some (.dir 4096 none), [], ⟨[], [], []⟩⟩
      (.received (str "GET / HTTP/1.1\r\n"))).toOption.map (fun res => res.2.ghost.answers) = some [] := by decide +kernel
  rw [hok] at hanswers
  have hnone : c'.ghost.answers = [] := Option.some.inj hanswers
  rw [hnone] at hans
  cases hans

end Resolve

end Lotos
