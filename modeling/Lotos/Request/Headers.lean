import Lotos.Request.Frame

/-!
# What a header line does

`lineKind` says what kind of line the handlers of `hf_list` take a complete header for, `LineKind.record` what they write
into the archive, and `LineKind.answer` with which error they answer it, if they do.  `handleHeader_eq` is the one
statement about the handlers that the rest uses.
-/

namespace Lotos

/-! ### The dictionary of the handlers -/

/-- The entry of `hf_list` for a name. -/
def headerEntry (name : List Byte) : Option (HeaderFunc × HeaderSlot) :=
  (hfList.reverse.find? fun e => str e.1 = name).map Prod.snd

theorem ofConst_bytes (data c : List Byte) : (Ssstr.ofConst c).bytes data = c := by
  simp [Ssstr.ofConst, Ssstr.bytes]

theorem dictPut_const {V : Type} (data : List Byte) (d : Dict V) (c : List Byte) (v : V) :
    dictPut [] d (.ofConst c) v = dictPut data d (.ofConst c) v := by
  unfold dictPut
  rw [ofConst_bytes, ofConst_bytes]

/-- Looking a name up among constants put into a dictionary one after the other: the last of them that is equal to it. -/
theorem dictGet_foldl {V : Type} (data : List Byte) (entries : List (String × V)) (d : Dict V) {key : Ssstr}
    (hkey : key.str ≠ .null) :
    dictGet data (entries.foldl (fun d e => dictPut [] d (.ofConst (str e.1)) e.2) d) key =
      ((entries.reverse.find? fun e => str e.1 = key.bytes data).map Prod.snd).or (dictGet data d key) := by
  induction entries generalizing d with
  | nil => rfl
  | cons e es ih =>
    rw [List.foldl_cons, ih, dictPut_const data, dictGet_dictPut _ (by simp [Ssstr.ofConst]), List.reverse_cons,
      List.find?_append, Option.map_or, Option.or_assoc]
    congr 1
    by_cases hcmp : ssstrCmp data (.ofConst (str e.1)) key = 0
    · have hbytes := ((ssstrCmp_eq_zero (by simp [Ssstr.ofConst])).mp hcmp).2
      rw [ofConst_bytes] at hbytes
      rw [if_pos hcmp]
      simp [hbytes]
    · have hbytes : ¬ str e.1 = key.bytes data := by
        intro heq
        refine hcmp ((ssstrCmp_eq_zero (by simp [Ssstr.ofConst])).mpr ⟨hkey, ?_⟩)
        rw [ofConst_bytes, heq]
      rw [if_neg hcmp]
      simp [hbytes]

theorem dictGet_headerHandlerDict (data : List Byte) {key : Ssstr} (hkey : key.str ≠ .null) :
    dictGet data headerHandlerDict key = headerEntry (key.bytes data) := by
  unfold headerHandlerDict headerEntry
  rw [dictGet_foldl data hfList .init hkey]
  simp [dictGet, Dict.init]

theorem dictGet_foldl_null {V : Type} (data : List Byte) (entries : List (String × V)) (d : Dict V) {key : Ssstr}
    (hkey : key.str = .null) (hd : dictGet data d key = none) :
    dictGet data (entries.foldl (fun d e => dictPut [] d (.ofConst (str e.1)) e.2) d) key = none := by
  induction entries generalizing d with
  | nil => exact hd
  | cons e es ih =>
    refine ih _ ?_
    simp only
    rw [dictPut_const data, dictGet_dictPut _ (by simp [Ssstr.ofConst]), if_neg, hd]
    rw [ssstrCmp_eq_zero (by simp [Ssstr.ofConst])]
    exact fun h => h.1 hkey

theorem dictGet_headerHandlerDict_null (data : List Byte) {key : Ssstr} (hkey : key.str = .null) :
    dictGet data headerHandlerDict key = none :=
  dictGet_foldl_null data hfList .init hkey (by simp [dictGet, Dict.init])

/-- Looking a name up among constants reads the bytes of the name, and nothing after the buffer. -/
theorem dictGet_foldl_append {V : Type} {data : List Byte} (more : List Byte) (entries : List (String × V)) {key : Ssstr}
    (hkey : key.InBounds data.length) :
    dictGet (data ++ more) (entries.foldl (fun d e => dictPut [] d (.ofConst (str e.1)) e.2) .init) key =
      dictGet data (entries.foldl (fun d e => dictPut [] d (.ofConst (str e.1)) e.2) .init) key := by
  have hinit : ∀ data, dictGet data (Dict.init (V := V)) key = none := fun data => by simp [dictGet, Dict.init]
  by_cases hnull : key.str = .null
  · rw [dictGet_foldl_null _ _ _ hnull (hinit _), dictGet_foldl_null _ _ _ hnull (hinit _)]
  · rw [dictGet_foldl _ _ _ hnull, dictGet_foldl _ _ _ hnull, bytes_append more hkey, hinit, hinit]

theorem headerEntry_mem {name : List Byte} {x : HeaderFunc × HeaderSlot} (h : headerEntry name = some x) :
    ∃ e ∈ hfList, str e.1 = name ∧ e.2 = x := by
  unfold headerEntry at h
  obtain ⟨e, he, rfl⟩ := Option.map_eq_some_iff.mp h
  exact ⟨e, List.mem_reverse.mp (List.mem_of_find?_eq_some he), by simpa using List.find?_some he, rfl⟩

/-- The handlers other than `request_handle_hd_base` stand in the table once each, with their own slot. -/
theorem hfList_special : ∀ e ∈ hfList,
    (e.2.1 = .connection → e = ("connection", .connection, .connection)) ∧
    (e.2.1 = .contentLength → e = ("content-length", .contentLength, .contentLength)) ∧
    (e.2.1 = .transferEncoding → e = ("transfer-encoding", .transferEncoding, .transferEncoding)) := by
  decide +kernel

theorem headerEntry_slot {name : List Byte} {func : HeaderFunc} {slot : HeaderSlot}
    (h : headerEntry name = some (func, slot)) :
    (func = .connection → slot = .connection) ∧ (func = .contentLength → slot = .contentLength) ∧
      (func = .transferEncoding → slot = .transferEncoding) := by
  obtain ⟨e, he, -, hx⟩ := headerEntry_mem h
  obtain ⟨hconn, hlen, hcoding⟩ := hfList_special e he
  rw [hx] at hconn hlen hcoding
  have hslot : ∀ {name' : String} {func' : HeaderFunc} {slot' : HeaderSlot}, e = (name', func', slot') → slot = slot' := by
    rintro name' func' slot' rfl
    exact (Prod.ext_iff.mp hx).2.symm
  exact ⟨fun hf => hslot (hconn hf), fun hf => hslot (hlen hf), fun hf => hslot (hcoding hf)⟩

/-! ### The kinds of lines -/

inductive LineKind where
  /-- no entry for the name -/
  | unknown
  | plain (slot : HeaderSlot)
  | keepAlive
  | close
  | length (n : ℤ)
  | badConnection
  | badLength
  | coding (te : TransferEncoding)
  | badCoding
  deriving DecidableEq, Repr

/-- The coding that a value of `Transfer-Encoding` begins with. -/
def codingOf (data : List Byte) (val : Ssstr) : LineKind :=
  if ssstrCaseequal data val (str "chunked") then .coding .chunked
  else if ssstrCaseequal data val (str "compress") then .coding .compress
  else if ssstrCaseequal data val (str "deflate") then .coding .deflate
  else if ssstrCaseequal data val (str "gzip") then .coding .gzip
  else if ssstrCaseequal data val (str "identity") then .coding .identity
  else .badCoding

/-- What a handler of `hf_list` takes a value for. -/
def HeaderFunc.kind (data : List Byte) (val : Ssstr) (slot : HeaderSlot) : HeaderFunc → LineKind
  | .base => .plain slot
  | .connection =>
    if ssstrCaseequal data val (str "keep-alive") then .keepAlive
    else if ssstrCaseequal data val (str "close") then .close
    else .badConnection
  | .contentLength => if atoi (val.mem data) ≤ 0 then .badLength else .length (atoi (val.mem data))
  | .transferEncoding => codingOf data val

/-- What kind of line a name, already in lower case, and a value make. -/
def lineKind (data name : List Byte) (val : Ssstr) : LineKind :=
  match headerEntry name with
  | none => .unknown
  | some (func, slot) => func.kind data val slot

/-- What the handlers write into the archive. -/
def LineKind.record (k : LineKind) (ar : ParseArchive) : ParseArchive :=
  let set (slot : HeaderSlot) : ParseArchive := { ar with reqHeaders := Function.update ar.reqHeaders slot ar.headerVal }
  match k with
  | .unknown => ar
  | .plain slot => set slot
  | .keepAlive => { set .connection with keepAlive := true }
  | .close => { set .connection with keepAlive := false }
  | .length n => { set .contentLength with contentLength := n }
  | .badConnection => set .connection
  | .badLength => set .contentLength
  | .coding te => { set .transferEncoding with transferEncoding := te }
  | .badCoding => set .transferEncoding

/-- The error with which the handlers answer. -/
def LineKind.answer : LineKind → Option ℕ
  | .badConnection | .badLength | .badCoding => some 400
  | .coding _ => some 501
  | _ => none

/-- The name in the buffer in lower case. -/
def Conn.lowerName (c : Conn) : Conn := c.mapReq fun r => { r with ib := ssstrTolower r.ib r.par.headerName }

/-- The kind of the line that an archive holds. -/
def kindOf (data : List Byte) (ar : ParseArchive) : LineKind :=
  if ar.headerName.str = .null then .unknown else lineKind data (ar.headerName.bytes data) ar.headerVal

def Conn.kind (c : Conn) : LineKind := kindOf c.req.ib c.req.par

/-- The end of a handler: an answer, or none. -/
def finishHeader (env : Env) (c : Conn) : Option ℕ → Status × Conn
  | none => (.ok, c)
  | some code => responseAssembleErrBuffer env c code

theorem hdBase_headers (c : Conn) (slot : HeaderSlot) :
    (requestHandleHdBase c slot).req.par.reqHeaders slot = c.req.par.headerVal := Function.update_self _ _ _

section Call

variable (env : Env) (c : Conn)

theorem hdConnection_eq : requestHandleHdConnection env c .connection =
    let k := HeaderFunc.kind c.req.ib c.req.par.headerVal .connection .connection
    finishHeader env (c.mapPar k.record) k.answer := by
  unfold requestHandleHdConnection
  simp only [hdBase_headers, hdBase_ib, HeaderFunc.kind]
  split_ifs <;> rfl

theorem hdContentLength_eq : requestHandleHdContentLength env c .contentLength =
    let k := HeaderFunc.kind c.req.ib c.req.par.headerVal .contentLength .contentLength
    finishHeader env (c.mapPar k.record) k.answer := by
  unfold requestHandleHdContentLength
  simp only [hdBase_headers, hdBase_ib, HeaderFunc.kind]
  split_ifs <;> rfl

theorem hdTransferEncoding_eq : requestHandleHdTransferEncoding env c .transferEncoding =
    let k := HeaderFunc.kind c.req.ib c.req.par.headerVal .transferEncoding .transferEncoding
    finishHeader env (c.mapPar k.record) k.answer := by
  unfold requestHandleHdTransferEncoding
  simp only [hdBase_headers, hdBase_ib, HeaderFunc.kind, codingOf]
  split_ifs <;> rfl

/-- **What a complete header does**: it is recorded, and answered if it is not acceptable. -/
theorem handleHeader_eq : handleHeader env c =
    finishHeader env (c.lowerName.mapPar c.lowerName.kind.record) c.lowerName.kind.answer := by
  change (match dictGet c.lowerName.req.ib headerHandlerDict c.lowerName.req.par.headerName with
    | none => (Status.ok, c.lowerName)
    | some (func, slot) => func.call env c.lowerName slot) = _
  unfold Conn.kind kindOf
  by_cases hname : c.lowerName.req.par.headerName.str = .null
  · rw [if_pos hname, dictGet_headerHandlerDict_null _ hname]
    rfl
  rw [if_neg hname, dictGet_headerHandlerDict _ hname]
  unfold lineKind
  cases hentry : headerEntry (c.lowerName.req.par.headerName.bytes c.lowerName.req.ib) with
  | none => rfl
  | some x =>
    obtain ⟨func, slot⟩ := x
    obtain ⟨hconn, hlen, hcoding⟩ := headerEntry_slot hentry
    cases func with
    | base => rfl
    | connection =>
      obtain rfl := hconn rfl
      exact hdConnection_eq env c.lowerName
    | contentLength =>
      obtain rfl := hlen rfl
      exact hdContentLength_eq env c.lowerName
    | transferEncoding =>
      obtain rfl := hcoding rfl
      exact hdTransferEncoding_eq env c.lowerName

end Call

/-! ### Steps that answer nothing -/

/-- Only the buffer and the parsed data change, and the recorded headers. -/
structure Conn.Quiet (c c' : Conn) : Prop where
  epollIn : c'.epollIn = c.epollIn
  epollOut : c'.epollOut = c.epollOut
  nextFd : c'.nextFd = c.nextFd
  ghost : c'.ghost = c.ghost
  req : c'.req = { c.req with ib := c'.req.ib, par := c'.req.par }
  bufferSent : c'.req.par.bufferSent = c.req.par.bufferSent
  responseDone : c'.req.par.responseDone = c.req.par.responseDone
  errReq : c'.req.par.errReq = c.req.par.errReq

theorem Conn.Quiet.trans {c₁ c₂ c₃ : Conn} (h₁ : c₁.Quiet c₂) (h₂ : c₂.Quiet c₃) : c₁.Quiet c₃ where
  epollIn := h₂.epollIn.trans h₁.epollIn
  epollOut := h₂.epollOut.trans h₁.epollOut
  nextFd := h₂.nextFd.trans h₁.nextFd
  ghost := h₂.ghost.trans h₁.ghost
  req := by
    rw [h₂.req, h₁.req]
  bufferSent := h₂.bufferSent.trans h₁.bufferSent
  responseDone := h₂.responseDone.trans h₁.responseDone
  errReq := h₂.errReq.trans h₁.errReq

theorem quiet_parse {c : Conn} {ar : ParseArchive} (h : ar.owned = c.req.par.owned) : c.Quiet (c.mapPar fun _ => ar) :=
  ⟨rfl, rfl, rfl, rfl, rfl, congrArg Owned.bufferSent h, congrArg Owned.responseDone h, congrArg Owned.errReq h⟩

theorem quiet_path (c : Conn) (p : ℕ) : c.Quiet (c.acceptVersion.closePath p) :=
  ⟨rfl, rfl, rfl, rfl, rfl, rfl, rfl, rfl⟩

theorem quiet_record (c : Conn) (k : LineKind) : c.Quiet (c.lowerName.mapPar k.record) := by
  cases k <;> exact ⟨rfl, rfl, rfl, rfl, rfl, rfl, rfl, rfl⟩

end Lotos
