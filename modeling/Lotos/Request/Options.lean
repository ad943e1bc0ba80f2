import Lotos.Lib.PrefixTable
import Lotos.Request.Headers

/-!
# What a value is taken for

`ssstr_caseequal` is `strncasecmp` over the length of the constant, so `request_handle_hd_connection` and
`request_handle_hd_transfer_encoding` look a value up by the word that the memory begins with at the value.  This is the
lookup by equality up to the case, unless one of the words is misread.
-/

namespace Lotos

open PrefixTable

/-! ### `strncasecmp` -/

/-- `strncasecmp` on the memory from two pointers on, which is followed by a `NUL`. -/
def strncasecmp (l r : List Byte) : ℕ → ℤ
  | 0 => 0
  | n + 1 =>
    let a := toLower (l.headD NUL)
    let b := toLower (r.headD NUL)
    if a ≠ b then (a.toNat : ℤ) - b.toNat
    else if a = NUL then 0
    else strncasecmp l.tail r.tail n

theorem toLower_eq_nul {c : Byte} : toLower c = NUL ↔ c = NUL := by
  unfold toLower
  split
  · rename_i hupper
    simp only [Bool.and_eq_true, decide_eq_true_eq, UInt8.le_iff_toNat_le, NUL, ← UInt8.toNat_inj, UInt8.toNat_add,
      UInt8.toNat_ofNat] at hupper ⊢
    omega
  · rfl

theorem strncasecmp_of_ne {l r : List Byte} {n : ℕ} (h : toLower (l.headD NUL) ≠ toLower (r.headD NUL)) :
    strncasecmp l r (n + 1) ≠ 0 := by
  rw [strncasecmp, if_pos h]
  intro hzero
  refine h (UInt8.toNat_inj.mp ?_)
  omega

/-- Over the length of a string, it is zero if the memory has the bytes of the string up to the case. -/
theorem strncasecmp_eq_zero {cstr : List Byte} (hcstr : NUL ∉ cstr) (mem : List Byte) :
    strncasecmp mem cstr cstr.length = 0 ↔ (mem.take cstr.length).map toLower = cstr.map toLower := by
  induction cstr generalizing mem with
  | nil => simp [strncasecmp]
  | cons b bs ih =>
    have hb : toLower b ≠ NUL := fun h => hcstr (toLower_eq_nul.mp h ▸ List.mem_cons_self)
    cases mem with
    | nil =>
      refine iff_of_false (strncasecmp_of_ne ?_) (by simp)
      exact fun h => hb (h.symm.trans (by decide))
    | cons a as =>
      simp only [List.length_cons, List.take_succ_cons, List.map_cons, List.cons.injEq]
      by_cases hab : toLower a = toLower b
      · have ha : toLower a ≠ NUL := hab ▸ hb
        rw [strncasecmp]
        simp only [List.headD_cons, List.tail_cons, ne_eq, hab, not_true_eq_false, if_false, hb, true_and]
        exact ih (fun h => hcstr (List.mem_cons_of_mem b h)) as
      · exact iff_of_false (strncasecmp_of_ne hab) fun h => hab h.1

/-- `ssstr_caseequal` as the source has it. -/
theorem ssstrCaseequal_eq {cstr : List Byte} (hcstr : NUL ∉ cstr) (data : List Byte) (s : Ssstr) :
    ssstrCaseequal data s cstr = decide (strncasecmp (s.mem data) cstr cstr.length = 0) := by
  rw [ssstrCaseequal, beq_eq_decide]
  exact decide_eq_decide.mpr (strncasecmp_eq_zero hcstr (s.mem data)).symm

/-! ### One word -/

section Word

variable {data value post cstr : List Byte} {s : Ssstr}

theorem bytes_eq_take (data : List Byte) (s : Ssstr) : s.bytes data = (s.mem data).take s.len.toNat := by
  obtain ⟨ptr, len⟩ := s
  cases ptr with
  | null => exact List.take_nil.symm
  | buf p => simp [Ssstr.bytes, Ssstr.mem, slice]
  | const c => rfl

/-- `ssstr_caseequal` says whether the span has the length of the string and its bytes up to the case. -/
def CaseequalExact (data : List Byte) (s : Ssstr) (cstr : List Byte) : Prop :=
  ssstrCaseequal data s cstr = true ↔ s.len = cstr.length ∧ (s.bytes data).map toLower = cstr.map toLower

theorem ssstrCaseequal_iff : ssstrCaseequal data s cstr = true ↔
    ((s.mem data).map toLower).take (cstr.map toLower).length = cstr.map toLower := by
  rw [ssstrCaseequal, beq_iff_eq, List.length_map, List.map_take]

theorem caseequalExact_iff (hmem : s.mem data = value ++ post) (hlen : s.len = value.length) :
    CaseequalExact data s cstr ↔ ¬ Misread (value.map toLower) (post.map toLower) (cstr.map toLower) := by
  have hbytes : s.bytes data = value := by
    rw [bytes_eq_take, hmem, hlen]
    exact List.take_left' rfl
  have hequal : s.len = cstr.length ∧ (s.bytes data).map toLower = cstr.map toLower ↔
      value.map toLower = cstr.map toLower := by
    rw [hbytes, hlen]
    constructor
    · exact And.right
    · intro h
      have hlength := congrArg List.length h
      rw [List.length_map, List.length_map] at hlength
      exact ⟨congrArg _ hlength, h⟩
  rw [CaseequalExact, ssstrCaseequal_iff, hequal, hmem, List.map_append]
  exact exact_iff_not_misread

end Word

/-! ### The words of the two headers -/

/-- The values of `Connection`, and what they set `keep_alive` to. -/
def connectionOptions : List (List Byte × Bool) := [(str "keep-alive", true), (str "close", false)]

/-- The values of `Transfer-Encoding`. -/
def codings : List (List Byte × TransferEncoding) :=
  [(str "chunked", .chunked), (str "compress", .compress), (str "deflate", .deflate), (str "gzip", .gzip),
    (str "identity", .identity)]

theorem connectionOptions_table : PrefixFree connectionOptions ∧ ∀ e ∈ connectionOptions, e.1.map toLower = e.1 := by
  decide +kernel

theorem codings_table : PrefixFree codings ∧ ∀ e ∈ codings, e.1.map toLower = e.1 := by decide +kernel

section Handlers

variable (env : Env) (c : Conn)

/-- `keep_alive` is set as one of the options says, if the value is one, and otherwise a 400 is assembled. -/
def ConnectionExact (value : List Byte) : Prop :=
  let res := requestHandleHdConnection env c .connection
  match exactMatch connectionOptions (value.map toLower) with
  | some keep => res.2.ghost.answers = c.ghost.answers ∧ res.2.req.par.keepAlive = keep
  | none => res.2.ghost.answers = c.ghost.answers ++ [400]

/-- The value is recognised if it is one of the codings, all of which are refused with a 501, and otherwise a 400 is
assembled. -/
def CodingExact (value : List Byte) : Prop :=
  let res := requestHandleHdTransferEncoding env c .transferEncoding
  match exactMatch codings (value.map toLower) with
  | some te => res.2.ghost.answers = c.ghost.answers ++ [501] ∧ res.2.req.par.transferEncoding = te
  | none => res.2.ghost.answers = c.ghost.answers ++ [400]

end Handlers

/-! ### The handlers as lookups -/

section Lookup

variable {data : List Byte} {s : Ssstr}

theorem ssstrCaseequal_lower {cstr : List Byte} (h : cstr.map toLower = cstr) :
    ssstrCaseequal data s cstr = decide (((s.mem data).map toLower).take cstr.length = cstr) := by
  rw [ssstrCaseequal, h, List.map_take, beq_eq_decide]

theorem connectionKind_eq (data : List Byte) (s : Ssstr) : HeaderFunc.kind data s .connection .connection =
    match firstMatch connectionOptions ((s.mem data).map toLower) with
    | some true => .keepAlive
    | some false => .close
    | none => .badConnection := by
  have hlower := connectionOptions_table.2
  simp only [connectionOptions, List.forall_mem_cons] at hlower
  obtain ⟨hkeep, hclose, -⟩ := hlower
  simp only [HeaderFunc.kind, firstMatch, connectionOptions, List.find?_cons, List.find?_nil]
  rw [ssstrCaseequal_lower hkeep, ssstrCaseequal_lower hclose]
  split_ifs with h₁ h₂ <;> simp_all

theorem codingKind_eq (data : List Byte) (s : Ssstr) : codingOf data s =
    match firstMatch codings ((s.mem data).map toLower) with
    | some te => .coding te
    | none => .badCoding := by
  have hlower := codings_table.2
  simp only [codings, List.forall_mem_cons] at hlower
  obtain ⟨hchunked, hcompress, hdeflate, hgzip, hidentity, -⟩ := hlower
  simp only [codingOf, firstMatch, codings, List.find?_cons, List.find?_nil]
  rw [ssstrCaseequal_lower hchunked, ssstrCaseequal_lower hcompress, ssstrCaseequal_lower hdeflate,
    ssstrCaseequal_lower hgzip, ssstrCaseequal_lower hidentity]
  split_ifs <;> simp_all

end Lookup

section Exact

variable {env : Env} {c : Conn} {value post : List Byte}

theorem connectionExact_iff_match : ConnectionExact env c value ↔
    firstMatch connectionOptions ((c.req.par.headerVal.mem c.req.ib).map toLower) =
      exactMatch connectionOptions (value.map toLower) := by
  unfold ConnectionExact
  simp only [hdConnection_eq, connectionKind_eq]
  generalize firstMatch connectionOptions _ = found
  rcases found with _ | _ | _ <;> rcases exactMatch connectionOptions _ with _ | _ | _ <;>
    simp [finishHeader, assembleErr_eq, LineKind.answer, LineKind.record, Conn.mapPar, Conn.mapReq]

theorem codingExact_iff_match : CodingExact env c value ↔
    firstMatch codings ((c.req.par.headerVal.mem c.req.ib).map toLower) = exactMatch codings (value.map toLower) := by
  unfold CodingExact
  simp only [hdTransferEncoding_eq, HeaderFunc.kind, codingKind_eq]
  generalize firstMatch codings _ = found
  rcases found with _ | te <;> rcases exactMatch codings _ with _ | te' <;>
    simp [finishHeader, assembleErr_eq, LineKind.answer, LineKind.record, Conn.mapPar, Conn.mapReq]

theorem connectionExact_iff (hmem : c.req.par.headerVal.mem c.req.ib = value ++ post) : ConnectionExact env c value ↔
    ∀ e ∈ connectionOptions, ¬ Misread (value.map toLower) (post.map toLower) e.1 := by
  rw [connectionExact_iff_match, hmem, List.map_append]
  exact firstMatch_eq_exactMatch_iff connectionOptions_table.1

theorem codingExact_iff (hmem : c.req.par.headerVal.mem c.req.ib = value ++ post) : CodingExact env c value ↔
    ∀ e ∈ codings, ¬ Misread (value.map toLower) (post.map toLower) e.1 := by
  rw [codingExact_iff_match, hmem, List.map_append]
  exact firstMatch_eq_exactMatch_iff codings_table.1

/-- **Values are classified by equality up to the case**, whatever the value and the bytes after it, if and only if no word
they are compared with is misread: none that the value goes on from, and none that the bytes after the value complete. -/
theorem values_exact_iff (data : List Byte) (s : Ssstr) (value post : List Byte) (hmem : s.mem data = value ++ post)
    (hlen : s.len = value.length) :
    (∀ cstr, CaseequalExact data s cstr ↔ ¬ Misread (value.map toLower) (post.map toLower) (cstr.map toLower)) ∧
    ∀ (env : Env) (c : Conn), c.req.ib = data → c.req.par.headerVal = s →
      (ConnectionExact env c value ↔ ∀ e ∈ connectionOptions, ¬ Misread (value.map toLower) (post.map toLower) e.1) ∧
      (CodingExact env c value ↔ ∀ e ∈ codings, ¬ Misread (value.map toLower) (post.map toLower) e.1) := by
  refine ⟨fun cstr => caseequalExact_iff hmem hlen, ?_⟩
  rintro env c rfl rfl
  exact ⟨connectionExact_iff hmem, codingExact_iff hmem⟩

end Exact

/-- A connection that has just read a value, with bytes after it. -/
def Conn.valueRead (value post : List Byte) : Conn :=
  ⟨{ Request.fresh with
      ib := value ++ post
      par := { parseArchiveInit with headerVal := ⟨.buf 0, value.length⟩ } },
    true, false, 0, ⟨[], [], false, 0, [], [], []⟩⟩

/-- Where nothing is misread: an option in another case. -/
theorem values_exact_iff_close : CaseequalExact (str "Close" ++ CRLF) ⟨.buf 0, 5⟩ (str "close") ∧
    ConnectionExact ⟨fun _ => none, [], ⟨[], [], []⟩⟩ (.valueRead (str "Close") CRLF) (str "Close") ∧
    CodingExact ⟨fun _ => none, [], ⟨[], [], []⟩⟩ (.valueRead (str "Close") CRLF) (str "Close") := by
  obtain ⟨hequal, hhandlers⟩ :=
    values_exact_iff (str "Close" ++ CRLF) ⟨.buf 0, 5⟩ (str "Close") CRLF (by decide +kernel) (by decide +kernel)
  obtain ⟨hconnection, hcoding⟩ :=
    hhandlers ⟨fun _ => none, [], ⟨[], [], []⟩⟩ (.valueRead (str "Close") CRLF) rfl (by decide +kernel)
  refine ⟨(hequal _).mpr ?_, hconnection.mpr ?_, hcoding.mpr ?_⟩
  · decide +kernel
  · decide +kernel
  · decide +kernel

/-- `closed` is taken for `close`, and `gzipped` for `gzip`. -/
theorem values_not_exact : ¬ CaseequalExact (str "closed" ++ CRLF) ⟨.buf 0, 6⟩ (str "close") ∧
    ¬ ConnectionExact ⟨fun _ => none, [], ⟨[], [], []⟩⟩ (.valueRead (str "closed") CRLF) (str "closed") ∧
    ¬ CodingExact ⟨fun _ => none, [], ⟨[], [], []⟩⟩ (.valueRead (str "gzipped") CRLF) (str "gzipped") := by
  refine ⟨?_, ?_, ?_⟩
  · unfold CaseequalExact
    decide +kernel
  · rw [connectionExact_iff_match]
    decide +kernel
  · rw [codingExact_iff_match]
    decide +kernel

end Lotos
