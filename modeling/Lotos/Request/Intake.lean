import Lotos.Buffer.Handles
import Lotos.Request.Arrival

/-!
# The counters of the input buffer

All of a request is kept in one block: the lines, the body, and whatever else has been received with the end of it.  `len`
and `free` are of type `int`, and `buffer_cat` compares the bytes with `free` as a `size_t`.  `Intake` is the block of `ib`
with the number of bytes in it, and `Intake.reads` all that a block goes through while `request_handle` answers `AGAIN`.

The counters are right as long as fewer than 2^31 bytes are received (`reads_counted`): what `realloc` adds to them is
`BUFFER_LIMIT` at most, and is in `free` alone.  But `buffer_clear` adds `free` and `len`, so the block that a request leaves
may be too large for the next one.
-/

namespace Lotos

/-- What one call of `recv` delivers.  `more` is what memory that is new has in it if `realloc` is called, and `none` if it
fails. -/
structure Chunk where
  bytes : List Byte
  more : Option (ℕ → Byte)
  pos : 0 < bytes.length
  small : bytes.length ≤ bufsiz

/-- The block after `buffer_cat`, wherever `realloc` has put it. -/
def Buffer.append (b : Buffer) (c : Chunk) : Buffer :=
  -- `nbyte <= buffer_avail(pb)`
  if c.bytes.length ≤ sizeT b.free then b.fill c.bytes
  else
    match c.more with
    | none => b
    | some more => b.grow c.bytes more

/-- The bytes that `buffer_cat` has put into the block. -/
def Buffer.taken (b : Buffer) (c : Chunk) : List Byte :=
  if c.bytes.length ≤ sizeT b.free ∨ c.more.isSome then c.bytes else []

/-- `buffer_cat` leaves this block at the address that it returns, or at the old one if it returns `NULL`. -/
theorem bufferCat_append {st : Store} {pb : Handle} {b : Buffer} (hst : st pb = some b) {c : Chunk} {ra : Realloc}
    (hra : c.more = ra.addr.map fun _ => ra.more) :
    ∃ h st', bufferCat st pb c.bytes ra = .ok (h, st') ∧ st' (h.getD pb) = some (b.append c) := by
  unfold bufferCat Buffer.append
  rw [hst, hra]
  by_cases hfit : c.bytes.length ≤ sizeT b.free
  · simp only [if_pos hfit]
    exact ⟨_, _, rfl, Function.update_self _ _ _⟩
  · simp only [if_neg hfit]
    cases ra.addr with
    | none => exact ⟨_, _, rfl, hst⟩
    | some npb => exact ⟨_, _, rfl, Function.update_self _ _ _⟩

/-- The block of `ib`, the number of bytes put into it since it was cleared, and the connection. -/
structure Intake where
  block : Buffer
  count : ℕ
  conn : Conn

namespace Intake

variable (s : Intake)

/-- A turn of the loop of `request_recv`. -/
def recv (c : Chunk) : Intake :=
  ⟨s.block.append c, s.count + (s.block.taken c).length, s.conn.receive (s.block.taken c)⟩

/-- `request_recv`, until `recv` would block. -/
def recvAll (cs : List Chunk) : Intake := cs.foldl recv s

/-- The connection as the handlers leave it. -/
def handled (c : Conn) : Intake := { s with conn := c }

/-- What `ib` goes through from one request on: every state of it in the loop of `request_recv`, batch by batch, as long as
`request_handle` answers `AGAIN`. -/
def reads (s : Intake) : List (Env × List Chunk) → List Intake
  | [] => [s]
  | (env, cs) :: rest =>
    cs.scanl recv s ++
      match handlerLoop env (s.recvAll cs).conn with
      | .ok (.again, c) => reads ((s.recvAll cs).handled c) rest
      | _ => []

/-- All the batches are read: `request_handle` answers `AGAIN` to every one but the last. -/
def Goes (s : Intake) : List (Env × List Chunk) → Prop
  | [] => True
  | (env, cs) :: rest =>
    rest ≠ [] → ∃ c, handlerLoop env (s.recvAll cs).conn = .ok (.again, c) ∧ Goes ((s.recvAll cs).handled c) rest

/-- **The counters are right**: no assignment to them has overflowed, and what is compared with the number of bytes is what
is free. -/
structure Counted : Prop where
  len : s.block.len = s.count
  free : 0 ≤ s.block.free
  range : s.block.free < 2 ^ 31
  size : s.block.mem.length = s.count + s.block.free.toNat + 1
  avail : sizeT s.block.free = s.block.free

/-- Nothing has been received since `buffer_new` or `buffer_clear`. -/
structure Ready : Prop where
  count : s.count = 0
  len : s.block.len = 0
  room : 0 < s.block.mem.length
  free : s.block.free = toInt (s.block.mem.length - 1)

end Intake

/-- The number of bytes that are received. -/
def batchesLength (batches : List (Env × List Chunk)) : ℕ := (batches.flatMap fun b => b.2.flatMap Chunk.bytes).length

/-! ### One turn -/

section Turn

variable {s : Intake} {c : Chunk}

theorem Buffer.append_cases (b : Buffer) (c : Chunk) :
    (c.bytes.length ≤ sizeT b.free ∧ b.append c = b.fill c.bytes ∧ b.taken c = c.bytes) ∨
    (¬ c.bytes.length ≤ sizeT b.free ∧ ∃ more, c.more = some more ∧ b.append c = b.grow c.bytes more ∧
      b.taken c = c.bytes) ∨
    (c.more = none ∧ b.append c = b ∧ b.taken c = []) := by
  unfold Buffer.append Buffer.taken
  by_cases hfit : c.bytes.length ≤ sizeT b.free
  · exact .inl ⟨hfit, if_pos hfit, if_pos (.inl hfit)⟩
  · cases hmore : c.more with
    | none => exact .inr (.inr ⟨rfl, if_neg hfit, if_neg (by simp [hfit])⟩)
    | some more => exact .inr (.inl ⟨hfit, more, rfl, if_neg hfit, if_pos (.inr rfl)⟩)

theorem Intake.Counted.fill (h : s.Counted) (hfit : (c.bytes.length : ℤ) ≤ s.block.free)
    (hsmall : s.count + c.bytes.length < 2 ^ 31) (conn : Conn) :
    Intake.Counted ⟨s.block.fill c.bytes, s.count + c.bytes.length, conn⟩ := by
  have hlen : toInt (s.block.len + c.bytes.length) = s.count + c.bytes.length := by
    rw [h.len]
    exact toInt_eq (by omega) (by omega)
  have hrange := h.range
  have hrest : toInt (s.block.free - c.bytes.length) = s.block.free - c.bytes.length := toInt_eq (by omega) (by omega)
  have hsize := h.size
  have hn : s.block.len.toNat = s.count := by rw [h.len, Int.toNat_natCast]
  refine ⟨?_, ?_, toInt_lt _, ?_, ?_⟩
  · change toInt (s.block.len + c.bytes.length) = _
    rw [hlen, Nat.cast_add]
  · change 0 ≤ toInt (s.block.free - c.bytes.length)
    omega
  · change (s.block.copyIn c.bytes).length = s.count + c.bytes.length + (toInt (s.block.free - c.bytes.length)).toNat + 1
    rw [copyIn_length (by omega), hrest]
    omega
  · change sizeT (toInt (s.block.free - c.bytes.length)) = toInt (s.block.free - c.bytes.length)
    exact sizeT_of_small (by omega) (toInt_lt _)

theorem Intake.Counted.grow (h : s.Counted) (hfit : ¬ (c.bytes.length : ℤ) ≤ s.block.free)
    (hsmall : s.count + c.bytes.length < 2 ^ 31) (more : ℕ → Byte) (conn : Conn) :
    Intake.Counted ⟨s.block.grow c.bytes more, s.count + c.bytes.length, conn⟩ := by
  have hlen : toInt (s.block.len + c.bytes.length) = s.count + c.bytes.length := by
    rw [h.len]
    exact toInt_eq (by omega) (by omega)
  have hn : s.block.len.toNat = s.count := by rw [h.len, Int.toNat_natCast]
  obtain ⟨hlow, hhigh⟩ := newLen_bounds s.block c.bytes
  rw [hn] at hlow hhigh
  have hlimit : bufferLimit = 2048000 := rfl
  have hrest : toInt (s.block.newLen c.bytes - toInt (s.block.len + c.bytes.length)) =
      s.block.newLen c.bytes - (s.count + c.bytes.length) := by
    rw [hlen]
    exact toInt_eq (by omega) (by omega)
  have hsize := h.size
  have hfree := h.free
  have hlength : (s.block.resize (s.block.newLen c.bytes + 1) more).mem.length = s.block.newLen c.bytes + 1 :=
    resize_length more (by omega)
  refine ⟨?_, ?_, toInt_lt _, ?_, ?_⟩
  · change toInt (s.block.len + c.bytes.length) = _
    rw [hlen, Nat.cast_add]
  · change 0 ≤ toInt (s.block.newLen c.bytes - toInt (s.block.len + c.bytes.length))
    omega
  · change ((s.block.resize (s.block.newLen c.bytes + 1) more).copyIn c.bytes).length =
      s.count + c.bytes.length + (toInt (s.block.newLen c.bytes - toInt (s.block.len + c.bytes.length))).toNat + 1
    rw [copyIn_length, hlength, hrest]
    · omega
    · rw [hlength]
      change s.block.len.toNat + _ + 1 ≤ _
      omega
  · change sizeT (toInt _) = toInt _
    refine sizeT_of_small ?_ (toInt_lt _)
    omega

/-- The counters stay right in a turn with which fewer than 2^31 bytes have been received. -/
theorem Intake.Counted.recv (h : s.Counted) (hsmall : s.count + c.bytes.length < 2 ^ 31) : (s.recv c).Counted := by
  unfold Intake.recv
  rcases s.block.append_cases c with ⟨hfit, happend, htaken⟩ | ⟨hfit, more, -, happend, htaken⟩ | ⟨-, happend, htaken⟩
  · rw [h.avail] at hfit
    rw [happend, htaken]
    exact h.fill hfit hsmall _
  · rw [h.avail] at hfit
    rw [happend, htaken]
    exact h.grow hfit hsmall more _
  · rw [happend, htaken]
    exact ⟨h.len, h.free, h.range, h.size, h.avail⟩

theorem Intake.Counted.handled (h : s.Counted) (conn : Conn) : (s.handled conn).Counted :=
  ⟨h.len, h.free, h.range, h.size, h.avail⟩

theorem recv_count_le (s : Intake) (c : Chunk) : (s.recv c).count ≤ s.count + c.bytes.length := by
  change s.count + (s.block.taken c).length ≤ _
  unfold Buffer.taken
  split_ifs
  · exact le_rfl
  · exact Nat.add_le_add_left (Nat.zero_le _) _

theorem taken_eq_bytes (b : Buffer) (hmore : c.more ≠ none) : b.taken c = c.bytes :=
  if_pos (.inr (Option.isSome_iff_ne_none.mpr hmore))

theorem recv_len_lt (hlen : s.block.len < 2 ^ 31) (c : Chunk) : (s.recv c).block.len < 2 ^ 31 := by
  change (s.block.append c).len < 2 ^ 31
  rcases s.block.append_cases c with ⟨-, happend, -⟩ | ⟨-, more, -, happend, -⟩ | ⟨-, happend, -⟩
  · rw [happend]
    exact toInt_lt _
  · rw [happend]
    exact toInt_lt _
  · rw [happend]
    exact hlen

end Turn

/-! ### One batch -/

section Batch

variable {s : Intake} {cs : List Chunk}

theorem recvAll_cons (s : Intake) (c : Chunk) (cs : List Chunk) : s.recvAll (c :: cs) = (s.recv c).recvAll cs := rfl

theorem recvAll_mem (s : Intake) (cs : List Chunk) : s.recvAll cs ∈ cs.scanl Intake.recv s := by
  induction cs generalizing s with
  | nil => exact List.mem_singleton.mpr rfl
  | cons c cs ih =>
    rw [List.scanl_cons]
    exact List.mem_cons_of_mem s (ih (s.recv c))

theorem recvAll_count_le (s : Intake) (cs : List Chunk) :
    (s.recvAll cs).count ≤ s.count + (cs.flatMap Chunk.bytes).length := by
  induction cs generalizing s with
  | nil => exact le_rfl
  | cons c cs ih =>
    have hle := recv_count_le s c
    have hrest := ih (s.recv c)
    rw [recvAll_cons, List.flatMap_cons, List.length_append]
    omega

theorem Intake.Counted.scan (h : s.Counted) (hsmall : s.count + (cs.flatMap Chunk.bytes).length < 2 ^ 31) :
    ∀ s' ∈ cs.scanl Intake.recv s, s'.Counted := by
  induction cs generalizing s with
  | nil =>
    intro s' hs'
    rw [List.mem_singleton.mp hs']
    exact h
  | cons c cs ih =>
    rw [List.flatMap_cons, List.length_append] at hsmall
    have hle := recv_count_le s c
    intro s' hs'
    rw [List.scanl_cons] at hs'
    rcases List.mem_cons.mp hs' with rfl | hs'
    · exact h
    · exact ih (h.recv (by omega)) (by omega) s' hs'

theorem recvAll_len_lt (hlen : s.block.len < 2 ^ 31) (cs : List Chunk) : (s.recvAll cs).block.len < 2 ^ 31 := by
  induction cs generalizing s with
  | nil => exact hlen
  | cons c cs ih => exact ih (recv_len_lt hlen c)

theorem recvAll_eq (s : Intake) (hmore : ∀ c ∈ cs, c.more ≠ none) :
    (s.recvAll cs).count = s.count + (cs.flatMap Chunk.bytes).length ∧
      (s.recvAll cs).conn = s.conn.receive (cs.flatMap Chunk.bytes) := by
  induction cs generalizing s with
  | nil => exact ⟨rfl, (receive_nil s.conn).symm⟩
  | cons c cs ih =>
    obtain ⟨hcount, hconn⟩ := ih (s.recv c) fun c' hc' => hmore c' (List.mem_cons_of_mem c hc')
    have htaken := taken_eq_bytes s.block (hmore c List.mem_cons_self)
    rw [recvAll_cons, hcount, hconn, List.flatMap_cons, List.length_append, ← receive_append]
    simp only [Intake.recv, htaken]
    exact ⟨Nat.add_assoc _ _ _, trivial⟩

theorem recvs_chunks (cs : List Chunk) : recvStatus (cs.map fun c => .data c.bytes) = .again ∧
    recvBytes (cs.map fun c => .data c.bytes) = cs.flatMap Chunk.bytes := by
  induction cs with
  | nil => exact ⟨rfl, rfl⟩
  | cons c cs ih =>
    rw [List.map_cons, recvStatus, recvBytes, if_neg c.pos.ne', if_neg c.pos.ne', ih.1, ih.2]
    exact ⟨rfl, rfl⟩

/-- The handlers are called as by `request_handle`. -/
theorem requestHandle_recvAll (env : Env) (s : Intake) (hmore : ∀ c ∈ cs, c.more ≠ none) :
    requestHandle env (cs.map fun c => .data c.bytes) s.conn = handlerLoop env (s.recvAll cs).conn := by
  obtain ⟨hstatus, hbytes⟩ := recvs_chunks cs
  rw [requestHandle_eq, if_pos hstatus, hbytes, (recvAll_eq s hmore).2]

end Batch

/-! ### The run -/

section Run

variable {s : Intake} {batches : List (Env × List Chunk)}

theorem batchesLength_cons (env : Env) (cs : List Chunk) (batches : List (Env × List Chunk)) :
    batchesLength ((env, cs) :: batches) = (cs.flatMap Chunk.bytes).length + batchesLength batches := by
  rw [batchesLength, List.flatMap_cons, List.length_append]
  rfl

theorem reads_self (s : Intake) (batches : List (Env × List Chunk)) : s ∈ s.reads batches := by
  cases batches with
  | nil => exact List.mem_singleton.mpr rfl
  | cons batch rest =>
    obtain ⟨env, cs⟩ := batch
    refine List.mem_append_left _ ?_
    cases cs with
    | nil => exact List.mem_singleton.mpr rfl
    | cons c cs =>
      rw [List.scanl_cons]
      exact List.mem_cons_self

/-- **The counters are right in every turn** of a run in which fewer than 2^31 bytes are received. -/
theorem reads_counted (h : s.Counted) (hsmall : s.count + batchesLength batches < 2 ^ 31) :
    ∀ s' ∈ s.reads batches, s'.Counted := by
  induction batches generalizing s with
  | nil =>
    intro s' hs'
    rw [List.mem_singleton.mp hs']
    exact h
  | cons batch rest ih =>
    obtain ⟨env, cs⟩ := batch
    rw [batchesLength_cons] at hsmall
    have hscan : ∀ s' ∈ cs.scanl Intake.recv s, s'.Counted := h.scan (by omega)
    have hall := hscan _ (recvAll_mem s cs)
    have hle := recvAll_count_le s cs
    intro s' hs'
    rw [Intake.reads] at hs'
    rcases List.mem_append.mp hs' with hs' | hs'
    · exact hscan s' hs'
    · split at hs'
      · refine ih (hall.handled _) ?_ s' hs'
        change (s.recvAll cs).count + _ < _
        omega
      · exact absurd hs' List.not_mem_nil

/-- If the counters are right when all has been received, it was fewer than 2^31 bytes. -/
theorem small_of_counted (hlen : s.block.len < 2 ^ 31) (hgoes : s.Goes batches)
    (hmore : ∀ b ∈ batches, ∀ c ∈ b.2, c.more ≠ none) (h : ∀ s' ∈ s.reads batches, s'.Counted) :
    s.count + batchesLength batches < 2 ^ 31 := by
  induction batches generalizing s with
  | nil =>
    have hcount := (h s (List.mem_singleton.mpr rfl)).len
    have hzero : batchesLength [] = 0 := rfl
    omega
  | cons batch rest ih =>
    obtain ⟨env, cs⟩ := batch
    obtain ⟨hcount, -⟩ := @recvAll_eq cs s (hmore (env, cs) List.mem_cons_self)
    rw [batchesLength_cons]
    rw [Intake.reads] at h
    by_cases hrest : rest = []
    · subst hrest
      have hlast := (h _ (List.mem_append_left _ (recvAll_mem s cs))).len
      have hlt := recvAll_len_lt hlen cs
      have hzero : batchesLength [] = 0 := rfl
      omega
    · obtain ⟨c, hcall, hgoes⟩ := hgoes hrest
      rw [hcall] at h
      have hnext : (s.recvAll cs).count + batchesLength rest < 2 ^ 31 := by
        refine @ih ((s.recvAll cs).handled c) (recvAll_len_lt hlen cs) hgoes ?_ ?_
        · exact fun b hb => hmore b (List.mem_cons_of_mem _ hb)
        · exact fun s' hs' => h s' (List.mem_append_right _ hs')
      omega

theorem init_ready {mem : List Byte} (hmem : mem.length = bufsiz + 1) (conn : Conn) :
    Intake.Ready ⟨bufferNew bufsiz mem, 0, conn⟩ := by
  have hlength : (bufferNew bufsiz mem).mem.length = bufsiz + 1 := (List.length_set ..).trans hmem
  refine ⟨rfl, rfl, ?_, ?_⟩
  · change 0 < (bufferNew bufsiz mem).mem.length
    omega
  · change (bufsiz : ℤ) = toInt ((bufferNew bufsiz mem).mem.length - 1)
    rw [hlength]
    rfl

theorem Intake.Counted.reset (h : s.Counted) (conn : Conn) : Intake.Ready ⟨bufferClear s.block, 0, conn⟩ := by
  have hsize := h.size
  have hfree := h.free
  refine ⟨rfl, rfl, ?_, ?_⟩
  · change 0 < s.block.mem.length
    omega
  · change toInt (s.block.free + s.block.len) = toInt (s.block.mem.length - 1)
    rw [h.len, hsize]
    refine congrArg toInt ?_
    omega

/-- The counters are right at the beginning unless the block is too large. -/
theorem Intake.Ready.counted_iff (h : s.Ready) : s.Counted ↔ s.block.mem.length ≤ 2 ^ 31 := by
  have hroom := h.room
  have hcount := h.count
  constructor
  · intro hcounted
    have hsize := hcounted.size
    have hrange := hcounted.range
    omega
  · intro hle
    have hfree : s.block.free = s.block.mem.length - 1 := h.free.trans (toInt_eq (by omega) (by omega))
    refine ⟨?_, ?_, ?_, ?_, sizeT_of_small ?_ ?_⟩
    · rw [h.len, hcount]
      rfl
    all_goals omega

/-- **The counters of the input buffer** are right in every turn of `request_recv`, from a block that has just been made or
cleared until `request_handle` no longer answers `AGAIN`, if the block has room for fewer than 2^31 bytes and fewer than 2^31
are received, whatever they are and whatever the batches.  Where `realloc` does not fail, only then. -/
theorem intake_counted_iff (s : Intake) (batches : List (Env × List Chunk)) (hs : s.Ready) :
    (s.block.mem.length ≤ 2 ^ 31 ∧ batchesLength batches < 2 ^ 31 → ∀ s' ∈ s.reads batches, s'.Counted) ∧
    (s.Goes batches → (∀ b ∈ batches, ∀ c ∈ b.2, c.more ≠ none) → (∀ s' ∈ s.reads batches, s'.Counted) →
      s.block.mem.length ≤ 2 ^ 31 ∧ batchesLength batches < 2 ^ 31) := by
  have hcount := hs.count
  constructor
  · rintro ⟨hroom, hsmall⟩
    exact reads_counted (hs.counted_iff.mpr hroom) (by omega)
  · intro hgoes hmore hall
    have hlen : s.block.len < 2 ^ 31 := by
      rw [hs.len]
      decide
    have hsmall := small_of_counted hlen hgoes hmore hall
    refine ⟨hs.counted_iff.mp (hall s (reads_self s batches)), ?_⟩
    omega

end Run

/-! ### A request that arrives -/

section Arrives

variable {env : Env} {w : WholeRequest} {file : File} {s : Intake} {batches : List (Env × List Chunk)}
  {future missing : List Byte}

theorem goes_of_awaits (hw : w.Valid env) (hfile : env.openat w.line.target = some file)
    (h : s.conn.Awaits w (w.line.served file).offer future) (henv : ∀ b ∈ batches, b.1 = env)
    (hmore : ∀ b ∈ batches, ∀ c ∈ b.2, c.more ≠ none) (hmissing : missing ≠ [])
    (hbytes : (batches.dropLast.flatMap fun b => b.2.flatMap Chunk.bytes) ++ missing = future) : s.Goes batches := by
  induction batches generalizing s future with
  | nil => trivial
  | cons batch rest ih =>
    obtain ⟨env', cs⟩ := batch
    obtain rfl : env' = env := henv _ List.mem_cons_self
    intro hrest
    rw [List.dropLast_cons_of_ne_nil hrest, List.flatMap_cons, List.append_assoc] at hbytes
    subst hbytes
    obtain ⟨-, hconn⟩ := @recvAll_eq cs s (hmore _ List.mem_cons_self)
    have hawaits := h.receive
    rw [← hconn] at hawaits
    obtain ⟨⟨st, c⟩, hcall, hawaited⟩ := handlerLoop_awaits hw hfile hawaits
    rcases hawaited with ⟨rfl, hawaits, -⟩ | ⟨-, -, hnil⟩
    · refine ⟨c, hcall, ih hawaits ?_ ?_ rfl⟩
      · exact fun b hb => henv b (List.mem_cons_of_mem _ hb)
      · exact fun b hb => hmore b (List.mem_cons_of_mem _ hb)
    · exact absurd (List.append_eq_nil_iff.mp hnil).2 hmissing

end Arrives

def postLine : RequestLine := ⟨.post, [], str "/", [SP], str "HTTP", str "1", str "1"⟩

def lengthLine (len : List Byte) : HeaderLine := ⟨[], str "Content-Length", [SP], len⟩

/-- A request with a body and the `Content-Length` of it. -/
def postOf (len rest : List Byte) : WholeRequest := ⟨postLine, [lengthLine len], [], rest⟩

theorem postLine_grammar : postLine.Grammar where
  method := by decide
  blanks := nofun
  url := ⟨[], by decide +kernel, nofun⟩
  sep := by decide +kernel
  http := ⟨0x48, 0x54, 0x54, 0x50, by decide +kernel, by decide, by decide, by decide, by decide⟩
  major := .inl ⟨0x31, by decide, by decide +kernel⟩
  minor := .inl ⟨0x31, by decide, by decide +kernel⟩

section Post

variable {env : Env} {len rest : List Byte}

theorem lengthLine_named (len : List Byte) (name : String) :
    (lengthLine len).named name = decide (str "content-length" = str name) := by
  have hlower : (str "Content-Length").map toLower = str "content-length" := by decide +kernel
  exact congrArg (fun xs => decide (xs = str name)) hlower

theorem lastNamed_lengthLine (len : List Byte) (name : String) :
    lastNamed [lengthLine len] name = if str "content-length" = str name then some (lengthLine len) else none := by
  unfold lastNamed
  rw [List.filter_singleton, lengthLine_named]
  by_cases hname : str "content-length" = str name
  · rw [if_pos hname, decide_eq_true hname]
    rfl
  · rw [if_neg hname, decide_eq_false hname]
    rfl

theorem postOf_valid (hfound : ∀ path, env.openat path ≠ none)
    (hvalue : ∃ c cs, len = c :: cs ∧ isBlank c = false ∧ ∀ k ∈ len, isEol k = false) (hlen : atoi len = rest.length)
    (hpos : 0 < rest.length) : (postOf len rest).Valid env := by
  have hlast : lastNamed (postOf len rest).headers "content-length" = some (lengthLine len) :=
    (lastNamed_lengthLine len _).trans (if_pos rfl)
  have hnone : lastNamed (postOf len rest).headers "connection" = none :=
    (lastNamed_lengthLine len _).trans (if_neg (by decide +kernel))
  refine ⟨⟨postLine_grammar, ?_, nofun⟩, ⟨?_, ?_, ?_, ?_, ?_⟩, ?_, .inl rfl, hfound _, ?_⟩
  · intro l hl
    obtain rfl := List.mem_singleton.mp hl
    have hname : str "Content-Length" ≠ [] ∧ ∀ c ∈ str "Content-Length", isNameChar c = true := by decide +kernel
    have hblanks : ∀ c ∈ [SP], isBlank c = true := by decide +kernel
    exact ⟨nofun, hname, hblanks, hvalue⟩
  · change decimal postLine.major ≤ 1 ∧ decimal postLine.minor ≤ 1
    decide +kernel
  · intro l hl
    obtain rfl := List.mem_singleton.mp hl
    rw [lengthLine_named]
    exact decide_eq_false (by decide +kernel)
  · intro l hl hnamed
    obtain rfl := List.mem_singleton.mp hl
    rw [lengthLine_named] at hnamed
    exact absurd (of_decide_eq_true hnamed) (by decide +kernel)
  · intro l hl _
    obtain rfl := List.mem_singleton.mp hl
    change 0 < atoi len
    omega
  · intro l hl
    rw [hlast] at hl
    obtain rfl := Option.some.inj hl
    exact hlen.le
  · unfold keepAliveOf
    rw [hnone]
    change decide (decimal postLine.major = 1 ∧ decimal postLine.minor = 1) = true
    decide +kernel
  · rw [hlast]
    exact hlen

end Post

/-! ### Two runs -/

/-- Every path is an empty file. -/
def Env.blank : Env := ⟨fun _ => some (.regular []), [], ⟨[], [], []⟩⟩

/-- A connection that has just been made. -/
def Intake.init : Intake := ⟨bufferNew bufsiz blankMem, 0, .init⟩

theorem intakeInit_ready : Intake.init.Ready := init_ready (List.length_replicate ..) .init

/-- A chunk for which `realloc` does not fail. -/
def Chunk.of (bs : List Byte) (hpos : 0 < bs.length) (hsmall : bs.length ≤ bufsiz) : Chunk :=
  ⟨bs, some fun _ => NUL, hpos, hsmall⟩

/-- A request of which the last byte comes in a second batch. -/
def postBatches : List (Env × List Chunk) :=
  [(.blank, [.of (linesBytes postLine [lengthLine (str "2")] ++ CRLF ++ str "a") (by decide +kernel) (by decide +kernel)]),
    (.blank, [.of (str "b") (by decide +kernel) (by decide +kernel)])]

theorem intake_counted_iff_post : (postOf (str "2") (str "ab")).Valid .blank ∧ Intake.init.Goes postBatches ∧
    ∀ s' ∈ Intake.init.reads postBatches, s'.Counted := by
  have hvalid : (postOf (str "2") (str "ab")).Valid .blank :=
    postOf_valid nofun ⟨0x32, [], by decide +kernel, by decide, by decide +kernel⟩ (by decide +kernel) (by decide +kernel)
  refine ⟨hvalid, ?_, ?_⟩
  · refine goes_of_awaits hvalid rfl (fresh_awaits _ _ rfl rfl rfl rfl rfl) ?_ ?_ (show str "b" ≠ [] by decide +kernel) ?_
    · exact List.forall_mem_cons.mpr ⟨rfl, List.forall_mem_singleton.mpr rfl⟩
    · refine List.forall_mem_cons.mpr ⟨?_, List.forall_mem_singleton.mpr ?_⟩ <;> exact List.forall_mem_singleton.mpr nofun
    · decide +kernel
  · refine (intake_counted_iff Intake.init postBatches intakeInit_ready).1 ⟨?_, by decide +kernel⟩
    decide +kernel

section Long

variable {head full last : Chunk} {a : Byte} {k m n : ℕ}

theorem chunks_bytes (hfull : full.bytes = List.replicate m a) (hlast : last.bytes = List.replicate n a) :
    (head :: (List.replicate k full ++ [last])).flatMap Chunk.bytes = head.bytes ++ List.replicate (k * m + n) a := by
  rw [List.flatMap_cons, List.flatMap_append, List.flatMap_replicate, hfull, List.flatten_replicate_replicate,
    List.flatMap_singleton, hlast, List.replicate_append_replicate]

end Long

/-- Bytes of a body. -/
def bodyChunk (n : ℕ) (hpos : 0 < n) (hsmall : n ≤ bufsiz) : Chunk :=
  .of (List.replicate n 0x61) (List.length_replicate.symm ▸ hpos) (List.length_replicate.symm ▸ hsmall)

/-- The largest `Content-Length`, and a body of this length. -/
def longPost : WholeRequest := postOf (str "2147483647") (List.replicate (262143 * bufsiz + 8191) 0x61)

def longChunks : List Chunk :=
  .of (linesBytes postLine [lengthLine (str "2147483647")] ++ CRLF) (by decide +kernel) (by decide +kernel) ::
    (List.replicate 262143 (bodyChunk bufsiz (by decide) le_rfl) ++ [bodyChunk 8191 (by decide) (by decide)])

theorem longPost_valid : longPost.Valid .blank := by
  have hlen : atoi (str "2147483647") = ((262143 * bufsiz + 8191 : ℕ) : ℤ) := by decide +kernel
  refine postOf_valid nofun ⟨0x32, str "147483647", by decide +kernel, by decide, by decide +kernel⟩ ?_ ?_
  · rw [List.length_replicate]
    exact hlen
  · rw [List.length_replicate]
    exact Nat.succ_pos _

theorem longChunks_bytes : longChunks.flatMap Chunk.bytes = longPost.bytes := by
  have hhead : longPost.bytes = linesBytes postLine [lengthLine (str "2147483647")] ++ CRLF ++
      List.replicate (262143 * bufsiz + 8191) 0x61 := by
    unfold longPost postOf WholeRequest.bytes linesBytes emptyLine
    simp only [List.append_assoc, List.nil_append]
  rw [hhead]
  exact chunks_bytes rfl rfl

theorem longChunks_more : ∀ c ∈ longChunks, c.more ≠ none := by
  intro c hc
  rcases List.mem_cons.mp hc with rfl | hc
  · nofun
  rcases List.mem_append.mp hc with hc | hc
  · rw [List.eq_of_mem_replicate hc]
    nofun
  · rw [List.mem_singleton.mp hc]
    nofun

/-- With the largest `Content-Length` the lines are too much: a body of 2147483647 bytes after them. -/
theorem long_not_counted : longPost.Valid .blank ∧ Intake.init.Ready ∧ longChunks.flatMap Chunk.bytes = longPost.bytes ∧
    (∀ c ∈ longChunks, c.more ≠ none) ∧ ¬ ∀ s' ∈ Intake.init.reads [(.blank, longChunks)], s'.Counted := by
  refine ⟨longPost_valid, intakeInit_ready, longChunks_bytes, longChunks_more, ?_⟩
  intro hall
  have hgoes : Intake.init.Goes [(.blank, longChunks)] := fun hrest => absurd rfl hrest
  have hsmall := small_of_counted (by decide) hgoes (List.forall_mem_singleton.mpr longChunks_more) hall
  have hlength : (longChunks.flatMap Chunk.bytes).length =
      (linesBytes postLine [lengthLine (str "2147483647")] ++ CRLF).length + (262143 * bufsiz + 8191) := by
    unfold longChunks
    rw [chunks_bytes rfl rfl, List.length_append, List.length_replicate]
    rfl
  have hlines : 0 < (linesBytes postLine [lengthLine (str "2147483647")] ++ CRLF).length := by decide +kernel
  rw [batchesLength_cons, hlength, bufsiz] at hsmall
  omega

end Lotos
