import Lotos.Lib.Words
import Lotos.Loop.Pool

/-!
# The memory of the pool

The functions of `mem_pool.c` on the bytes of the memory: a block is `block_size` bytes, and the first word of a free block
is the address of the next one.  Whoever has been given a block may write what he likes into all of it, the first word
included.

`PoolMem.Sim` relates the memory to the pool `MemPool`, which has the first word of every block as a function.
-/

namespace Lotos

open Words

/-- `sizeof(void *)` -/
def ptrSize : ℕ := 8

/-- `mem_pool_t`, with the memory; the address 0 is `NULL`. -/
structure PoolMem where
  blockNum : ℕ
  blockSize : ℕ
  blockAllocated : ℕ
  next : ℕ
  blocks : ℕ
  mem : Memory

/-- The loop of `pool_create`, and the write of `NULL` after it; `last` is `last_block(pool)`. -/
def linkLoop (size : ℕ) (hsize : 0 < size) (last : ℕ) (mem : Memory) (p : ℕ) : Memory :=
  if p < last then linkLoop size hsize last (store mem p (p + size) ptrSize) (p + size) else store mem p 0 ptrSize
termination_by last - p

theorem blockSize_pos (size : ℕ) : 0 < max size ptrSize := lt_max_of_lt_right (by decide)

namespace PoolMem

/-- `pool_create`, on the address that `calloc` has returned. -/
def poolCreate (blocks nmemb size : ℕ) (mem : Memory) : PoolMem where
  blockNum := nmemb
  blockSize := max size ptrSize
  blockAllocated := 0
  next := blocks
  blocks := blocks
  mem := linkLoop (max size ptrSize) (blockSize_pos size) (blocks + (nmemb - 1) * max size ptrSize) mem blocks

/-- `pool_alloc` -/
def poolAlloc (p : PoolMem) : ℕ × PoolMem :=
  if p.blockAllocated ≥ p.blockNum then (0, p)
  else if p.next ≠ 0 then
    (p.next, { p with next := load p.mem p.next ptrSize, blockAllocated := p.blockAllocated + 1 })
  else (p.next, p)

/-- `pool_free` -/
def poolFree (p : PoolMem) (ptr : ℕ) : PoolMem :=
  if ptr = 0 then p
  else { p with mem := store p.mem ptr p.next ptrSize, next := ptr, blockAllocated := p.blockAllocated - 1 }

/-- An address of a block: `blocks + k * block_size`. -/
def IsBlock (p : PoolMem) (a : ℕ) : Prop := ∃ k < p.blockNum, a = p.blocks + k * p.blockSize

end PoolMem

/-- A pointer that may be `NULL`. -/
def ofAddr (w : ℕ) : Option ℕ := if w = 0 then none else some w

/-- The states of a pool that are reached by the calls, with the blocks that are in use.  A block is given back only while it
is in use, and all that is written by its holder is within it. -/
inductive PoolMem.Reached (blocks nmemb size : ℕ) : PoolMem → Finset ℕ → Prop
  | create (mem : Memory) : Reached blocks nmemb size (.poolCreate blocks nmemb size mem) ∅
  | full {p live} : Reached blocks nmemb size p live → p.poolAlloc.1 = 0 → Reached blocks nmemb size p.poolAlloc.2 live
  | alloc {p live} : Reached blocks nmemb size p live → p.poolAlloc.1 ≠ 0 →
      Reached blocks nmemb size p.poolAlloc.2 (insert p.poolAlloc.1 live)
  | free {p live c} : Reached blocks nmemb size p live → c ∈ live →
      Reached blocks nmemb size (p.poolFree c) (live.erase c)
  | write {p live c} (mem : Memory) : Reached blocks nmemb size p live → c ∈ live →
      (∀ x, x < c ∨ c + p.blockSize ≤ x → mem x = p.mem x) → Reached blocks nmemb size { p with mem := mem } live

/-! ### The loop of `pool_create` -/

section Create

variable {size : ℕ} {hsize : 0 < size} {mem : Memory}

theorem linkLoop_below {last p x : ℕ} (hx : x < p) : linkLoop size hsize last mem p x = mem x := by
  fun_induction linkLoop size hsize last mem p with
  | case1 mem p hlt ih => rw [ih (by omega), store_outside (.inl hx)]
  | case2 mem p hle => exact store_outside (.inl hx)

/-- The loop writes the links that `linkBlocks` has, in the words at the addresses of the blocks. -/
theorem linkLoop_word (hword : ptrSize ≤ size) {p n : ℕ} (hp : 0 < p) (hfit : p + (n + 1) * size ≤ 2 ^ 64)
    (link : ℕ → Option ℕ) {k : ℕ} (hk : k ≤ n) :
    ofAddr (load (linkLoop size hsize (p + n * size) mem p) (p + k * size) ptrSize) =
      linkBlocks size link p n (p + k * size) := by
  induction n generalizing p k mem link with
  | zero =>
    obtain rfl : k = 0 := by omega
    rw [linkLoop, if_neg (by omega), linkBlocks, Nat.zero_mul, Nat.add_zero, load_store (by decide), Function.update_self]
    rfl
  | succ n ih =>
    rw [Nat.add_mul, Nat.one_mul] at hfit
    have hlast : p + (n + 1) * size = p + size + n * size := by ring
    rw [linkLoop, if_pos (by rw [hlast]; omega), hlast, linkBlocks]
    cases k with
    | zero =>
      rw [Nat.zero_mul, Nat.add_zero, linkBlocks_below _ _ _ _ (by omega), Function.update_self]
      have hkeep : ∀ x, p ≤ x → x < p + ptrSize →
          linkLoop size hsize (p + size + n * size) (store mem p (p + size) ptrSize) (p + size) x =
            store mem p (p + size) ptrSize x := fun x _ hx => linkLoop_below (by omega)
      have hlt : p + size < 256 ^ ptrSize := by
        rw [show 256 ^ ptrSize = 2 ^ 64 by decide]
        rw [Nat.add_mul, Nat.one_mul] at hfit
        omega
      rw [load_congr hkeep, load_store hlt, ofAddr, if_neg (by omega)]
    | succ k =>
      have haddr : p + (k + 1) * size = p + size + k * size := by ring
      rw [haddr]
      refine ih (by omega) ?_ _ (by omega)
      rw [hlast] at *
      linarith
end Create

/-! ### The blocks and the list -/

/-- The blocks are in the address space, and a pointer fits into each. -/
structure PoolMem.Placed (p : PoolMem) : Prop where
  size : ptrSize ≤ p.blockSize
  start : 0 < p.blocks
  fits : p.blocks + p.blockNum * p.blockSize ≤ 2 ^ 64

/-- The pool `q` has the same list, with the links that are in the memory. -/
structure PoolMem.Sim (p : PoolMem) (live : Finset ℕ) (q : MemPool) : Prop where
  placed : p.Placed
  num : q.blockNum = p.blockNum
  allocated : q.blockAllocated = p.blockAllocated
  next : q.next = ofAddr p.next
  link : ∀ a, p.IsBlock a → q.link a = ofAddr (load p.mem a ptrSize)
  inUse : q.live = live
  valid : q.Valid
  freeBlock : ∀ a ∈ q.free, p.IsBlock a
  liveBlock : ∀ a ∈ live, p.IsBlock a

section Sim

variable {p : PoolMem} {live : Finset ℕ} {q : MemPool}

theorem PoolMem.Placed.bounds (h : p.Placed) {a : ℕ} (ha : p.IsBlock a) : 0 < a ∧ a + p.blockSize ≤ 2 ^ 64 := by
  obtain ⟨k, hk, rfl⟩ := ha
  have hmul : (k + 1) * p.blockSize ≤ p.blockNum * p.blockSize := Nat.mul_le_mul_right _ hk
  rw [Nat.add_mul, Nat.one_mul] at hmul
  have hstart := h.start
  have hfits := h.fits
  omega

theorem IsBlock.apart {a b : ℕ} (ha : p.IsBlock a) (hb : p.IsBlock b) (hne : a ≠ b) :
    a + p.blockSize ≤ b ∨ b + p.blockSize ≤ a := by
  obtain ⟨j, -, rfl⟩ := ha
  obtain ⟨k, -, rfl⟩ := hb
  rcases lt_trichotomy j k with hlt | rfl | hlt
  · have hmul : (j + 1) * p.blockSize ≤ k * p.blockSize := Nat.mul_le_mul_right _ hlt
    rw [Nat.add_mul, Nat.one_mul] at hmul
    omega
  · exact absurd rfl hne
  · have hmul : (k + 1) * p.blockSize ≤ j * p.blockSize := Nat.mul_le_mul_right _ hlt
    rw [Nat.add_mul, Nat.one_mul] at hmul
    omega

theorem ofAddr_eq_some {w a : ℕ} : ofAddr w = some a ↔ w = a ∧ a ≠ 0 := by
  unfold ofAddr
  split_ifs with h
  · refine iff_of_false nofun ?_
    rintro ⟨rfl, hne⟩
    exact hne h
  · rw [Option.some.injEq]
    constructor
    · rintro rfl
      exact ⟨rfl, h⟩
    · exact And.left

theorem ofAddr_pos {a : ℕ} (h : 0 < a) : ofAddr a = some a := ofAddr_eq_some.mpr ⟨rfl, h.ne'⟩

/-- What is written within one block is not seen in the others. -/
theorem link_frame (h : p.Sim live q) {c : ℕ} (hc : p.IsBlock c) {mem : Memory}
    (hmem : ∀ x, x < c ∨ c + p.blockSize ≤ x → mem x = p.mem x) (a : ℕ) (ha : p.IsBlock a) :
    Function.update q.link c (ofAddr (load mem c ptrSize)) a = ofAddr (load mem a ptrSize) := by
  by_cases heq : a = c
  · rw [heq, Function.update_self]
  · have hsize := h.placed.size
    rw [Function.update_of_ne heq, h.link a ha]
    congr 1
    refine (load_congr ?_).symm
    intro x hle hlt
    refine hmem x ?_
    rcases IsBlock.apart ha hc heq with happ | happ
    · exact .inl (by omega)
    · exact .inr (by omega)

theorem blockAddrs_isBlock {size base n a : ℕ} (h : a ∈ blockAddrs size base n) : ∃ k ≤ n, a = base + k * size := by
  induction n generalizing base with
  | zero =>
    rw [List.mem_singleton.mp h]
    exact ⟨0, le_rfl, by omega⟩
  | succ n ih =>
    rcases List.mem_cons.mp h with rfl | h
    · exact ⟨0, Nat.zero_le _, by omega⟩
    · obtain ⟨k, hk, rfl⟩ := ih h
      exact ⟨k + 1, by omega, by ring⟩

theorem poolCreate_sim {blocks nmemb size : ℕ} (hn : 0 < nmemb) (hb : 0 < blocks)
    (hfit : blocks + nmemb * max size ptrSize ≤ 2 ^ 64) (mem : Memory) :
    (PoolMem.poolCreate blocks nmemb size mem).Sim ∅ (poolCreate blocks nmemb size) := by
  have hsize := blockSize_pos size
  have hchain := linkBlocks_chain hsize (fun _ => none) blocks (nmemb - 1)
  have hvalid := poolCreate_valid blocks size hn
  have hfree : (poolCreate blocks nmemb size).free = blockAddrs (max size ptrSize) blocks (nmemb - 1) :=
    hchain.follow_eq (by rw [blockAddrs_length]; simp only [poolCreate]; omega)
  refine ⟨⟨le_max_right _ _, hb, hfit⟩, rfl, rfl, (ofAddr_pos hb).symm, ?_, rfl, hvalid, ?_, ?_⟩
  · rintro a ⟨k, hk, rfl⟩
    have hk : k < nmemb := hk
    refine (linkLoop_word (le_max_right _ _) hb ?_ _ (by omega)).symm
    rw [Nat.sub_add_cancel hn]
    exact hfit
  · intro a ha
    rw [hfree] at ha
    obtain ⟨k, hk, rfl⟩ := blockAddrs_isBlock ha
    exact ⟨k, lt_of_le_of_lt hk (Nat.sub_lt hn Nat.one_pos), rfl⟩
  · intro a ha
    exact absurd ha (Finset.notMem_empty a)

theorem poolAlloc_sim (h : p.Sim live q) :
    (live.card < p.blockNum ∧ ∃ c q', p.poolAlloc.1 = c ∧ c ≠ 0 ∧ p.IsBlock c ∧ c ∉ live ∧
      p.poolAlloc.2.Sim (insert c live) q') ∨
    (live.card = p.blockNum ∧ p.poolAlloc = (0, p)) := by
  have hcard : live.card = p.blockAllocated := by
    rw [← h.inUse, h.valid.card, h.allocated]
  rcases poolAlloc_spec h.valid with ⟨hroom, c, q', halloc, hc, hlive, hnum, hfree, hvalid⟩ | ⟨hroom, -⟩
  · rw [h.allocated, h.num] at hroom
    have hblock : p.IsBlock c := h.freeBlock c (by rw [hfree]; exact List.mem_cons_self)
    have hchain := h.valid.chain
    rw [hfree] at hchain
    obtain ⟨hnext, hne⟩ := ofAddr_eq_some.mp (h.next.symm.trans hchain.1)
    have hraw : p.poolAlloc = (c, { p with next := load p.mem c ptrSize, blockAllocated := p.blockAllocated + 1 }) := by
      rw [PoolMem.poolAlloc, if_neg (by omega), hnext, if_pos hne]
    have hq' : q' = { q with next := q.link c, blockAllocated := q.blockAllocated + 1, live := insert c q.live } := by
      rw [poolAlloc, if_neg (by rw [h.allocated, h.num]; omega), hchain.1] at halloc
      exact (congrArg Prod.snd halloc).symm
    rw [h.inUse] at hc hlive
    refine .inl ⟨by omega, c, q', by rw [hraw], hne, hblock, hc, ?_⟩
    rw [hraw]
    refine ⟨⟨h.placed.size, h.placed.start, h.placed.fits⟩, hnum.trans h.num, ?_, ?_, ?_, hlive, hvalid, ?_, ?_⟩
    · rw [hq']
      exact congrArg (· + 1) h.allocated
    · rw [hq']
      exact h.link c hblock
    · rw [hq']
      exact h.link
    · intro a ha
      exact h.freeBlock a (by rw [hfree]; exact List.mem_cons_of_mem _ ha)
    · intro a ha
      rcases Finset.mem_insert.mp ha with rfl | ha
      · exact hblock
      · exact h.liveBlock a ha
  · have hcount := h.valid.count
    rw [h.allocated, h.num] at hroom hcount
    refine .inr ⟨by omega, ?_⟩
    rw [PoolMem.poolAlloc, if_pos (by omega)]

theorem poolFree_sim (h : p.Sim live q) {c : ℕ} (hc : c ∈ live) : (p.poolFree c).Sim (live.erase c) (poolFree q c) := by
  have hblock := h.liveBlock c hc
  obtain ⟨hpos, hbound⟩ := h.placed.bounds hblock
  have hsize := h.placed.size
  obtain ⟨hvalid, hfree⟩ := poolFree_valid h.valid (h.inUse ▸ hc)
  have hraw : p.poolFree c =
      { p with mem := store p.mem c p.next ptrSize, next := c, blockAllocated := p.blockAllocated - 1 } := by
    rw [PoolMem.poolFree, if_neg hpos.ne']
  -- the head of the list is `NULL` or a block
  have hword : p.next < 256 ^ ptrSize := by
    rw [show 256 ^ ptrSize = 2 ^ 64 by decide]
    have hchain := h.valid.chain
    rw [h.next] at hchain
    cases hlist : q.free with
    | nil =>
      rw [hlist] at hchain
      by_contra hlt
      rw [ofAddr_pos (by omega)] at hchain
      cases hchain
    | cons a l =>
      rw [hlist] at hchain
      rw [(ofAddr_eq_some.mp hchain.1).1]
      have := h.placed.bounds (h.freeBlock a (by rw [hlist]; exact List.mem_cons_self))
      rw [ptrSize] at hsize
      omega
  have hmem : ∀ x, x < c ∨ c + p.blockSize ≤ x → store p.mem c p.next ptrSize x = p.mem x :=
    fun x hx => store_outside (by omega)
  rw [hraw]
  refine ⟨⟨h.placed.size, h.placed.start, h.placed.fits⟩, h.num, ?_, (ofAddr_pos hpos).symm, ?_, ?_, hvalid, ?_, ?_⟩
  · exact congrArg (· - 1) h.allocated
  · intro a ha
    refine Eq.trans ?_ (link_frame h hblock hmem a ha)
    rw [load_store hword, ← h.next]
    rfl
  · exact congrArg (·.erase c) h.inUse
  · intro a ha
    rw [hfree] at ha
    rcases List.mem_cons.mp ha with rfl | ha
    · exact hblock
    · exact h.freeBlock a ha
  · intro a ha
    exact h.liveBlock a (Finset.mem_of_mem_erase ha)

theorem write_sim (h : p.Sim live q) {c : ℕ} (hc : c ∈ live) {mem : Memory}
    (hmem : ∀ x, x < c ∨ c + p.blockSize ≤ x → mem x = p.mem x) :
    ({ p with mem := mem } : PoolMem).Sim live (q.write c (ofAddr (load mem c ptrSize))) := by
  have hblock := h.liveBlock c hc
  obtain ⟨hvalid, hfree⟩ := write_valid h.valid (h.inUse ▸ hc) (ofAddr (load mem c ptrSize))
  refine ⟨⟨h.placed.size, h.placed.start, h.placed.fits⟩, h.num, h.allocated, h.next, link_frame h hblock hmem, h.inUse,
    hvalid, ?_, h.liveBlock⟩
  rw [hfree]
  exact h.freeBlock

theorem mem_free_iff (h : p.Sim live q) (a : ℕ) : a ∈ q.free ↔ p.IsBlock a ∧ a ∉ live := by
  constructor
  · intro ha
    exact ⟨h.freeBlock a ha, h.inUse ▸ h.valid.apart a ha⟩
  · rintro ⟨⟨k, hk, rfl⟩, hnot⟩
    -- the free blocks and those in use are as many as there are blocks
    let all : Finset ℕ := (Finset.range p.blockNum).image fun k => p.blocks + k * p.blockSize
    have hsub : q.free.toFinset ∪ live ⊆ all := by
      intro b hb
      have hblock : p.IsBlock b := by
        rcases Finset.mem_union.mp hb with hb | hb
        · exact h.freeBlock b (List.mem_toFinset.mp hb)
        · exact h.liveBlock b hb
      obtain ⟨j, hj, rfl⟩ := hblock
      exact Finset.mem_image.mpr ⟨j, Finset.mem_range.mpr hj, rfl⟩
    have hdisj : Disjoint q.free.toFinset live := by
      rw [Finset.disjoint_left]
      intro b hb
      exact h.inUse ▸ h.valid.apart b (List.mem_toFinset.mp hb)
    have hcard : all.card ≤ (q.free.toFinset ∪ live).card := by
      have hcount := h.valid.count
      have hlive := h.valid.card
      rw [h.inUse] at hlive
      rw [Finset.card_union_of_disjoint hdisj, List.toFinset_card_of_nodup h.valid.nodup, hlive, hcount, h.num]
      exact Finset.card_image_le.trans (Finset.card_range _).le
    have hmem : p.blocks + k * p.blockSize ∈ q.free.toFinset ∪ live := by
      rw [Finset.eq_of_subset_of_card_le hsub hcard]
      exact Finset.mem_image.mpr ⟨k, Finset.mem_range.mpr hk, rfl⟩
    rcases Finset.mem_union.mp hmem with hmem | hmem
    · exact List.mem_toFinset.mp hmem
    · exact absurd hmem hnot

end Sim

/-! ### Runs -/

section Runs

variable {blocks nmemb size : ℕ} {p : PoolMem} {live : Finset ℕ}

/-- The fields that no call changes. -/
def PoolMem.SameBlocks (p : PoolMem) (blocks nmemb size : ℕ) : Prop :=
  p.blocks = blocks ∧ p.blockNum = nmemb ∧ p.blockSize = max size ptrSize

theorem poolAlloc_blocks (h : p.SameBlocks blocks nmemb size) : p.poolAlloc.2.SameBlocks blocks nmemb size := by
  unfold PoolMem.poolAlloc
  split_ifs <;> exact h

theorem poolFree_blocks (h : p.SameBlocks blocks nmemb size) (c : ℕ) : (p.poolFree c).SameBlocks blocks nmemb size := by
  unfold PoolMem.poolFree
  split_ifs <;> exact h

theorem reached_sim (hn : 0 < nmemb) (hb : 0 < blocks) (hfit : blocks + nmemb * max size ptrSize ≤ 2 ^ 64)
    (h : PoolMem.Reached blocks nmemb size p live) : p.SameBlocks blocks nmemb size ∧ ∃ q, p.Sim live q := by
  induction h with
  | create mem => exact ⟨⟨rfl, rfl, rfl⟩, _, poolCreate_sim hn hb hfit mem⟩
  | full _ hnull ih =>
    obtain ⟨hblocks, q, hsim⟩ := ih
    refine ⟨poolAlloc_blocks hblocks, ?_⟩
    rcases poolAlloc_sim hsim with ⟨-, c, q', hc, hne, -⟩ | ⟨-, halloc⟩
    · exact absurd (hc.symm.trans hnull) hne
    · rw [halloc]
      exact ⟨q, hsim⟩
  | alloc _ hsome ih =>
    obtain ⟨hblocks, q, hsim⟩ := ih
    refine ⟨poolAlloc_blocks hblocks, ?_⟩
    rcases poolAlloc_sim hsim with ⟨-, c, q', hc, -, -, -, hsim'⟩ | ⟨-, halloc⟩
    · rw [hc]
      exact ⟨q', hsim'⟩
    · rw [halloc] at hsome
      exact absurd rfl hsome
  | free _ hc ih =>
    obtain ⟨hblocks, q, hsim⟩ := ih
    exact ⟨poolFree_blocks hblocks _, _, poolFree_sim hsim hc⟩
  | write mem _ hc hmem ih =>
    obtain ⟨hblocks, q, hsim⟩ := ih
    exact ⟨hblocks, _, write_sim hsim hc hmem⟩

/-- **The memory pool.**  After any calls of `pool_alloc` and `pool_free`, with anything written into the blocks in use:
`pool_alloc` returns `NULL` just when all blocks are in use, and a block that is not in use otherwise; `block_allocated` is
the number of blocks in use; and the list from `next` on visits the other blocks, each once, and ends in `NULL`. -/
theorem pool_correct (blocks nmemb size : ℕ) (hn : 1 ≤ nmemb) (hb : blocks ≠ 0)
    (hfit : blocks + nmemb * max size ptrSize ≤ 2 ^ 64) (p : PoolMem) (live : Finset ℕ)
    (h : PoolMem.Reached blocks nmemb size p live) :
    (p.poolAlloc.1 = 0 ↔ live.card = nmemb) ∧
    (p.poolAlloc.1 ≠ 0 → (∃ k < nmemb, p.poolAlloc.1 = blocks + k * max size ptrSize) ∧ p.poolAlloc.1 ∉ live) ∧
    p.blockAllocated = live.card ∧
    ∃ l, FreeList.Chain (fun a => ofAddr (load p.mem a ptrSize)) (ofAddr p.next) l ∧ l.Nodup ∧
      ∀ a, a ∈ l ↔ (∃ k < nmemb, a = blocks + k * max size ptrSize) ∧ a ∉ live := by
  obtain ⟨⟨hblocks, hnum, hsize⟩, q, hsim⟩ := reached_sim hn (Nat.pos_of_ne_zero hb) hfit h
  have hblock : ∀ a, p.IsBlock a ↔ ∃ k < nmemb, a = blocks + k * max size ptrSize := by
    intro a
    rw [PoolMem.IsBlock, hblocks, hnum, hsize]
  have hcard : p.blockAllocated = live.card := by
    rw [← hsim.allocated, ← hsim.valid.card, hsim.inUse]
  have hchain : FreeList.Chain (fun a => ofAddr (load p.mem a ptrSize)) (ofAddr p.next) q.free := by
    rw [← hsim.next]
    exact hsim.valid.chain.congr fun a ha => (hsim.link a (hsim.freeBlock a ha)).symm
  have hlist : ∀ a, a ∈ q.free ↔ (∃ k < nmemb, a = blocks + k * max size ptrSize) ∧ a ∉ live := by
    intro a
    rw [mem_free_iff hsim, hblock]
  refine ⟨?_, ?_, hcard, q.free, hchain, hsim.valid.nodup, hlist⟩
  · rcases poolAlloc_sim hsim with ⟨hroom, c, q', hc, hne, -⟩ | ⟨hfull, halloc⟩
    · rw [hc]
      exact iff_of_false hne (by omega)
    · rw [halloc]
      exact iff_of_true rfl (by omega)
  · intro hsome
    rcases poolAlloc_sim hsim with ⟨-, c, q', hc, -, hisBlock, hnot, -⟩ | ⟨-, halloc⟩
    · rw [hc]
      exact ⟨(hblock c).mp hisBlock, hnot⟩
    · rw [halloc] at hsome
      exact absurd rfl hsome

end Runs

/-- Two blocks of 20 bytes, the first of them in use and overwritten. -/
theorem pool_correct_overwritten : ∃ p, PoolMem.Reached 1000 2 20 p {1000} ∧ p.mem 1000 = 7 ∧ p.poolAlloc.1 ≠ 0 ∧
    p.blockAllocated = 1 := by
  have hnone : (PoolMem.poolCreate 1000 2 20 fun _ => 0).poolAlloc.1 = 1000 := rfl
  have hrun := PoolMem.Reached.alloc (PoolMem.Reached.create (fun _ => 0)) (hnone.trans_ne (by decide))
  rw [hnone, insert_empty_eq] at hrun
  have hwrite := PoolMem.Reached.write (fun x => if 1000 ≤ x ∧ x < 1020 then 7
    else (PoolMem.poolCreate 1000 2 20 fun _ => 0).poolAlloc.2.mem x) hrun (Finset.mem_singleton_self 1000) ?_
  · obtain ⟨hnull, -, hcount, -⟩ := pool_correct 1000 2 20 (by decide) (by decide) (by decide) _ _ hwrite
    exact ⟨_, hwrite, rfl, fun h => absurd (hnull.mp h) (by decide), hcount⟩
  · intro x hx
    have hsize : (PoolMem.poolCreate 1000 2 20 fun _ => 0).poolAlloc.2.blockSize = 20 := rfl
    rw [hsize] at hx
    exact if_neg (by omega)

end Lotos
