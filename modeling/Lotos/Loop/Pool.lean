import Lotos.Heap.Defs
import Lotos.Lib.FreeList

/-!
# The memory pool (`mem_pool.c`)

The blocks of the pool are addresses.  A free block holds the address of the next free one in its first word; in a block that
is in use that word is the beginning of what the block is used for.  `live` records which blocks have been given out and not
given back; no function reads it.
-/

namespace Lotos

/-- `mem_pool_t`, with the first word of every block. -/
structure MemPool where
  blockNum : ℕ
  blockSize : ℕ
  blockAllocated : ℕ
  next : Option ConnPtr
  blocks : ConnPtr
  /-- the first word of a block -/
  link : ConnPtr → Option ConnPtr
  /-- the blocks in use -/
  live : Finset ConnPtr

/-- The loop of `pool_create`, with `n` blocks after the one at `p`. -/
def linkBlocks (size : ℕ) (link : ConnPtr → Option ConnPtr) (p : ConnPtr) : ℕ → ConnPtr → Option ConnPtr
  | 0 => Function.update link p none
  | n + 1 => linkBlocks size (Function.update link p (some (p + size))) (p + size) n

/-- `pool_create`, on the memory that `calloc` has returned. -/
def poolCreate (blocks : ConnPtr) (nmemb size : ℕ) : MemPool where
  blockNum := nmemb
  -- `sizeof(void *)` is 8
  blockSize := max size 8
  blockAllocated := 0
  next := some blocks
  blocks := blocks
  link := linkBlocks (max size 8) (fun _ => none) blocks (nmemb - 1)
  live := ∅

/-- `pool_alloc` -/
def poolAlloc (p : MemPool) : Option ConnPtr × MemPool :=
  if p.blockAllocated ≥ p.blockNum then (none, p)
  else
    match p.next with
    | some cur => (some cur, { p with
        next := p.link cur
        blockAllocated := p.blockAllocated + 1
        live := insert cur p.live })
    | none => (none, p)

/-- `pool_free` -/
def poolFree (p : MemPool) (ptr : ConnPtr) : MemPool :=
  { p with
    link := Function.update p.link ptr p.next
    next := some ptr
    blockAllocated := p.blockAllocated - 1
    live := p.live.erase ptr }

/-- The first word of a block in use is written. -/
def MemPool.write (p : MemPool) (ptr : ConnPtr) (word : Option ConnPtr) : MemPool :=
  { p with link := Function.update p.link ptr word }

/-- The free blocks, in the order in which they will be given out. -/
def MemPool.free (p : MemPool) : List ConnPtr := FreeList.follow p.link p.next p.blockNum

/-- The free list is intact, and counts what is not in use. -/
structure MemPool.Valid (p : MemPool) : Prop where
  chain : FreeList.Chain p.link p.next p.free
  nodup : p.free.Nodup
  apart : ∀ a ∈ p.free, a ∉ p.live
  card : p.live.card = p.blockAllocated
  count : p.free.length + p.blockAllocated = p.blockNum

section Pool

variable {p : MemPool}

theorem MemPool.Valid.of_chain {l : List ConnPtr} (hchain : FreeList.Chain p.link p.next l) (hnodup : l.Nodup)
    (hapart : ∀ a ∈ l, a ∉ p.live) (hcard : p.live.card = p.blockAllocated)
    (hcount : l.length + p.blockAllocated = p.blockNum) : p.Valid ∧ p.free = l := by
  have hfree : p.free = l := hchain.follow_eq (by omega)
  exact ⟨⟨hfree ▸ hchain, hfree ▸ hnodup, hfree ▸ hapart, hcard, hfree ▸ hcount⟩, hfree⟩

theorem linkBlocks_below (size : ℕ) (link : ConnPtr → Option ConnPtr) (p n : ℕ) {a : ℕ} (h : a < p) :
    linkBlocks size link p n a = link a := by
  induction n generalizing link p with
  | zero => exact Function.update_of_ne h.ne _ _
  | succ n ih =>
    rw [linkBlocks, ih _ _ (by omega)]
    exact Function.update_of_ne h.ne _ _

/-- The addresses of `n + 1` blocks from `p` on. -/
def blockAddrs (size p : ℕ) : ℕ → List ConnPtr
  | 0 => [p]
  | n + 1 => p :: blockAddrs size (p + size) n

theorem blockAddrs_le {size p n a : ℕ} (h : a ∈ blockAddrs size p n) : p ≤ a := by
  induction n generalizing p with
  | zero => exact (List.mem_singleton.mp h).ge
  | succ n ih =>
    rcases List.mem_cons.mp h with rfl | h
    · exact le_rfl
    · exact (Nat.le_add_right _ _).trans (ih h)

theorem blockAddrs_nodup {size : ℕ} (hsize : 0 < size) (p n : ℕ) : (blockAddrs size p n).Nodup := by
  induction n generalizing p with
  | zero => exact List.nodup_singleton p
  | succ n ih =>
    refine List.nodup_cons.mpr ⟨?_, ih _⟩
    intro hmem
    have := blockAddrs_le hmem
    omega

theorem blockAddrs_length (size p n : ℕ) : (blockAddrs size p n).length = n + 1 := by
  induction n generalizing p with
  | zero => rfl
  | succ n ih => rw [blockAddrs, List.length_cons, ih]

/-- The loop of `pool_create` links the blocks in the order of their addresses. -/
theorem linkBlocks_chain {size : ℕ} (hsize : 0 < size) (link : ConnPtr → Option ConnPtr) (p n : ℕ) :
    FreeList.Chain (linkBlocks size link p n) (some p) (blockAddrs size p n) := by
  induction n generalizing link p with
  | zero => exact ⟨rfl, Function.update_self _ _ _⟩
  | succ n ih =>
    refine ⟨rfl, ?_⟩
    rw [linkBlocks, linkBlocks_below _ _ _ _ (by omega), Function.update_self]
    exact ih _ _

theorem poolCreate_valid (blocks : ConnPtr) {nmemb : ℕ} (size : ℕ) (hn : 0 < nmemb) :
    (poolCreate blocks nmemb size).Valid := by
  have hsize : 0 < max size 8 := by omega
  refine (MemPool.Valid.of_chain (linkBlocks_chain hsize _ blocks (nmemb - 1)) (blockAddrs_nodup hsize _ _) ?_ rfl ?_).1
  · exact fun _ _ => Finset.notMem_empty _
  · rw [blockAddrs_length]
    simp only [poolCreate]
    omega

/-- **`pool_alloc`.**  While fewer than all blocks are in use it gives out a free one, and nothing otherwise. -/
theorem poolAlloc_spec (h : p.Valid) :
    (p.blockAllocated < p.blockNum ∧ ∃ c p', poolAlloc p = (some c, p') ∧ c ∉ p.live ∧ p'.live = insert c p.live ∧
      p'.blockNum = p.blockNum ∧ p.free = c :: p'.free ∧ p'.Valid) ∨
    (¬ p.blockAllocated < p.blockNum ∧ poolAlloc p = (none, p)) := by
  by_cases hroom : p.blockAllocated < p.blockNum
  · refine .inl ⟨hroom, ?_⟩
    have hcount := h.count
    have hchain := h.chain
    have hnodup := h.nodup
    have hapart := h.apart
    cases hfree : p.free with
    | nil =>
      rw [hfree] at hcount
      simp only [List.length_nil] at hcount
      omega
    | cons c l =>
      rw [hfree] at hchain hnodup hapart hcount
      have hc := hapart c List.mem_cons_self
      obtain ⟨hc', hnodup⟩ := List.nodup_cons.mp hnodup
      have halloc : poolAlloc p = (some c, { p with
          next := p.link c, blockAllocated := p.blockAllocated + 1, live := insert c p.live }) := by
        rw [poolAlloc, if_neg (by omega), hchain.1]
      have hapart' : ∀ a ∈ l, a ∉ insert c p.live := by
        intro a ha hmem
        rcases Finset.mem_insert.mp hmem with rfl | hmem
        · exact hc' ha
        · exact hapart a (List.mem_cons_of_mem _ ha) hmem
      have hcard' : (insert c p.live).card = p.blockAllocated + 1 := by
        rw [Finset.card_insert_of_notMem hc, h.card]
      obtain ⟨hvalid, hfree'⟩ := MemPool.Valid.of_chain (p := { p with
        next := p.link c, blockAllocated := p.blockAllocated + 1, live := insert c p.live }) hchain.2 hnodup hapart' hcard'
        (by rw [List.length_cons] at hcount; simp only; omega)
      exact ⟨c, _, halloc, hc, rfl, rfl, by rw [hfree'], hvalid⟩
  · exact .inr ⟨hroom, by rw [poolAlloc, if_pos (by omega)]⟩

theorem write_valid (h : p.Valid) {c : ConnPtr} (hc : c ∈ p.live) (word : Option ConnPtr) :
    (p.write c word).Valid ∧ (p.write c word).free = p.free := by
  have hnot : c ∉ p.free := fun hmem => h.apart c hmem hc
  exact MemPool.Valid.of_chain (h.chain.update hnot word) h.nodup h.apart h.card h.count

/-- **`pool_free`**, of a block in use. -/
theorem poolFree_valid (h : p.Valid) {c : ConnPtr} (hc : c ∈ p.live) :
    (poolFree p c).Valid ∧ (poolFree p c).free = c :: p.free := by
  have hnot : c ∉ p.free := fun hmem => h.apart c hmem hc
  have hpos := Finset.card_pos.mpr ⟨c, hc⟩
  have hcard := h.card
  have hcount := h.count
  refine MemPool.Valid.of_chain (h.chain.push hnot) (List.nodup_cons.mpr ⟨hnot, h.nodup⟩) ?_ ?_ ?_
  · intro a ha hmem
    obtain ⟨hne, hmem⟩ := Finset.mem_erase.mp hmem
    rcases List.mem_cons.mp ha with rfl | ha
    · exact hne rfl
    · exact h.apart a ha hmem
  · rw [poolFree, Finset.card_erase_of_mem hc, hcard]
  · rw [List.length_cons]
    simp only [poolFree]
    omega

end Pool

end Lotos
