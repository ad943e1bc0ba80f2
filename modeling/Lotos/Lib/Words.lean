import Mathlib

/-!
# Words in a memory of bytes

A word of `n` bytes is stored with its least byte first.  What was stored is what is loaded (`load_store`), and a word is not
changed by what happens to the bytes outside of it (`load_congr`).
-/

namespace Words

/-- A memory, by address. -/
abbrev Memory := ℕ → UInt8

/-- The word of `n` bytes at an address. -/
def load (mem : Memory) (a : ℕ) : ℕ → ℕ
  | 0 => 0
  | n + 1 => (mem a).toNat + 256 * load mem (a + 1) n

/-- The memory with a word of `n` bytes at an address. -/
def store (mem : Memory) (a w : ℕ) : ℕ → Memory
  | 0 => mem
  | n + 1 => store (Function.update mem a (UInt8.ofNat w)) (a + 1) (w / 256) n

variable {mem mem' : Memory} {a w n : ℕ}

theorem load_congr (h : ∀ x, a ≤ x → x < a + n → mem' x = mem x) : load mem' a n = load mem a n := by
  induction n generalizing a with
  | zero => rfl
  | succ n ih =>
    rw [load, load, h a le_rfl (by omega), ih (fun x hle hlt => h x (by omega) (by omega))]

theorem store_outside {x : ℕ} (h : x < a ∨ a + n ≤ x) : store mem a w n x = mem x := by
  induction n generalizing mem a w with
  | zero => rfl
  | succ n ih =>
    rw [store, ih (by omega), Function.update_of_ne (by omega)]

theorem load_store (h : w < 256 ^ n) : load (store mem a w n) a n = w := by
  induction n generalizing mem a w with
  | zero =>
    rw [pow_zero] at h
    rw [load]
    omega
  | succ n ih =>
    rw [pow_succ] at h
    rw [load, store, store_outside (.inl (by omega)), Function.update_self, ih (by omega), UInt8.toNat_ofNat']
    omega

end Words
