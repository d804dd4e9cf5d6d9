import Mathlib.Algebra.Group.Nat.Defs
import Mathlib.Data.Nat.Basic
import Mathlib.Logic.Function.Basic
import Mathlib.Tactic.Common

/-!
# Words in a memory of bytes

A memory gives every address a byte. A word of `n` bytes is stored with the lowest byte first. It is
read back from where it has been stored (`loadBytes_storeBytes`), and the words that have no byte in
common with it stay as they were (`loadBytes_storeBytes_of_apart`).
-/

namespace SwiftRuntime

/-- The word of a number of bytes at an address. -/
def loadBytes (mem : ℕ → UInt8) : ℕ → ℕ → ℕ
  | _, 0 => 0
  | a, n + 1 => (mem a).toNat + 256 * loadBytes mem (a + 1) n

/-- Stores a word of a number of bytes at an address. -/
def storeBytes (mem : ℕ → UInt8) : ℕ → ℕ → ℕ → ℕ → UInt8
  | _, 0, _ => mem
  | a, n + 1, v => storeBytes (Function.update mem a (UInt8.ofNat v)) (a + 1) n (v / 256)

variable {mem mem' : ℕ → UInt8} {a b n m v : ℕ}

/-- A word depends on its bytes. -/
theorem loadBytes_congr (h : ∀ i < n, mem' (a + i) = mem (a + i)) :
    loadBytes mem' a n = loadBytes mem a n := by
  induction n generalizing a with
  | zero => rfl
  | succ n ih =>
    have hrest : loadBytes mem' (a + 1) n = loadBytes mem (a + 1) n := by
      refine ih fun i hi => ?_
      rw [Nat.add_assoc, Nat.add_comm 1 i]
      exact h (i + 1) (by omega)
    have hlow : mem' a = mem a := h 0 (by omega)
    rw [loadBytes, loadBytes, hrest, hlow]

/-- A store writes the bytes of its word only. -/
theorem storeBytes_of_apart (h : b < a ∨ a + n ≤ b) : storeBytes mem a n v b = mem b := by
  induction n generalizing mem a v with
  | zero => rfl
  | succ n ih =>
    rw [storeBytes, ih (by omega), Function.update_of_ne (by omega)]

/-- A word is read back. -/
theorem loadBytes_storeBytes (hv : v < 256 ^ n) : loadBytes (storeBytes mem a n v) a n = v := by
  induction n generalizing mem a v with
  | zero =>
    rw [loadBytes]
    omega
  | succ n ih =>
    have hlow : storeBytes mem a (n + 1) v a = UInt8.ofNat v := by
      rw [storeBytes, storeBytes_of_apart (by omega), Function.update_self]
    have hhigh : v / 256 < 256 ^ n := Nat.div_lt_of_lt_mul (by rwa [Nat.pow_succ'] at hv)
    rw [loadBytes, hlow, storeBytes, ih hhigh]
    have hbyte : (UInt8.ofNat v).toNat = v % 256 := UInt8.toNat_ofNat'
    omega

/-- A store keeps the words that it has no byte in common with. -/
theorem loadBytes_storeBytes_of_apart (h : a + n ≤ b ∨ b + m ≤ a) :
    loadBytes (storeBytes mem a n v) b m = loadBytes mem b m :=
  loadBytes_congr fun _ _ => storeBytes_of_apart (by omega)

end SwiftRuntime
