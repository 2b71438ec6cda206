import Mathlib.Tactic.Common
import Mathlib.Tactic.Ring

/-!
# Byte memories

A byte memory is a function from addresses to bytes. Words are stored in it with their lowest
byte first, and a range of it is replaced by the bytes of another memory.
-/

namespace Bytes

/-- The word in the first `k` bytes, lowest byte first. -/
def leNat : ℕ → (ℕ → UInt8) → ℕ
  | 0, _ => 0
  | k + 1, m => (m 0).toNat + 256 * leNat k fun i => m (i + 1)

def leByte (x i : ℕ) : UInt8 :=
  UInt8.ofNat (x / 256 ^ i)

/-- The word in the `k` bytes from `a` on, highest byte first. -/
def readBe (m : ℕ → UInt8) (a k : ℕ) : ℕ :=
  leNat k fun i => m (a + (k - 1 - i))

/-- The low `k` bytes of a word in the other order. -/
def byteSwap (k x : ℕ) : ℕ :=
  readBe (leByte x) 0 k

/-- The memory with the `n` bytes from `a` on replaced. -/
def blit (m : ℕ → UInt8) (a n : ℕ) (src : ℕ → UInt8) : ℕ → UInt8 :=
  fun j => if a ≤ j ∧ j < a + n then src (j - a) else m j

section Words

variable {k : ℕ} {m m' : ℕ → UInt8}

theorem leNat_congr (h : ∀ i < k, m i = m' i) : leNat k m = leNat k m' := by
  induction k generalizing m m' with
  | zero => rfl
  | succ k ih =>
    rw [leNat, leNat, h 0 (Nat.succ_pos k), ih fun i hi => h (i + 1) (by omega)]

theorem leNat_lt (k : ℕ) (m : ℕ → UInt8) : leNat k m < 256 ^ k := by
  induction k generalizing m with
  | zero => simp [leNat]
  | succ k ih =>
    have hrest := ih fun i => m (i + 1)
    have hbyte := (m 0).toNat_lt
    rw [leNat, pow_succ]
    omega

theorem readBe_lt (m : ℕ → UInt8) (a k : ℕ) : readBe m a k < 256 ^ k :=
  leNat_lt k _

theorem byteSwap_two (x : ℕ) : byteSwap 2 x = 256 * (x % 256) + x / 256 % 256 := by
  simp only [byteSwap, readBe, leNat, leByte, UInt8.toNat_ofNat']
  omega

/-- A stored word reads back, reduced to its width. -/
theorem leNat_leByte (k x : ℕ) : leNat k (leByte x) = x % 256 ^ k := by
  induction k generalizing x with
  | zero => simp [leNat, Nat.mod_one]
  | succ k ih =>
    have hrest : (fun i => leByte x (i + 1)) = leByte (x / 256) := by
      funext i
      rw [leByte, leByte, Nat.div_div_eq_div_mul, pow_succ']
    rw [leNat, hrest, ih, pow_succ', Nat.mod_mul]
    simp [leByte]

end Words

section Blit

variable (m : ℕ → UInt8) {a n j : ℕ} (src : ℕ → UInt8)

theorem blit_of_mem (h1 : a ≤ j) (h2 : j < a + n) : blit m a n src j = src (j - a) :=
  if_pos ⟨h1, h2⟩

theorem blit_of_not_mem (h : j < a ∨ a + n ≤ j) : blit m a n src j = m j :=
  if_neg (by omega)

theorem blit_congr {m' : ℕ → UInt8} (h : m j = m' j) : blit m a n src j = blit m' a n src j := by
  rw [blit, blit, h]

/-- Two ranges side by side. -/
theorem blit_append (m : ℕ → UInt8) (a n k : ℕ) (src : ℕ → UInt8) :
    blit (blit m a n src) (a + n) k (fun j => src (n + j)) = blit m a (n + k) src := by
  funext j
  by_cases h1 : j < a
  · rw [blit_of_not_mem _ _ (.inl (by omega)), blit_of_not_mem _ _ (.inl h1),
      blit_of_not_mem _ _ (.inl h1)]
  · by_cases h2 : j < a + n
    · rw [blit_of_not_mem _ _ (.inl h2), blit_of_mem _ _ (by omega) h2,
        blit_of_mem _ _ (by omega) (by omega)]
    · by_cases h3 : j < a + n + k
      · rw [blit_of_mem _ _ (by omega) h3, blit_of_mem _ _ (by omega) (by omega),
          show n + (j - (a + n)) = j - a by omega]
      · rw [blit_of_not_mem _ _ (.inr (by omega)), blit_of_not_mem _ _ (.inr (by omega)),
          blit_of_not_mem _ _ (.inr (by omega))]

/-- A range is replaced inside a copy of a larger one. -/
theorem blit_blit_copy (m : ℕ → UInt8) {a n off k : ℕ} (h : off + k ≤ n) (src : ℕ → UInt8) :
    blit m a n (blit (fun i => m (a + i)) off k src) = blit m (a + off) k src := by
  funext j
  by_cases hin : a ≤ j ∧ j < a + n
  · rw [blit_of_mem _ _ hin.1 hin.2]
    by_cases hk : a + off ≤ j ∧ j < a + off + k
    · rw [blit_of_mem _ _ hk.1 hk.2, blit_of_mem _ _ (by omega) (by omega),
        show j - a - off = j - (a + off) by omega]
    · rw [blit_of_not_mem _ _ (by omega), blit_of_not_mem _ _ (by omega),
        show a + (j - a) = j by omega]
  · rw [blit_of_not_mem _ _ (by omega), blit_of_not_mem _ _ (by omega)]

end Blit

end Bytes
