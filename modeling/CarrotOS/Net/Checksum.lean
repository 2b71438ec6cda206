import CarrotOS.Net.TcpSend

/-!
# Checksums in two byte orders (`core/network/af_inet`)

`tcp_checksum` sums big-endian words and exchanges the bytes of the result, `network_checksum`
sums little-endian words. Modulo `2 ^ 16 - 1` a little-endian sum is 256 times the big-endian one,
and folding keeps that remainder, with 0 only for 0.
-/

namespace CarrotOS

open Word Bytes List

/-- The sum of the little-endian 16-bit words of a byte string. -/
def leSum : List UInt8 → ℕ
  | a :: b :: rest => a.toNat + 256 * b.toNat + leSum rest
  | [a] => a.toNat
  | [] => 0

def networkChecksum (buf : List UInt8) : ℕ :=
  u16 (2 ^ 32 - 1 - foldCarries (u32 (leSum buf)))

/-- A segment behind the 12 bytes of its pseudo header. -/
def TcpHdr.summed (h : TcpHdr) (srcIp dstIp : ℕ) (payload : List UInt8) : List UInt8 :=
  be16 (srcIp >>> 16) ++ be16 srcIp ++ be16 (dstIp >>> 16) ++ be16 dstIp ++ be16 6 ++
    be16 (20 + payload.length) ++ h.bytes ++ payload

theorem foldCarries_spec (n : ℕ) : foldCarries n < 2 ^ 16 ∧
    foldCarries n % 65535 = n % 65535 ∧ (foldCarries n = 0 ↔ n = 0) := by
  fun_induction foldCarries n <;> omega

/-- The complement of a folded sum is the negative of the sum. -/
theorem complement_spec {n : ℕ} (hpos : 0 < n) (hn : n < 2 ^ 32) :
    u16 (2 ^ 32 - 1 - foldCarries (u32 n)) < 65535 ∧
      (u16 (2 ^ 32 - 1 - foldCarries (u32 n)) + n) % 65535 = 0 := by
  have hfold := foldCarries_spec n
  rw [u32, Nat.mod_eq_of_lt hn, u16]
  omega

theorem shift_or_byte (a : ℕ) {b : ℕ} (h : b < 256) : a <<< 8 ||| b = 256 * a + b := by
  rw [← Nat.shiftLeft_add_eq_or_of_lt (i := 8) h, Nat.shiftLeft_eq, Nat.mul_comm]

theorem htons_eq {x : ℕ} (hx : x < 2 ^ 16) : htons x = 256 * (x % 256) + x / 256 := by
  rw [htons, byteSwap_two]
  omega

theorem htons_spec {x : ℕ} (hx : x < 65535) :
    htons x < 65535 ∧ 256 * x = htons x + 65535 * (x / 256) ∧ u16 (htons (htons x)) = x := by
  have heq := htons_eq (x := x) (by omega)
  have hdiv : htons x / 256 = x % 256 := by omega
  rw [htons_eq (x := htons x) (by omega), hdiv, u16]
  omega

theorem leSum_spec (l : List UInt8) : leSum l % 65535 = 256 * wordSum l % 65535 ∧
    (leSum l = 0 ↔ wordSum l = 0) ∧ leSum l ≤ 65535 * ((l.length + 1) / 2) ∧
    wordSum l ≤ 65535 * ((l.length + 1) / 2) := by
  fun_induction wordSum l with
  | case1 a b rest ih =>
    have ha := a.toNat_lt
    have hb := b.toNat_lt
    rw [leSum, shift_or_byte _ hb, length_cons, length_cons]
    omega
  | case2 a =>
    have ha := a.toNat_lt
    rw [leSum, Nat.shiftLeft_eq, length_singleton]
    omega
  | case3 => simp [leSum]

theorem wordSum_be16 (x : ℕ) (l : List UInt8) : wordSum (be16 x ++ l) = u16 x + wordSum l := by
  rw [be16, cons_append, cons_append, nil_append, wordSum,
    shift_or_byte _ (UInt8.toNat_lt _), leByte, leByte, UInt8.toNat_ofNat', UInt8.toNat_ofNat', u16]
  omega

/-- `tcp_checksum` sums a segment behind its pseudo header, and the checksum field joins in. -/
theorem wordSum_summed (h : TcpHdr) (c src dst : ℕ) (payload : List UInt8) :
    wordSum ({ h with checksum := c }.summed src dst payload) =
      u16 (src >>> 16) + u16 src + u16 (dst >>> 16) + u16 dst + 6 + u16 (20 + payload.length) +
        wordSum { h with checksum := 0 }.bytes + wordSum payload + u16 (htons c) := by
  rw [← append_nil (TcpHdr.bytes _)]
  simp only [TcpHdr.summed, TcpHdr.bytes, append_assoc, cons_append, nil_append,
    wordSum_be16, wordSum, show u16 6 = 6 from rfl, show u16 (htons 0) = 0 from rfl]
  omega

/-- The byte orders agree, and a segment with its checksum stored sums to 0. -/
theorem tcpChecksum_verifies (h : TcpHdr) (srcIp dstIp : ℕ) {payload : List UInt8}
    (hlen : payload.length ≤ 65515) :
    let c := tcpChecksum { h with checksum := 0 } srcIp dstIp payload
    c = networkChecksum ({ h with checksum := 0 }.summed srcIp dstIp payload) ∧
      networkChecksum ({ h with checksum := c }.summed srcIp dstIp payload) = 0 := by
  intro c
  have hspec (c : ℕ) : let buf := { h with checksum := c }.summed srcIp dstIp payload
      6 ≤ wordSum buf ∧ wordSum buf < 2 ^ 32 ∧ leSum buf % 65535 = 256 * wordSum buf % 65535 ∧
        networkChecksum buf < 65535 ∧ (networkChecksum buf + leSum buf) % 65535 = 0 := by
    intro buf
    have hbytes : buf.length = 32 + payload.length := by
      simp +arith [buf, TcpHdr.summed, TcpHdr.bytes, be16]
    have hsix : 6 ≤ wordSum buf := by
      rw [wordSum_summed]
      omega
    obtain ⟨hmod, hzero, hle, hle'⟩ := leSum_spec buf
    exact ⟨hsix, by omega, hmod, complement_spec (by omega) (by omega)⟩
  obtain ⟨hsix, hlt, hmod, hy⟩ := hspec 0
  obtain ⟨-, -, hmod', hz⟩ := hspec c
  have hsum (c : ℕ) := wordSum_summed h c srcIp dstIp payload
  have hsum0 := hsum 0
  rw [show u16 (htons 0) = 0 from rfl, Nat.add_zero] at hsum0
  have hx := complement_spec (by omega) hlt
  have hc := htons_spec hx.1
  rw [hsum0] at hx hmod
  rw [hsum0, ← tcpChecksum, show tcpChecksum _ _ _ _ = c from rfl] at hc
  rw [hsum c] at hmod'
  omega

theorem tcpChecksum_verifies_odd :
    let h : TcpHdr := ⟨40000, 80, 7, 9, 80, 16, 65535, 0, 0⟩
    let c := tcpChecksum h 0x0A000001 0x0A000002 [1, 2, 3]
    c = networkChecksum (h.summed 0x0A000001 0x0A000002 [1, 2, 3]) ∧
      networkChecksum ({ h with checksum := c }.summed 0x0A000001 0x0A000002 [1, 2, 3]) = 0 :=
  tcpChecksum_verifies ⟨40000, 80, 7, 9, 80, 16, 65535, 0, 0⟩ _ _ (by decide)

end CarrotOS
