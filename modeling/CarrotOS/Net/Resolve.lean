import CarrotOS.Net.Arp
import CarrotOS.Net.Route
import CarrotOS.Net.TcpSend

/-!
# Resolving the destination of a frame (`core/network/e1000.h`)

`nic_send_ipv4` passes a buffer that it has not initialised to `find_mac_of_ipv4`, does not look at
the result, and takes the address for found if the buffer is not zero. A lookup that fails leaves
the buffer as it was, so that the frame goes to whatever the stack contained.
-/

namespace CarrotOS.Inet

open Word

/-- `struct nic_t`, with the `masklen` of its first address. -/
structure Card extends Nic where
  masklen : ℕ
  gateway : BitVec 32

/-- The clock and the tables that a transmission reads. -/
structure Links where
  now : Timeval
  cache : MacCache
  routes : RouteTable
  nics : ℕ → Option Card
  now_lt : now.tvSec < 2 ^ 64

namespace Links

def maxNicCount : ℕ := 4096 / 8

def findNicIdByIpv4 (l : Links) (srcIp : BitVec 32) : Option ℕ :=
  if srcIp = 0 then some 1
  else (List.range macCacheLines).find? fun i => (l.nics i).any fun nic =>
    (List.range maxIpPerNic).any fun j =>
      (nic.ip j).addrL ≠ 0 ∧ srcIp.toNat = (nic.ip j).addrL ∧ (nic.ip j).ver = 4

/-- `find_first_gateway`, `none` for 0. -/
def findFirstGateway (l : Links) : Option (BitVec 32) :=
  (List.range maxNicCount).findSome? fun i => (l.nics i).bind fun nic =>
    if nic.gateway = 0 then none else some nic.gateway

/-- The address for which `find_mac_of_ipv4` asks the cache: the destination, or the next hop. -/
def hop (l : Links) (nic : Card) (ip : BitVec 32) : Option (BitVec 32) :=
  if inL2 ip (BitVec.ofNat 32 (nic.ip 0).addrL) (charToNetmask nic.masklen) then some ip
  else
    match findRoute l.routes ip with
    | some i => some (l.routes i).gateway
    | none => l.findFirstGateway

/-- `find_mac_of_ipv4`: what it leaves in the buffer. -/
def findMacOfIpv4 (l : Links) (nic : Card) (ip : BitVec 32) (mac : Vector UInt8 6) :
    Vector UInt8 6 :=
  ((l.hop nic ip).bind fun ip => findMacOfIpv4L2 l.now l.cache ip.toNat).getD mac

/-- `nic_send_ipv4` for a packet, with the bytes that the stack held for `remote_mac`: the result,
and the frame that is handed to `e1000_send`. There is no result without a card. -/
def nicSendIpv4 (l : Links) (junk : Vector UInt8 6) (srcIp dstIp : BitVec 32)
    (packet : List UInt8) : Option (ℤ × Option (List UInt8)) := do
  let nic ← l.nics (← l.findNicIdByIpv4 srcIp)
  let remoteMac := l.findMacOfIpv4 nic dstIp junk
  if remoteMac = Vector.replicate 6 0 then some (-11, none)
  else some (0, some (remoteMac.toList ++ nic.mac.toList ++ [0x08, 0x00] ++ packet))

/-- Whether a packet between two addresses is handed to the card. -/
def resolved (l : Links) (junk : Vector UInt8 6) (srcIp dstIp : ℕ) : Bool :=
  (l.nicSendIpv4 junk (BitVec.ofNat 32 srcIp) (BitVec.ofNat 32 dstIp) []).any fun r => r.2.isSome

/-- A line of the cache for the destination or the next hop. -/
def Line (l : Links) (nic : Card) (ip : BitVec 32) (i : ℕ) : Prop :=
  i < macCacheLines ∧ (l.hop nic ip).map BitVec.toNat = some (l.cache i).ip

/-- The line is younger than the timeout. -/
def Valid (l : Links) (nic : Card) (ip : BitVec 32) (i : ℕ) : Prop :=
  l.Line nic ip i ∧ l.now.tvSec < (l.cache i).timestamp + macCacheTimeout / 1000

/-- The line passes the comparison in 64 bits, which refuses lines in the first minute. -/
def Seen (l : Links) (nic : Card) (ip : BitVec 32) (i : ℕ) : Prop :=
  l.Line nic ip i ∧ (l.cache i).timestamp > u64 (l.now.tvSec + 2 ^ 64 - macCacheTimeout / 1000)

/-- Without a valid line nothing is sent; with one, the frame has the address of such a line. -/
def Resolves (l : Links) (nic : Card) (ip : BitVec 32) (r : ℤ × Option (List UInt8)) : Prop :=
  ((∀ i, ¬l.Valid nic ip i) → r = (-11, none)) ∧
  ((∃ i, l.Valid nic ip i) → ∃ frame i, r = (0, some frame) ∧ l.Valid nic ip i ∧
    frame.take 6 = (l.cache i).mac.toList)

variable {l : Links} {nic : Card} {ip : BitVec 32} {i : ℕ}

theorem Seen.valid (h : l.Seen nic ip i) : l.Valid nic ip i := by
  refine ⟨h.1, ?_⟩
  have hlt := l.now_lt
  have hseen := h.2
  unfold u64 macCacheTimeout at *
  omega

/-- The buffer gets the address of the first line that is seen. -/
theorem findMacOfIpv4_cases (l : Links) (nic : Card) (ip : BitVec 32) (mac : Vector UInt8 6) :
    (l.findMacOfIpv4 nic ip mac = mac ∧ ∀ i, ¬l.Seen nic ip i) ∨
    ∃ i, l.findMacOfIpv4 nic ip mac = (l.cache i).mac ∧ l.Seen nic ip i ∧
      ∀ j < i, ¬l.Seen nic ip j := by
  cases hhop : l.hop nic ip with
  | none => exact .inl ⟨by simp [findMacOfIpv4, hhop], by simp [Seen, Line, hhop]⟩
  | some a =>
    have hseen : ∀ i, l.Seen nic ip i ↔ i < macCacheLines ∧ (l.cache i).ip = a.toNat ∧
        (l.cache i).timestamp > u64 (l.now.tvSec + 2 ^ 64 - macCacheTimeout / 1000) := by
      simp [Seen, Line, hhop, and_assoc, eq_comm]
    rw [findMacOfIpv4, hhop, Option.bind_some, findMacOfIpv4L2]
    cases hfind : (List.range macCacheLines).find? fun i => (l.cache i).ip = a.toNat ∧
        (l.cache i).timestamp > u64 (l.now.tvSec + 2 ^ 64 - macCacheTimeout / 1000) with
    | none =>
      refine .inl ⟨rfl, fun i hi => ?_⟩
      obtain ⟨hlt, htest⟩ := (hseen i).mp hi
      exact List.find?_eq_none.mp hfind i (List.mem_range.mpr hlt) (decide_eq_true htest)
    | some i =>
      obtain ⟨htest, hi, hfirst⟩ := List.find?_range_eq_some.mp hfind
      refine .inr ⟨i, rfl, (hseen i).mpr ⟨List.mem_range.mp hi, of_decide_eq_true htest⟩, ?_⟩
      intro j hj hs
      have hno := hfirst j hj
      rw [Bool.not_eq_true', decide_eq_false_iff_not] at hno
      exact hno ((hseen j).mp hs).2

theorem nicSendIpv4_of_card {nicId : ℕ} {srcIp : BitVec 32} (junk : Vector UInt8 6)
    (packet : List UInt8) (hid : l.findNicIdByIpv4 srcIp = some nicId)
    (hnic : l.nics nicId = some nic) : l.nicSendIpv4 junk srcIp ip packet =
      if l.findMacOfIpv4 nic ip junk = Vector.replicate 6 0 then some (-11, none)
      else some (0, some ((l.findMacOfIpv4 nic ip junk).toList ++ nic.mac.toList ++
        [0x08, 0x00] ++ packet)) := by
  rw [nicSendIpv4, hid, Option.bind_eq_bind, Option.bind_some, Option.bind_eq_bind, hnic]
  rfl

/-- **What the TCP layer sees of `nic_send_ipv4`**: in an environment that takes its answers from
the tables, it gets the result, and its packet has been sent exactly if a frame is handed to the
card. -/
theorem nicSendIpv4_of_links {env : Env} {net : Net} {id : ℕ} {p : Packet} {junk : Vector UInt8 6}
    {packet : List UInt8} {r : ℤ × Option (List UInt8)} (henv : env.resolved = l.resolved junk)
    (h : l.nicSendIpv4 junk (BitVec.ofNat 32 p.srcIp) (BitVec.ofNat 32 p.dstIp) packet = some r) :
    CarrotOS.nicSendIpv4 env net id p =
      (if r.2.isSome then { net with sent := net.sent ++ [⟨id, p⟩] } else net, r.1) := by
  obtain ⟨nicId, hid, h'⟩ := Option.bind_eq_some_iff.mp h
  obtain ⟨nic, hnic, -⟩ := Option.bind_eq_some_iff.mp h'
  rw [nicSendIpv4_of_card _ _ hid hnic] at h
  rw [CarrotOS.nicSendIpv4, henv, resolved, nicSendIpv4_of_card _ _ hid hnic]
  split at h
  · rename_i hzero
    cases h
    simp [hzero, eAgain]
  · rename_i hfound
    cases h
    simp [hfound]

/-- A card with the address 10.0.0.1 and a gateway. -/
def firstCard (gateway : BitVec 32) : Card where
  mac := Vector.replicate 6 0x52
  ip _ := ⟨0, 0x0A000001, 4, .assigned, ⟨0, 0⟩⟩
  masklen := 8
  gateway := gateway

def oneCard (gateway : BitVec 32) (cache : MacCache) : Links where
  now := ⟨1000, 0⟩
  cache := cache
  routes _ := blank
  nics i := if i = 1 then some (firstCard gateway) else none
  now_lt := by decide

/-- The hardware address of 10.0.0.2. -/
def secondHost : MacCache :=
  addCacheMacV4Line (fun _ => removedLine) 0 0x0A000002 (Vector.replicate 6 0x54) 1 1000

theorem oneCard_not_valid (nic : Card) (ip : BitVec 32) (i : ℕ) :
    ¬(oneCard 0 fun _ => removedLine).Valid nic ip i :=
  fun h => absurd h.2 (by decide : ¬1000 < 0 + macCacheTimeout / 1000)

end Links

end CarrotOS.Inet
