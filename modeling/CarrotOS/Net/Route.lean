import CarrotOS.Lib.Word
import CarrotOS.Sched.Basic
import Mathlib.Logic.Function.Basic
import Mathlib.Order.Basic

/-!
# IPv4 addresses and routes (`core/network/af_inet/af_inet.h`)

Addresses are numbers with the first field of the dotted form on top. `ip_str_to_int` lets fields be
empty. `char_to_netmask` sets the lowest bits, so that the decision whether an address is on the
link compares the last fields. `find_route` takes the last of the longest matching prefixes, and
`del_route` erases three bytes of an entry, its length divided by eight.
-/

namespace CarrotOS.Inet

open Word Function List BitVec

/-! ## The dotted form -/

/-- The loop of `ip_str_to_int` with its locals, over the characters in front of the NUL, and what
follows it. -/
def ipStrLoop (result octet dots : ℕ) : List UInt8 → ℕ
  | [] => if dots ≠ 3 then 0 else u32 (result <<< 8) ||| octet
  | c :: s =>
    if 0x30 ≤ c ∧ c ≤ 0x39 then
      let octet := octet * 10 + (c.toNat - 0x30)
      if octet > 255 then 0 else ipStrLoop result octet dots s
    else if c = 0x2E then
      if dots + 1 > 3 then 0 else ipStrLoop (u32 (result <<< 8) ||| octet) 0 (dots + 1) s
    else 0

def ipStrToInt (s : List UInt8) : ℕ := ipStrLoop 0 0 0 s

/-- The number that digits behind `octet` make. -/
def decimal (octet : ℕ) (f : List UInt8) : ℕ :=
  f.foldl (fun n c => n * 10 + (c.toNat - 0x30)) octet

/-- The characters are digits, and the number that they make behind `octet` fits into a byte. -/
def IsOctet (octet : ℕ) (f : List UInt8) : Prop :=
  (∀ c ∈ f, 0x30 ≤ c ∧ c ≤ 0x39) ∧ decimal octet f ≤ 255

instance (octet : ℕ) (f : List UInt8) : Decidable (IsOctet octet f) :=
  inferInstanceAs (Decidable (_ ∧ _))

/-- The fields between the dots. -/
def fields (s : List UInt8) : List (List UInt8) := s.splitOn 0x2E

/-- `a * 2 ^ 24 + b * 2 ^ 16 + c * 2 ^ 8 + d`, for four fields. -/
def address (fs : List (List UInt8)) : ℕ :=
  fs.foldl (fun r f => r * 256 + decimal 0 f) 0

/-- Four fields of digits whose numbers fit into a byte; a field may be empty. -/
def FourOctets (s : List UInt8) : Prop :=
  (fields s).length = 4 ∧ ∀ f ∈ fields s, IsOctet 0 f

instance (s : List UInt8) : Decidable (FourOctets s) :=
  inferInstanceAs (Decidable (_ ∧ _))

instance decidableNilNotMem (l : List (List UInt8)) : Decidable ([] ∉ l) :=
  decidable_of_iff (∀ f ∈ l, f ≠ []) ⟨fun h hnil => h _ hnil rfl, fun h _ hf he => h (he ▸ hf)⟩

/-- The address of a dotted quad, and 0 for every other string. -/
def dottedQuad (s : List UInt8) : ℕ :=
  if FourOctets s ∧ [] ∉ fields s then address (fields s) else 0

theorem le_decimal (octet : ℕ) (f : List UInt8) : octet ≤ decimal octet f := by
  induction f generalizing octet with
  | nil => exact Nat.le_refl _
  | cons c f ih =>
    have := ih (octet * 10 + (c.toNat - 0x30))
    rw [decimal, foldl_cons, ← decimal]
    omega

theorem shift_or_octet {r o d : ℕ} (hr : r < 256 ^ d) (hd : d ≤ 3) (ho : o ≤ 255) :
    u32 (r <<< 8) ||| o = r * 256 + o := by
  have hpow : 256 ^ d ≤ 256 ^ 3 := Nat.pow_le_pow_right (by decide) hd
  rw [u32, Nat.mod_eq_of_lt (by rw [Nat.shiftLeft_eq]; omega),
    ← Nat.shiftLeft_add_eq_or_of_lt (by omega), Nat.shiftLeft_eq]

/-- What the loop returns, by the fields that are left: the first of them goes on with `octet`. -/
theorem ipStrLoop_eq {r o d : ℕ} {s f : List UInt8} {fs : List (List UInt8)}
    (hs : fields s = f :: fs) (hr : r < 256 ^ d) (hd : d ≤ 3) (ho : o ≤ 255) :
    ipStrLoop r o d s = if fs.length + d = 3 ∧ IsOctet o f ∧ ∀ g ∈ fs, IsOctet 0 g then
      fs.foldl (fun r f => r * 256 + decimal 0 f) (r * 256 + decimal o f) else 0 := by
  induction s generalizing r o d f fs with
  | nil =>
    cases hs
    have hoctet : IsOctet o [] := ⟨by simp, ho⟩
    simp [ipStrLoop, shift_or_octet hr hd ho, hoctet, decimal]
  | cons c s ih =>
    obtain ⟨f', fs', hs'⟩ := exists_cons_of_ne_nil (splitOn_ne_nil 0x2E s)
    rw [fields, splitOn_cons_eq_if_modifyHead, hs'] at hs
    by_cases hdot : c = 0x2E
    · subst hdot
      cases hs
      have hoctet : IsOctet o [] := ⟨by simp, ho⟩
      rw [ipStrLoop, if_neg (by decide), if_pos rfl]
      by_cases hdots : d + 1 > 3
      · rw [if_pos hdots, if_neg]
        rintro ⟨hlen, -⟩
        rw [length_cons] at hlen
        omega
      · have hr' : r * 256 + o < 256 ^ (d + 1) := by omega
        rw [if_neg hdots, shift_or_octet hr hd ho, ih hs' hr' (by omega) (by omega)]
        simp [hoctet, decimal, Nat.add_right_comm, Nat.add_assoc]
    · rw [if_neg (by simpa using hdot)] at hs
      cases hs
      by_cases hdigit : 0x30 ≤ c ∧ c ≤ 0x39
      · have hoctet : IsOctet o (c :: f') ↔ IsOctet (o * 10 + (c.toNat - 0x30)) f' := by
          simp [IsOctet, decimal, hdigit]
        rw [ipStrLoop, if_pos hdigit]
        simp only [hoctet]
        by_cases hlarge : o * 10 + (c.toNat - 0x30) > 255
        · -- the number does not get smaller with the digits that follow
          rw [if_pos hlarge, if_neg]
          rintro ⟨-, ⟨-, hle⟩, -⟩
          have := le_decimal (o * 10 + (c.toNat - 0x30)) f'
          omega
        · rw [if_neg hlarge, ih hs' hr hd (by omega)]
          rfl
      · rw [ipStrLoop, if_neg hdigit, if_neg hdot, if_neg]
        rintro ⟨-, ⟨hdigits, -⟩, -⟩
        exact hdigit (hdigits c mem_cons_self)

theorem ipStrToInt_eq (s : List UInt8) :
    ipStrToInt s = if FourOctets s then address (fields s) else 0 := by
  obtain ⟨f, fs, hs⟩ := exists_cons_of_ne_nil (splitOn_ne_nil 0x2E s)
  rw [ipStrToInt, ipStrLoop_eq hs (by decide) (by decide) (by decide)]
  have hfields : fields s = f :: fs := hs
  simp [FourOctets, hfields, address]

/-- **When the parser accepts exactly the dotted quads**: a string of four fields with an empty one
must have the address 0. -/
theorem ipStrToInt_eq_dottedQuad_iff (s : List UInt8) :
    ipStrToInt s = dottedQuad s ↔
      (FourOctets s → [] ∈ fields s → address (fields s) = 0) := by
  rw [ipStrToInt_eq, dottedQuad]
  by_cases hfour : FourOctets s
  · by_cases hempty : [] ∈ fields s <;> simp [hfour, hempty]
  · simp [hfour]

/-- `1..2.3` is taken for `1.0.2.3`. -/
theorem empty_field_accepted :
    ipStrToInt [0x31, 0x2E, 0x2E, 0x32, 0x2E, 0x33] ≠
      dottedQuad [0x31, 0x2E, 0x2E, 0x32, 0x2E, 0x33] := by
  decide +kernel

/-! ## Addresses on the link -/

def inL2 (ipA ipB netmask : BitVec 32) : Bool := ipA &&& netmask == ipB &&& netmask

def charToNetmask (n : ℕ) : BitVec 32 :=
  (range n).foldl (fun tmp i => tmp ||| 1#32 <<< i) 0

/-- The first `n` bits of the dotted addresses agree. -/
def SamePrefix (n : ℕ) (a b : BitVec 32) : Prop := ∀ i < n, a.getMsbD i = b.getMsbD i

theorem getLsbD_charToNetmask (n i : ℕ) :
    (charToNetmask n).getLsbD i = decide (i < n ∧ i < 32) := by
  induction n with
  | zero => simp [charToNetmask]
  | succ n ih =>
    have hstep : charToNetmask (n + 1) = charToNetmask n ||| 1#32 <<< n := by
      rw [charToNetmask, range_succ, foldl_append]
      rfl
    rw [hstep, getLsbD_or, ih]
    simp
    grind

/-- `in_l2` compares the last bits. -/
theorem inL2_iff {n : ℕ} {a b : BitVec 32} :
    inL2 a b (charToNetmask n) = true ↔ ∀ i < n, a.getLsbD i = b.getLsbD i := by
  rw [inL2, beq_iff_eq]
  constructor
  · intro h i hi
    by_cases hw : i < 32
    · have hbit := congrArg (getLsbD · i) h
      simp only [getLsbD_and, getLsbD_charToNetmask, hi, hw] at hbit
      simpa using hbit
    · rw [getLsbD_of_ge a i (by omega), getLsbD_of_ge b i (by omega)]
  · intro h
    refine eq_of_getLsbD_eq fun i hw => ?_
    by_cases hi : i < n
    · simp [h i hi]
    · simp [getLsbD_charToNetmask, hi]

/-- **When the decision is right**: for the prefix length 32 only. -/
theorem inL2_iff_samePrefix_iff {n : ℕ} (hn : 1 ≤ n) (hn' : n ≤ 32) :
    (∀ a b, inL2 a b (charToNetmask n) = true ↔ SamePrefix n a b) ↔ n = 32 := by
  constructor
  · intro h
    by_contra hne
    -- 0.0.0.1 and 0.0.0.0 differ in the last bit only
    have hsame : SamePrefix n 1 0 := by
      intro i hi
      have hlast : 32 - 1 - i ≠ 0 := by omega
      simp [getMsbD_eq_getLsbD, hlast]
    exact absurd (inL2_iff.mp ((h 1 0).mpr hsame) 0 hn) (by decide)
  · rintro rfl a b
    rw [inL2_iff]
    constructor
    · intro h i hi
      rw [getMsbD_eq_getLsbD, getMsbD_eq_getLsbD, h _ (by omega)]
    · intro h i hi
      have hbit := h (31 - i) (by omega)
      rw [getMsbD_eq_getLsbD, getMsbD_eq_getLsbD] at hbit
      simpa [show 31 - (31 - i) = i by omega, show 31 - i < 32 by omega] using hbit

theorem inL2_iff_samePrefix_iff_class_c :
    ¬∀ a b, inL2 a b (charToNetmask 24) = true ↔ SamePrefix 24 a b :=
  fun h => absurd ((inL2_iff_samePrefix_iff (by decide) (by decide)).mp h) (by decide)

/-- 192.168.1.5 and 192.168.1.9 are in one network of length 24. -/
theorem same_network_off_link :
    ¬(inL2 0xC0A80105 0xC0A80109 (charToNetmask 24) = true ↔
      SamePrefix 24 0xC0A80105 0xC0A80109) := by
  unfold SamePrefix
  decide

/-! ## Routes -/

/-- `struct route_entry`, with the bytes between its last two fields. -/
structure RouteEntry where
  dest : BitVec 32
  netmask : BitVec 32
  gateway : BitVec 32
  padding : BitVec 32
  nicId : BitVec 64
  deriving DecidableEq

abbrev RouteTable := ℕ → RouteEntry

def sizeofRouteEntry : ℕ := 24

/-- `Z40KB / sizeof(struct route_entry)`. -/
def routeCount : ℕ := 40960 / sizeofRouteEntry

/-- The test of `find_route`. -/
def RouteEntry.Matches (r : RouteEntry) (ip : BitVec 32) : Prop :=
  r.dest ≠ 0 ∧ r.netmask ≠ 0 ∧ ip &&& r.netmask = r.dest &&& r.netmask

instance (r : RouteEntry) (ip : BitVec 32) : Decidable (r.Matches ip) :=
  inferInstanceAs (Decidable (_ ∧ _))

/-- The loop of `find_route` over the first `n` entries: `best` and `best_mask`. -/
def findRouteLoop (t : RouteTable) (ip : BitVec 32) (n : ℕ) : Option ℕ × BitVec 32 :=
  (range n).foldl (fun best i =>
    if (t i).Matches ip then
      if (t i).netmask ≥ best.2 then (some i, (t i).netmask) else best
    else best) (none, 0)

def findRoute (t : RouteTable) (ip : BitVec 32) : Option ℕ := (findRouteLoop t ip routeCount).1

/-- The netmask of a prefix of `k` bits. -/
def prefixMask (k : ℕ) : BitVec 32 := allOnes 32 <<< (32 - k)

/-- The loop keeps the last one of the entries with the largest netmask. -/
theorem findRouteLoop_cases (t : RouteTable) (ip : BitVec 32) (n : ℕ) :
    (findRouteLoop t ip n = (none, 0) ∧ ∀ i < n, ¬(t i).Matches ip) ∨
    ∃ i < n, findRouteLoop t ip n = (some i, (t i).netmask) ∧ (t i).Matches ip ∧
      ∀ j < n, (t j).Matches ip → (t j).netmask.toNat ≤ (t i).netmask.toNat ∧
        (i < j → (t j).netmask.toNat < (t i).netmask.toNat) := by
  induction n with
  | zero => exact .inl ⟨rfl, fun i hi => absurd hi (Nat.not_lt_zero i)⟩
  | succ n ih =>
    have hstep : findRouteLoop t ip (n + 1) =
        if (t n).Matches ip then
          if (t n).netmask ≥ (findRouteLoop t ip n).2 then (some n, (t n).netmask)
          else findRouteLoop t ip n
        else findRouteLoop t ip n := by
      rw [findRouteLoop, range_succ, foldl_append]
      rfl
    rw [hstep]
    rcases ih with ⟨heq, hnone⟩ | ⟨i, hi, heq, hmatch, hbest⟩
    · rw [heq]
      split_ifs with hm hle
      · exact .inr ⟨n, Nat.lt_succ_self n, rfl, hm, by grind⟩
      · exact absurd (Nat.zero_le _) hle
      · exact .inl ⟨rfl, by grind⟩
    · rw [heq]
      split_ifs with hm hle
      · rw [ge_iff_le, le_def] at hle
        exact .inr ⟨n, Nat.lt_succ_self n, rfl, hm, by grind⟩
      · rw [ge_iff_le, le_def] at hle
        exact .inr ⟨i, Nat.lt_succ_of_lt hi, rfl, hmatch, by grind⟩
      · exact .inr ⟨i, Nat.lt_succ_of_lt hi, rfl, hmatch, by grind⟩

/-- The netmasks of prefixes are ordered as their lengths. -/
theorem prefixMask_lt_iff :
    ∀ k ≤ 32, ∀ l ≤ 32, (prefixMask k).toNat < (prefixMask l).toNat ↔ k < l := by
  decide

/-- **Longest-prefix routing.** For every table whose netmasks are those of prefixes, `find_route`
finds nothing exactly if no entry matches, and else the last one of the matching entries with the
longest prefix. -/
theorem findRoute_longest {t : RouteTable} (ip : BitVec 32)
    (hmasks : ∀ i < routeCount, (t i).netmask ≠ 0 → ∃ k ≤ 32, (t i).netmask = prefixMask k) :
    (findRoute t ip = none ↔ ∀ i < routeCount, ¬(t i).Matches ip) ∧
    ∀ i, findRoute t ip = some i → i < routeCount ∧ (t i).Matches ip ∧
      ∃ l ≤ 32, (t i).netmask = prefixMask l ∧ ∀ j < routeCount, (t j).Matches ip →
        ∃ k ≤ 32, (t j).netmask = prefixMask k ∧ k ≤ l ∧ (i < j → k < l) := by
  rw [findRoute]
  rcases findRouteLoop_cases t ip routeCount with ⟨heq, hnone⟩ | ⟨i, hi, heq, hmatch, hbest⟩
  · rw [heq]
    exact ⟨⟨fun _ => hnone, fun _ => rfl⟩, nofun⟩
  · rw [heq]
    refine ⟨⟨nofun, fun h => absurd hmatch (h i hi)⟩, fun i' h => ?_⟩
    cases h
    obtain ⟨l, hl, hil⟩ := hmasks i hi hmatch.2.1
    refine ⟨hi, hmatch, l, hl, hil, fun j hj hmj => ?_⟩
    obtain ⟨k, hk, hjk⟩ := hmasks j hj hmj.2.1
    obtain ⟨hle, hlt⟩ := hbest j hj hmj
    rw [hjk, hil, prefixMask_lt_iff k hk l hl] at hlt
    rw [hjk, hil, ← Nat.not_lt, prefixMask_lt_iff l hl k hk, Nat.not_lt] at hle
    exact ⟨k, hk, hjk, hle, hlt⟩

/-- An entry that `erase_mem8` leaves when it erases all of it. -/
def blank : RouteEntry := ⟨0, 0, 0, 0, 0⟩

/-- Routes to 10.0.0.0/8 and 10.1.0.0/16. -/
def tenNets : RouteTable :=
  update (update (fun _ => blank) 3 ⟨0x0A000000, prefixMask 8, 0x0A000002, 0, 1⟩) 5
    ⟨0x0A010000, prefixMask 16, 0x0A000003, 0, 1⟩

/-- Both routes match 10.1.2.3, and the second one is found. -/
theorem findRoute_longest_tenNets : findRoute tenNets 0x0A010203 = some 5 ∧
    (tenNets 3).Matches 0x0A010203 ∧ ∃ l ≤ 32, (tenNets 5).netmask = prefixMask l ∧
      ∃ k ≤ 32, (tenNets 3).netmask = prefixMask k ∧ k ≤ l := by
  have hmasks : ∀ i < routeCount, (tenNets i).netmask ≠ 0 →
      ∃ k ≤ 32, (tenNets i).netmask = prefixMask k := by
    intro i _ hne
    by_cases hi : i = 5
    · subst hi
      exact ⟨16, by decide, rfl⟩
    by_cases hi' : i = 3
    · subst hi'
      exact ⟨8, by decide, rfl⟩
    · rw [tenNets, update_of_ne hi, update_of_ne hi'] at hne
      exact absurd rfl hne
  have hfound : findRoute tenNets 0x0A010203 = some 5 := by decide +kernel
  have hmatch : (tenNets 3).Matches 0x0A010203 := by decide
  obtain ⟨-, -, l, hl, hmask, hall⟩ := (findRoute_longest 0x0A010203 hmasks).2 5 hfound
  obtain ⟨k, hk, hmask', hle, -⟩ := hall 3 (by decide) hmatch
  exact ⟨hfound, hmatch, l, hl, hmask, k, hk, hmask', hle⟩

/-! ## Adding and deleting -/

/-- The search of `add_route`: the limit is the number of entries, but is compared with bytes. -/
def freeRoute (t : RouteTable) : Option ℕ :=
  freeRecord routeCount sizeofRouteEntry blank t

theorem freeRoute_eq (t : RouteTable) :
    freeRoute t = (range (routeCount / sizeofRouteEntry)).find? fun i => t i = blank :=
  freeRecord_eq (by decide) blank t

/-- `add_route`; if no slot is found, the kernel stops. -/
def addRoute (t : RouteTable) (dest netmask gateway : BitVec 32) (nicId : BitVec 64) :
    Option RouteTable :=
  (freeRoute t).map fun id =>
    update t id { t id with dest, netmask, gateway, nicId }

/-- `del_route`: the first three bytes of the entry are erased, and `dest` keeps its highest one. -/
def delRoute (t : RouteTable) (dest netmask : BitVec 32) : RouteTable × Bool :=
  let id := (range routeCount).find? fun i => (t i).dest = dest ∧ (t i).netmask = netmask
  (id.elim t fun i => update t i { t i with dest := (t i).dest &&& 0xFF000000 }, id.isSome)

/-- Adding a route and deleting it gives the answers from before, and the slot is free again. -/
def Undoes (t : RouteTable) (dest netmask gateway : BitVec 32) (nicId : BitVec 64) : Prop :=
  ∃ t₁ t₂, addRoute t dest netmask gateway nicId = some t₁ ∧
    delRoute t₁ dest netmask = (t₂, true) ∧ (∀ ip, findRoute t₂ ip = findRoute t ip) ∧
    freeRoute t₂ = freeRoute t

/-- **When deleting undoes adding**: there is a free slot among the first 71, and the bytes that
stay were zero. -/
theorem undoes_iff {t : RouteTable} {dest netmask gateway : BitVec 32} {nicId : BitVec 64}
    (hnew : ∀ i < routeCount, ¬((t i).dest = dest ∧ (t i).netmask = netmask)) :
    Undoes t dest netmask gateway nicId ↔
      (∃ i < routeCount / sizeofRouteEntry, t i = blank) ∧
        dest &&& 0xFF000000 = 0 ∧ netmask = 0 ∧ gateway = 0 ∧ nicId = 0 := by
  have hslots : routeCount / sizeofRouteEntry ≤ routeCount := Nat.div_le_self _ _
  cases hfree : freeRoute t with
  | none =>
    refine ⟨?_, ?_⟩
    · rintro ⟨t₁, t₂, hadd, -⟩
      rw [addRoute, hfree] at hadd
      cases hadd
    · rintro ⟨⟨i, hi, hblank⟩, -⟩
      simpa [hblank] using find?_eq_none.mp ((freeRoute_eq t).symm.trans hfree) i (mem_range.mpr hi)
  | some i =>
    obtain ⟨hblank, hi, -⟩ := find?_range_eq_some.mp ((freeRoute_eq t).symm.trans hfree)
    rw [decide_eq_true_eq] at hblank
    rw [mem_range] at hi
    have hadd : addRoute t dest netmask gateway nicId =
        some (update t i ⟨dest, netmask, gateway, 0, nicId⟩) := by
      rw [addRoute, hfree, Option.map_some, hblank]
      rfl
    generalize hadded : update t i ⟨dest, netmask, gateway, 0, nicId⟩ = t₁ at hadd
    have hfind : ((range routeCount).find? fun j =>
        (t₁ j).dest = dest ∧ (t₁ j).netmask = netmask) = some i := by
      rw [← hadded]
      refine find?_range_eq_some.mpr ⟨by simp, mem_range.mpr (by omega), fun j hj => ?_⟩
      simpa [update_of_ne (Nat.ne_of_lt hj), imp_iff_not_or] using hnew j (by omega)
    have hdel : delRoute t₁ dest netmask =
        (update t i ⟨dest &&& 0xFF000000, netmask, gateway, 0, nicId⟩, true) := by
      rw [delRoute, hfind, ← hadded]
      simp
    constructor
    · rintro ⟨_, t₂, h₁, h₂, -, hagain⟩
      cases hadd.symm.trans h₁
      cases hdel.symm.trans h₂
      have herased := (find?_range_eq_some.mp ((freeRoute_eq _).symm.trans (hagain.trans hfree))).1
      rw [update_self, decide_eq_true_eq] at herased
      injection herased with hd hm hg _ hn
      exact ⟨⟨i, hi, hblank⟩, hd, hm, hg, hn⟩
    · rintro ⟨-, hd, rfl, rfl, rfl⟩
      have hsame : update t i ⟨dest &&& 0xFF000000, 0, 0, 0, 0⟩ = t := by
        rw [hd]
        exact update_eq_self_iff.mpr hblank.symm
      exact ⟨t₁, t, hadd, hdel.trans (by rw [hsame]), fun _ => rfl, rfl⟩

/-- Only a route that is never looked at can be taken back. -/
theorem undoes_iff_noMask : Undoes (fun _ => blank) 1 0 0 0 :=
  (undoes_iff fun _ _ hsame => absurd hsame.1 (by decide)).mpr
    ⟨⟨0, by decide, rfl⟩, by decide, rfl, rfl, rfl⟩

/-- A route to 10.0.0.0/8 is still found for 10.1.2.3 when it has been deleted. -/
theorem deleted_route_used : ¬Undoes (fun _ => blank) 0x0A000000 (prefixMask 8) 0x0A000002 1 := by
  rintro ⟨t₁, t₂, hadd, hdel, hfind, -⟩
  have hused : (addRoute (fun _ => blank) 0x0A000000 (prefixMask 8) 0x0A000002 1).map (fun t =>
      findRoute (delRoute t 0x0A000000 (prefixMask 8)).1 0x0A010203) = some (some 0) := by
    decide +kernel
  have hnone : findRoute (fun _ => blank) 0x0A010203 = none := by decide +kernel
  rw [hadd, Option.map_some, hdel, hfind, hnone] at hused
  cases hused

end CarrotOS.Inet
