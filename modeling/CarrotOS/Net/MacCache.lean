import CarrotOS.Time
import Mathlib.Data.List.Induction

/-!
# The cache of hardware addresses

`add_cache_mac_v4` records the hardware address of an IP address with the second of the clock, after
it has removed the lines that have expired; `find_mac_of_ipv4_l2` takes the first line of the IP
address that is not older than a minute.

`MAC_CACHE_TIMEOUT` is 60000 milliseconds for the search, but `add_cache_mac_v4` subtracts it from
the clock as microseconds, and `subtract_time` never borrows a second, so that the limit is the
current second itself. No line is newer than that: every add removes the whole table, and what is
left is the line it writes.
-/

namespace CarrotOS

open Function Word Option

variable {ip : ℕ}

/-! ## The code -/

def macCacheTimeout : ℕ := 60000

/-- `Z40KB / 168`, the number of lines. -/
def macCacheLines : ℕ := 40960 / 168

structure MacCacheV4Entry where
  ip : ℕ
  mac : Vector UInt8 6
  nicId : ℕ
  timestamp : ℕ
  deriving DecidableEq, Repr

abbrev MacCache := ℕ → MacCacheV4Entry

/-- The line that `remove_cache_mac_v4` leaves. -/
def removedLine : MacCacheV4Entry :=
  ⟨0, Vector.replicate 6 0, 0, 0⟩

def removeCacheMacV4 (cache : MacCache) (i : ℕ) : MacCache :=
  update cache i removedLine

def addCacheMacV4Line (cache : MacCache) (i ip : ℕ) (mac : Vector UInt8 6)
    (nicId epochSeconds : ℕ) : MacCache :=
  update cache i ⟨ip, mac, nicId, epochSeconds⟩

/-- The first loop of `add_cache_mac_v4` from the line `i` on: it removes the lines up to the limit,
and stops at a line that has the address already. -/
def removeExpired (limit ip : ℕ) (mac : Vector UInt8 6) : ℕ → ℕ → MacCache → MacCache × Bool
  | 0, _, cache => (cache, false)
  | rest + 1, i, cache =>
    if (cache i).timestamp ≤ limit then
      removeExpired limit ip mac rest (i + 1) (removeCacheMacV4 cache i)
    else if (cache i).ip = ip ∧ (cache i).mac = mac then (cache, true)
    else removeExpired limit ip mac rest (i + 1) cache

/-- The third loop: the line with the earliest time stamp before now. -/
def earliestLine (cache : MacCache) (epochSeconds : ℕ) : ℕ :=
  ((List.range macCacheLines).foldl
    (fun (earliest : ℕ × ℕ) i =>
      if (cache i).timestamp < earliest.2 then (i, (cache i).timestamp) else earliest)
    (0, epochSeconds)).1

/-- `add_cache_mac_v4` at the time `now`: the table and the line, if one is written. -/
def addCacheMacV4 (now : Timeval) (cache : MacCache) (ip : ℕ) (mac : Vector UInt8 6) (nicId : ℕ) :
    MacCache × Option ℕ :=
  let r := removeExpired (subtractTimeUs now macCacheTimeout).tvSec ip mac macCacheLines 0 cache
  if r.2 then (r.1, none)
  else
    let i := ((List.range macCacheLines).find? fun i => (r.1 i).ip = 0).getD
      (earliestLine r.1 now.tvSec)
    (addCacheMacV4Line r.1 i ip mac nicId now.tvSec, some i)

/-- `find_mac_of_ipv4_l2` at the time `now`; if there is no address, a request is sent. -/
def findMacOfIpv4L2 (now : Timeval) (cache : MacCache) (ip : ℕ) : Option (Vector UInt8 6) :=
  ((List.range macCacheLines).find? fun i =>
    (cache i).ip = ip ∧ (cache i).timestamp > u64 (now.tvSec + 2 ^ 64 - macCacheTimeout / 1000)).map
    fun i => (cache i).mac

/-! ## One add -/

theorem limit_eq_now (now : Timeval) : (subtractTimeUs now macCacheTimeout).tvSec = now.tvSec := by
  have hb : subtractTimeUs now macCacheTimeout = subtractTime now ⟨0, 60000⟩ := rfl
  rw [hb, subtractTime]
  split
  · rename_i hearlier
    -- only in the first second of the epoch
    simp only [earlier] at hearlier
    split at hearlier
    · cases hearlier
    · dsimp only
      omega
  · rfl

theorem removeExpired_all {limit : ℕ} (ip : ℕ) (mac : Vector UInt8 6) (rest i : ℕ)
    (cache : MacCache) (h : ∀ j, i ≤ j → j < i + rest → (cache j).timestamp ≤ limit) :
    removeExpired limit ip mac rest i cache =
      (fun j => if i ≤ j ∧ j < i + rest then removedLine else cache j, false) := by
  induction rest generalizing i cache with
  | zero =>
    refine Prod.ext (funext fun j => ?_) rfl
    exact (if_neg (by omega)).symm
  | succ rest ih =>
    rw [removeExpired, if_pos (h i (Nat.le_refl i) (by omega)), ih]
    · refine Prod.ext (funext fun j => ?_) rfl
      dsimp only
      by_cases hj : j = i
      · subst hj
        rw [if_neg (by omega), if_pos (by omega), removeCacheMacV4, update_self]
      · rw [removeCacheMacV4, update_of_ne hj]
        congr 1
        exact propext (by omega)
    · intro j hij hj
      rw [removeCacheMacV4, update_of_ne (by omega)]
      exact h j (by omega) (by omega)

/-- The table holds one line, or none. -/
def MacCache.Only (cache : MacCache) (line : MacCacheV4Entry) : Prop :=
  ∀ i < macCacheLines, cache i = if i = 0 then line else removedLine

/-- **One add** at a time that is not before any line leaves its own line and nothing else. -/
theorem addCacheMacV4_eq {now : Timeval} {cache : MacCache} {mac : Vector UInt8 6} {nicId : ℕ}
    (h : ∀ i < macCacheLines, (cache i).timestamp ≤ now.tvSec) :
    (addCacheMacV4 now cache ip mac nicId).1.Only ⟨ip, mac, nicId, now.tvSec⟩ := by
  have hall := removeExpired_all ip mac macCacheLines 0 cache fun j _ hj => h j (by omega)
  have hempty : (List.range macCacheLines).find? (fun i =>
      (if 0 ≤ i ∧ i < 0 + macCacheLines then removedLine else cache i).ip = 0) = some 0 := by
    rw [List.find?_range_eq_some]
    exact ⟨rfl, List.mem_range.mpr (by decide), by simp⟩
  intro i hi
  rw [addCacheMacV4, limit_eq_now, hall]
  simp only [Bool.false_eq_true, if_false, hempty, getD_some]
  split
  · rename_i h0
    rw [h0, addCacheMacV4Line, update_self]
  · rename_i h0
    rw [addCacheMacV4Line, update_of_ne h0, if_pos (by omega)]

theorem MacCache.Only.find {cache : MacCache} {line : MacCacheV4Entry} (h : cache.Only line)
    (hip : ip ≠ 0) (now : Timeval) :
    findMacOfIpv4L2 now cache ip =
      if line.ip = ip ∧ line.timestamp > u64 (now.tvSec + 2 ^ 64 - macCacheTimeout / 1000)
      then some line.mac else none := by
  have hzero : cache 0 = line := h 0 (by decide)
  split
  · rename_i hline
    have hfind : (List.range macCacheLines).find? (fun i => (cache i).ip = ip ∧
        (cache i).timestamp > u64 (now.tvSec + 2 ^ 64 - macCacheTimeout / 1000)) = some 0 := by
      rw [List.find?_range_eq_some]
      exact ⟨by simpa [hzero] using hline, List.mem_range.mpr (by decide), by simp⟩
    rw [findMacOfIpv4L2, hfind, map_some, hzero]
  · rename_i hline
    rw [findMacOfIpv4L2, map_eq_none_iff, List.find?_range_eq_none]
    intro i hi
    by_cases h0 : i = 0
    · subst h0
      simpa only [hzero, decide_not, Bool.not_eq_true', decide_eq_false_iff_not] using hline
    · -- a removed line has the address 0
      have hremoved : cache i = removedLine := (h i hi).trans (if_neg h0)
      simp [hremoved, removedLine, Ne.symm hip]

/-! ## Histories -/

structure MacAdd where
  ip : ℕ
  mac : Vector UInt8 6
  nicId : ℕ
  now : Timeval
  deriving DecidableEq, Repr

def MacAdd.line (a : MacAdd) : MacCacheV4Entry :=
  ⟨a.ip, a.mac, a.nicId, a.now.tvSec⟩

def MacAdd.apply (cache : MacCache) (a : MacAdd) : MacCache :=
  (addCacheMacV4 a.now cache a.ip a.mac a.nicId).1

def cacheAfter (adds : List MacAdd) : MacCache :=
  adds.foldl MacAdd.apply fun _ => removedLine

/-- Calls at times that do not decrease, for addresses other than 0. -/
structure MacHistory (adds : List MacAdd) : Prop where
  sorted : adds.Pairwise fun a b => laterOrSame b.now a.now
  ip : ∀ a ∈ adds, a.ip ≠ 0

def latestAdd (adds : List MacAdd) (ip : ℕ) : Option MacAdd :=
  adds.reverse.find? fun a => a.ip = ip

/-- Less than `MAC_CACHE_TIMEOUT` milliseconds have gone by from `a` to `t`. -/
def WithinTimeout (a t : Timeval) : Prop :=
  t.tvSec * 1000000 + t.tvMicrosec <
    a.tvSec * 1000000 + a.tvMicrosec + macCacheTimeout * 1000

/-- At the time `t` the most recent address is found, if it was added within the timeout. -/
def FindsLatest (adds : List MacAdd) (ip : ℕ) (t : Timeval) : Prop :=
  ∀ a, latestAdd adds ip = some a → WithinTimeout a.now t →
    findMacOfIpv4L2 t (cacheAfter adds) ip = some a.mac

theorem laterOrSame_tvSec {a b : Timeval} (h : laterOrSame b a) : a.tvSec ≤ b.tvSec := by
  unfold laterOrSame at h
  split at h
  · omega
  · split at h
    · cases h
    · omega

/-- **The table after a history** holds the line of the last add alone. -/
theorem cacheAfter_only {adds : List MacAdd} (h : MacHistory adds) :
    (cacheAfter adds).Only ((adds.getLast?.map MacAdd.line).getD removedLine) := by
  induction adds using List.reverseRecOn with
  | nil => exact fun i _ => (ite_self _).symm
  | append_singleton adds a ih =>
    obtain ⟨hsorted, hip⟩ := h
    obtain ⟨hbefore, -, hle⟩ := List.pairwise_append.mp hsorted
    have hcache := ih ⟨hbefore, fun b hb => hip b (List.mem_append_left _ hb)⟩
    rw [List.getLast?_concat, cacheAfter, List.foldl_append]
    refine addCacheMacV4_eq fun i hi => ?_
    -- no line is newer than the new add: there is only the one of the add before
    rw [← cacheAfter, hcache i hi]
    split
    · cases hlast : adds.getLast? with
      | none => exact Nat.zero_le _
      | some b =>
        exact laterOrSame_tvSec (hle b (List.mem_of_getLast? hlast) a (List.mem_singleton_self a))
    · exact Nat.zero_le _

theorem timestamp_gt_iff {s t : ℕ} (hst : s ≤ t) (ht : t < 2 ^ 64) :
    s > u64 (t + 2 ^ 64 - macCacheTimeout / 1000) ↔ 60 ≤ t ∧ t < s + 60 := by
  have hsec : macCacheTimeout / 1000 = 60 := rfl
  rw [hsec, u64]
  omega

theorem latestAdd_of_getLast {adds : List MacAdd} {b : MacAdd} (h : adds.getLast? = some b) :
    latestAdd adds b.ip = some b := by
  obtain ⟨before, rfl⟩ := List.getLast?_eq_some_iff.mp h
  simp [latestAdd]

/-- **The latest address is found exactly if no add came after it and the clock allows it**: the
clock has not gone on by 60 whole seconds and does not stand in the first minute of the epoch. -/
theorem findsLatest_iff {adds : List MacAdd} (h : MacHistory adds) {ip : ℕ} (hip : ip ≠ 0)
    {t : Timeval} (ht : t.tvSec < 2 ^ 64) (hafter : ∀ a ∈ adds, laterOrSame t a.now) :
    FindsLatest adds ip t ↔ ∀ a, latestAdd adds ip = some a → WithinTimeout a.now t →
      adds.getLast? = some a ∧ 60 ≤ t.tvSec ∧ t.tvSec < a.now.tvSec + 60 := by
  refine forall_congr' fun a => imp_congr_right fun hlatest => imp_congr_right fun _ => ?_
  have hmem : a ∈ adds := List.mem_reverse.mp (List.mem_of_find?_eq_some hlatest)
  have haip : a.ip = ip := by simpa using List.find?_some hlatest
  rw [(cacheAfter_only h).find hip t]
  obtain ⟨b, hb⟩ : ∃ b, adds.getLast? = some b :=
    ⟨_, List.getLast?_eq_some_getLast (List.ne_nil_of_mem hmem)⟩
  have hclock := timestamp_gt_iff
    (laterOrSame_tvSec (hafter b (List.mem_of_getLast? hb))) ht
  rw [hb, map_some, getD_some, MacAdd.line]
  by_cases hbip : b.ip = ip
  · -- the last add is for this address, so it is the latest one
    obtain rfl : b = a := by
      have := latestAdd_of_getLast hb
      rw [hbip, hlatest] at this
      exact (some.inj this).symm
    rw [← hclock]
    simp [hbip]
  · have hne : b ≠ a := by
      rintro rfl
      exact hbip haip
    simp [hbip, hne]

def twoHosts : List MacAdd :=
  [⟨1, Vector.replicate 6 0xaa, 1, ⟨100, 0⟩⟩, ⟨2, Vector.replicate 6 0xbb, 1, ⟨100, 500000⟩⟩]

theorem twoHosts_history : MacHistory twoHosts :=
  ⟨by decide, by decide⟩

/-- The second host is found 59 seconds later. -/
theorem findsLatest_iff_secondHost :
    latestAdd twoHosts 2 = twoHosts.getLast? ∧ FindsLatest twoHosts 2 ⟨159, 0⟩ := by
  refine ⟨by decide, ?_⟩
  refine (findsLatest_iff twoHosts_history (by decide) (by decide) (by decide)).mpr ?_
  intro a ha _
  have hlast : latestAdd twoHosts 2 = twoHosts.getLast? := by decide
  refine ⟨hlast.symm.trans ha, by decide, ?_⟩
  cases ha
  decide

/-- **An add for another host removes the address**, after one second. -/
theorem other_host_evicts :
    MacHistory twoHosts ∧ (twoHosts.map MacAdd.ip).eraseDups.length < macCacheLines ∧
      (∀ a ∈ twoHosts, laterOrSame ⟨101, 0⟩ a.now) ∧ ¬FindsLatest twoHosts 1 ⟨101, 0⟩ := by
  refine ⟨twoHosts_history, by decide, by decide, fun hfinds => ?_⟩
  have hlatest : latestAdd twoHosts 1 = some ⟨1, Vector.replicate 6 0xaa, 1, ⟨100, 0⟩⟩ := by decide
  have hfound := hfinds _ hlatest (by unfold WithinTimeout; decide)
  -- the only line left is that of the second host
  rw [(cacheAfter_only twoHosts_history).find (by decide)] at hfound
  cases hfound

end CarrotOS
