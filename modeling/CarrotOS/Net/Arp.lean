import CarrotOS.Lib.Bytes
import CarrotOS.Lib.Run
import CarrotOS.Net.MacCache

/-!
# Learning hardware addresses from ARP frames

`handle_arp` takes the address of the sender of a response into the cache. Of a request for an
address that is not its own it takes the address that is asked for, together with the hardware
address of the one who asks: a request for a third host makes the kernel send the traffic of that
host to the one who has asked. Responses, and requests for the own addresses, are handled well.

The frame is read without a look at its length, so it is a byte memory.
-/

namespace CarrotOS

open Word Bytes Transition Function Option

variable {cache : MacCache}

/-! ## Frames -/

def hardwareAddr (buf : ℕ → UInt8) (offset : ℕ) : Vector UInt8 6 :=
  Vector.ofFn fun i => buf (offset + i)

def ethSrc (buf : ℕ → UInt8) : Vector UInt8 6 :=
  hardwareAddr buf 6

/-- `ntohs(arp->oper)`, behind the header of 14 bytes. -/
def arpOper (buf : ℕ → UInt8) : ℕ :=
  readBe buf 20 2

def arpSpa (buf : ℕ → UInt8) : ℕ :=
  readBe buf 28 4

def arpTpa (buf : ℕ → UInt8) : ℕ :=
  readBe buf 38 4

/-! ## The cards -/

inductive IpStatus where
  | notExists | pending | assigned
  deriving DecidableEq, Repr, Inhabited

structure IpT where
  addrH : ℕ
  addrL : ℕ
  ver : ℕ
  status : IpStatus
  initTime : Timeval
  deriving DecidableEq, Repr, Inhabited

structure Nic where
  mac : Vector UInt8 6
  ip : ℕ → IpT

def maxIpPerNic : ℕ := 101

def arpWaitTime : ℕ := 1000000

structure ArpState where
  cache : MacCache
  nics : ℕ → Option Nic

def findIpv4OfNic (nic : Nic) (resIp : ℕ) : Option ℕ :=
  (List.range maxIpPerNic).find? fun i => u32 (nic.ip i).addrL = resIp

def ArpState.setIp (st : ArpState) (nicId : ℕ) (nic : Nic) (i : ℕ) (ip : IpT) : ArpState :=
  { st with
    nics := update st.nics nicId (some { nic with ip := update nic.ip i ip }) }

/-- The answer to a request: the two headers with sender and target exchanged. -/
def arpReply (nic : Nic) (buf : ℕ → UInt8) : List UInt8 :=
  let sha := (hardwareAddr buf 22).toList
  sha ++ nic.mac.toList ++ [0x08, 0x06] ++ [0, 1, 0x08, 0, 6, 4, 0, 2] ++ nic.mac.toList ++
    (List.range 4).map (fun i => buf (38 + i)) ++ sha ++ (List.range 4).map fun i => buf (28 + i)

/-- `handle_arp` at the time `now`: the state, and the frame that is sent. -/
def handleArp (now : Timeval) (st : ArpState) (nicId : ℕ) (buf : ℕ → UInt8) :
    Option (ArpState × Option (List UInt8)) :=
  let sourceIp := arpSpa buf
  let targetIp := arpTpa buf
  if arpOper buf = 2 then
    some ({ st with cache := (addCacheMacV4 now st.cache sourceIp (ethSrc buf) nicId).1 }, none)
  else if arpOper buf ≠ 1 then some (st, none)
  else
    -- the request of another host
    match st.nics nicId with
    | none => none
    | some nic =>
      match findIpv4OfNic nic targetIp with
      | none =>
        some ({ st with cache := (addCacheMacV4 now st.cache targetIp (ethSrc buf) nicId).1 }, none)
      | some i =>
        -- somebody asks for an address that is still being tried out
        if laterOrSame (addTimeUs (nic.ip i).initTime arpWaitTime) now then
          some (st.setIp nicId nic i ⟨0, 0, 0, .notExists, ⟨0, 0⟩⟩, none)
        else
          some (st.setIp nicId nic i { nic.ip i with status := .assigned }, some (arpReply nic buf))

/-! ## What the cache stores -/

/-- A line of the cache binds the address. -/
def MacCache.Stores (cache : MacCache) (ip : ℕ) (mac : Vector UInt8 6) : Prop :=
  ∃ i < macCacheLines, (cache i).ip = ip ∧ (cache i).mac = mac

section Add

variable {now : Timeval} {cache : MacCache} {ip ip' nicId limit rest i j : ℕ}
  {mac mac' : Vector UInt8 6}

theorem removeExpired_line (limit ip : ℕ) (mac : Vector UInt8 6) (rest i : ℕ)
    (cache : MacCache) (j : ℕ) : (removeExpired limit ip mac rest i cache).1 j = cache j ∨
      (removeExpired limit ip mac rest i cache).1 j = removedLine := by
  induction rest generalizing i cache with
  | zero => exact .inl rfl
  | succ rest ih =>
    rw [removeExpired]
    split_ifs
    · rcases ih (i + 1) (removeCacheMacV4 cache i) with hsame | hremoved
      · by_cases hj : j = i
        · subst hj
          exact .inr (hsame.trans (update_self ..))
        · exact .inl (hsame.trans (update_of_ne hj ..))
      · exact .inr hremoved
    · exact .inl rfl
    · exact ih (i + 1) cache

theorem removeExpired_found (h : (removeExpired limit ip mac rest i cache).2 = true) :
    ∃ j, j < i + rest ∧ ((removeExpired limit ip mac rest i cache).1 j).ip = ip ∧
      ((removeExpired limit ip mac rest i cache).1 j).mac = mac := by
  induction rest generalizing i cache with
  | zero => exact absurd h (by simp [removeExpired])
  | succ rest ih =>
    rw [removeExpired] at h ⊢
    split_ifs at h ⊢ with hexpired hsame
    · obtain ⟨j, hj, hline⟩ := ih h
      exact ⟨j, by omega, hline⟩
    · exact ⟨i, by omega, hsame⟩
    · obtain ⟨j, hj, hline⟩ := ih h
      exact ⟨j, by omega, hline⟩

theorem earliestLine_lt (cache : MacCache) (epochSeconds : ℕ) :
    earliestLine cache epochSeconds < macCacheLines := by
  -- the search starts with the line 0 and only ever moves to a line that it visits
  have hfold : ∀ (lines : List ℕ) (earliest : ℕ × ℕ), (∀ i ∈ lines, i < macCacheLines) →
      earliest.1 < macCacheLines → (lines.foldl (fun (earliest : ℕ × ℕ) i =>
        if (cache i).timestamp < earliest.2 then (i, (cache i).timestamp) else earliest)
          earliest).1 < macCacheLines := by
    intro lines
    induction lines with
    | nil => exact fun _ _ h => h
    | cons i lines ih =>
      intro earliest hlines hearliest
      rw [List.foldl_cons]
      refine ih _ (fun j hj => hlines j (List.mem_cons_of_mem i hj)) ?_
      split_ifs
      · exact hlines i List.mem_cons_self
      · exact hearliest
  exact hfold _ _ (fun i hi => List.mem_range.mp hi) (by simp [macCacheLines])

/-- **An add** stores nothing but the address that is added. -/
theorem stores_addCacheMacV4 (h : (addCacheMacV4 now cache ip mac nicId).1.Stores ip' mac') :
    cache.Stores ip' mac' ∨ ip' = ip ∧ mac' = mac ∨ ip' = 0 := by
  obtain ⟨j, hj, hip, hmac⟩ := h
  generalize hr :
    removeExpired (subtractTimeUs now macCacheTimeout).tvSec ip mac macCacheLines 0 cache = r
  have hline : r.1 j = cache j ∨ r.1 j = removedLine := by
    rw [← hr]
    exact removeExpired_line _ _ _ _ _ _ _
  -- a line of the first loop is old or has the address 0
  have hold : (r.1 j).ip = ip' → (r.1 j).mac = mac' → cache.Stores ip' mac' ∨ ip' = 0 := by
    intro hip hmac
    rcases hline with hsame | hremoved
    · rw [hsame] at hip hmac
      exact .inl ⟨j, hj, hip, hmac⟩
    · rw [hremoved] at hip
      exact .inr hip.symm
  rw [addCacheMacV4] at hip hmac
  rw [hr] at hip hmac
  split_ifs at hip hmac
  · rcases hold hip hmac with hstores | hzero
    · exact .inl hstores
    · exact .inr (.inr hzero)
  · dsimp only [addCacheMacV4Line] at hip hmac
    generalize getD _ _ = k at hip hmac
    by_cases hjk : j = k
    · subst hjk
      rw [update_self] at hip hmac
      exact .inr (.inl ⟨hip.symm, hmac.symm⟩)
    · rw [update_of_ne hjk] at hip hmac
      rcases hold hip hmac with hstores | hzero
      · exact .inl hstores
      · exact .inr (.inr hzero)

/-- **An add** stores the address. -/
theorem addCacheMacV4_stores_self : (addCacheMacV4 now cache ip mac nicId).1.Stores ip mac := by
  rw [addCacheMacV4]
  generalize hr :
    removeExpired (subtractTimeUs now macCacheTimeout).tvSec ip mac macCacheLines 0 cache = r
  split_ifs with hfound
  · rw [← hr] at hfound ⊢
    obtain ⟨j, hj, hline⟩ := removeExpired_found hfound
    exact ⟨j, by omega, hline⟩
  · -- a free line, or the one with the earliest time
    have hlt : ((List.range macCacheLines).find? fun i => (r.1 i).ip = 0).getD
        (earliestLine r.1 now.tvSec) < macCacheLines := by
      cases hfind : (List.range macCacheLines).find? fun i => (r.1 i).ip = 0 with
      | none => exact earliestLine_lt r.1 now.tvSec
      | some k => exact List.mem_range.mp (List.mem_of_find?_eq_some hfind)
    refine ⟨_, hlt, ?_⟩
    simp [addCacheMacV4Line]

end Add

/-! ## The law -/

/-- A frame that a card has received, with the time at which it is handled. -/
structure Received where
  now : Timeval
  nicId : ℕ
  buf : ℕ → UInt8

/-- One of the frames had the addresses as those of its sender. -/
def Announced (frames : List Received) (ip : ℕ) (mac : Vector UInt8 6) : Prop :=
  ∃ r ∈ frames, arpSpa r.buf = ip ∧ ethSrc r.buf = mac

/-- Every address in the cache was announced. A line with the address 0 is free. -/
def ArpSound (frames : List Received) (cache : MacCache) : Prop :=
  ∀ ip mac, ip ≠ 0 → cache.Stores ip mac → Announced frames ip mac

/-- The frame binds no address to its source but that of its sender. -/
def NoForeign (r : Received) (cache cache' : MacCache) : Prop :=
  ∀ ip, ip ≠ 0 → ip ≠ arpSpa r.buf → cache'.Stores ip (ethSrc r.buf) →
    cache.Stores ip (ethSrc r.buf)

structure ArpTrace where
  st : ArpState
  received : List Received

def Received.apply (s : ArpTrace) (r : Received) : Option ArpTrace :=
  (handleArp r.now s.st r.nicId r.buf).map fun out => ⟨out.1, s.received ++ [r]⟩

/-- A request for an address that is not one of the card asks for the address of its sender, for the
address 0, or for an address that the cache has with the source already. -/
def Received.Harmless (s : ArpTrace) (r : Received) : Prop :=
  arpOper r.buf = 1 →
    (∀ nic, s.st.nics r.nicId = some nic → findIpv4OfNic nic (arpTpa r.buf) = none) →
    arpTpa r.buf ≠ 0 → arpTpa r.buf ≠ arpSpa r.buf → s.st.cache.Stores (arpTpa r.buf) (ethSrc r.buf)

section Law

variable {s s' : ArpTrace} {r : Received} {ip nicId : ℕ} {now : Timeval}
  {frames : List Received}

theorem Announced.append {mac : Vector UInt8 6}
    (h : Announced frames ip mac) :
    Announced (frames ++ [r]) ip mac := by
  obtain ⟨r', hr', hannounced⟩ := h
  exact ⟨r', List.mem_append_left _ hr', hannounced⟩

theorem law_of_same (h : ArpSound frames cache) :
    ArpSound (frames ++ [r]) cache ∧ NoForeign r cache cache :=
  ⟨fun ip mac hip hstores => (h ip mac hip hstores).append, fun _ _ _ => id⟩

theorem law_of_add (h : ArpSound frames cache) :
    (ArpSound (frames ++ [r]) (addCacheMacV4 now cache ip (ethSrc r.buf) nicId).1 ∧
      NoForeign r cache (addCacheMacV4 now cache ip (ethSrc r.buf) nicId).1) ↔
      (ip ≠ 0 → ip ≠ arpSpa r.buf → cache.Stores ip (ethSrc r.buf)) := by
  constructor
  · rintro ⟨-, hforeign⟩ hip hne
    exact hforeign ip hip hne addCacheMacV4_stores_self
  · intro hknown
    refine ⟨fun ip' mac' hip' hstores => ?_, fun ip' hip' hne hstores => ?_⟩
    · rcases stores_addCacheMacV4 hstores with hold | ⟨rfl, rfl⟩ | hzero
      · exact (h ip' mac' hip' hold).append
      · -- the address that has been added
        by_cases hown : ip' = arpSpa r.buf
        · exact ⟨r, by simp, hown.symm, rfl⟩
        · exact (h ip' _ hip' (hknown hip' hown)).append
      · exact absurd hzero hip'
    · rcases stores_addCacheMacV4 hstores with hold | ⟨rfl, -⟩ | hzero
      · exact hold
      · exact hknown hip' hne
      · exact absurd hzero hip'

/-- **One frame**: the law is kept exactly if the frame is harmless. -/
theorem law_of_apply (h : ArpSound s.received s.st.cache) (hr : r.apply s = some s') :
    (ArpSound s'.received s'.st.cache ∧ NoForeign r s.st.cache s'.st.cache) ↔ r.Harmless s := by
  obtain ⟨⟨st, sent⟩, hhandle, rfl⟩ := map_eq_some_iff.mp hr
  unfold handleArp at hhandle
  split_ifs at hhandle with hresponse hother
  · -- a response: the address of the sender
    cases hhandle
    rw [law_of_add h]
    refine iff_of_true (fun _ hne => absurd rfl hne) fun hrequest => ?_
    cases hresponse.symm.trans hrequest
  · cases hhandle
    exact iff_of_true (law_of_same h) fun hrequest => absurd hrequest hother
  · have hrequest : arpOper r.buf = 1 := not_not.mp hother
    cases hnic : s.st.nics r.nicId with
    | none =>
      rw [hnic] at hhandle
      cases hhandle
    | some nic =>
      rw [hnic] at hhandle
      dsimp only at hhandle
      cases hfind : findIpv4OfNic nic (arpTpa r.buf) with
      | none =>
        -- a request for another host: the address that is asked for
        rw [hfind] at hhandle
        cases hhandle
        rw [law_of_add h]
        constructor
        · intro hknown _ _
          exact hknown
        · intro hharmless
          refine hharmless hrequest fun nic' hnic' => ?_
          cases hnic.symm.trans hnic'
          exact hfind
      | some i =>
        -- a request for an address of the card leaves the cache
        have hcache : st.cache = s.st.cache := by
          rw [hfind] at hhandle
          dsimp only at hhandle
          split_ifs at hhandle
          · cases hhandle
            rfl
          · cases hhandle
            rfl
        rw [hcache]
        refine iff_of_true (law_of_same h) fun _ hforeign => ?_
        cases hfind.symm.trans (hforeign nic hnic)

/-- **Every sequence of harmless frames**: after the next one every address in the cache was
announced by its sender, and the frame binds the address of its sender only, exactly if it is
harmless too. -/
theorem arpSound_iff_harmless {st₀ : ArpState} {frames : List Received}
    (hempty : ∀ i < macCacheLines, (st₀.cache i).ip = 0)
    (hrun : Run Received.apply Received.Harmless ⟨st₀, []⟩ frames s) (hr : r.apply s = some s') :
    (ArpSound s'.received s'.st.cache ∧ NoForeign r s.st.cache s'.st.cache) ↔ r.Harmless s := by
  have h : ArpSound s.received s.st.cache := by
    refine hrun.invariant (fun s => ArpSound s.received s.st.cache) ?_ ?_
    · intro _ _ _ h hok hr
      exact ((law_of_apply h hr).mpr hok).1
    · rintro ip mac hip ⟨i, hi, hline, -⟩
      exact absurd (hline.symm.trans (hempty i hi)) hip
  exact law_of_apply h hr

end Law

/-! ## Three hosts -/

/-- The card has the address 10.0.0.1, and the cache is empty. -/
def arpStart : ArpState where
  cache _ := removedLine
  nics i := if i = 1 then some ⟨Vector.replicate 6 1, fun i =>
    if i = 0 then ⟨0, 0x0A000001, 4, .assigned, ⟨0, 0⟩⟩ else default⟩ else none

/-- The host 10.0.0.2 sends an ARP frame about 10.0.0.3. -/
def hostFrame (oper : UInt8) : Received where
  now := ⟨100, 0⟩
  nicId := 1
  buf i := ([255, 255, 255, 255, 255, 255] ++ [2, 2, 2, 2, 2, 2] ++ [0x08, 0x06] ++
    [0, 1, 0x08, 0, 6, 4, 0, oper] ++ [2, 2, 2, 2, 2, 2] ++ [10, 0, 0, 2] ++ [0, 0, 0, 0, 0, 0] ++
    [10, 0, 0, 3]).getD i 0

/-- A response, and then a response again. -/
theorem arpSound_iff_harmless_response : ∃ s s', Run Received.apply Received.Harmless ⟨arpStart, []⟩
    [hostFrame 2] s ∧ (hostFrame 2).apply s = some s' ∧
    ((ArpSound s'.received s'.st.cache ∧ NoForeign (hostFrame 2) s.st.cache s'.st.cache) ↔
      (hostFrame 2).Harmless s) := by
  have hresponse : arpOper (hostFrame 2).buf ≠ 1 := by decide
  exact Run.exists_single_step (fun h => absurd h hresponse) (by decide +kernel)
    fun _ _ hrun hs' => arpSound_iff_harmless (fun _ _ => rfl) hrun hs'

/-- The host 10.0.0.2 asks for 10.0.0.3, and the kernel binds 10.0.0.3 to the hardware address of
10.0.0.2. -/
theorem request_redirects :
    ∃ s, Run Received.apply (fun _ _ => True) ⟨arpStart, []⟩ [hostFrame 1] s ∧
    ¬ ArpSound s.received s.st.cache ∧ ¬ NoForeign (hostFrame 1) arpStart.cache s.st.cache := by
  refine Run.exists_of_eval (Q := fun s => (s.st.cache 0).ip = 0x0A000003 ∧
    (s.st.cache 0).mac = ethSrc (hostFrame 1).buf ∧
    s.received.map (fun r => arpSpa r.buf) = [0x0A000002]) (by decide +kernel) ?_
  rintro s - ⟨hip, hmac, hreceived⟩
  have hstores : s.st.cache.Stores 0x0A000003 (ethSrc (hostFrame 1).buf) :=
    ⟨0, by decide, hip, hmac⟩
  refine ⟨fun hsound => ?_, fun hforeign => ?_⟩
  · obtain ⟨r, hr, hspa, -⟩ := hsound _ _ (by decide) hstores
    have hmem := List.mem_map_of_mem (f := fun r : Received => arpSpa r.buf) hr
    rw [hreceived, List.mem_singleton] at hmem
    cases hspa.symm.trans hmem
  · obtain ⟨i, -, hzero, -⟩ := hforeign _ (by decide) (by decide) hstores
    exact absurd hzero (by simp [arpStart, removedLine])

end CarrotOS
