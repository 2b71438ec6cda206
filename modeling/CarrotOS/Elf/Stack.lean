import CarrotOS.Lib.Bytes
import CarrotOS.Lib.Run
import CarrotOS.Lib.Word
import Mathlib.Data.List.Forall2

/-!
# The initial stack of a program

`init_stack` builds the stack on which a program starts: the strings of `argv` and `envp`, sixteen
random bytes, the auxiliary vector, the two tables of pointers and `argc`, each below the other. The
program reads it upwards.

The two tables are in the wrong order: the one of `envp` is built last and so stands where `argv` is
looked for. The random bytes do not get room of their own: they start at the null word below the
strings of `envp` and reach eight bytes into the last of them.
-/

namespace CarrotOS.Elf

open Bytes Word Transition List Option

variable {argvPtr envpPtr l l' : List ℕ} {auxv : List (ℕ × ℕ)} {n : ℕ}

/-! ## The construction -/

/-- The memory and the stack pointer `current_rsp`. -/
structure Stack where
  mem : ℕ → UInt8
  rsp : ℕ

/-- Move the pointer down by `n` bytes and store bytes there. Below `low` nothing is mapped. -/
def Stack.push (low : ℕ) (s : Stack) (n : ℕ) (bytes : ℕ → UInt8) : Option Stack :=
  if low + n ≤ s.rsp then some ⟨blit s.mem (s.rsp - n) n bytes, s.rsp - n⟩ else none

/-- The bytes of a string, and zeros behind it. -/
def stringBytes (str : List UInt8) (j : ℕ) : UInt8 :=
  str.getD j 0

def wordBytes (ws : List ℕ) (j : ℕ) : UInt8 :=
  leByte (ws.getD (j / 8) 0) (j % 8)

/-- The loops over `argv` and `envp`: each string with its terminating zero below the one before it,
and the pointers. -/
def Stack.pushStrings (low : ℕ) : Stack → List (List UInt8) → Option (Stack × List ℕ)
  | s, [] => some (s, [])
  | s, str :: strs => do
    let s ← s.push low (str.length + 1) (stringBytes str)
    let (s', ptrs) ← s.pushStrings low strs
    some (s', s.rsp :: ptrs)

def Stack.pushWords (low : ℕ) (s : Stack) (ws : List ℕ) : Option Stack :=
  s.push low (8 * ws.length) (wordBytes ws)

def alignDown168 (num : ℕ) : ℕ :=
  u64 ((if num % 16 < 8 then num / 16 * 16 + 2 ^ 64 - 16 else num / 16 * 16) + 8)

/-- The arguments of `init_stack` besides the strings: `phdr_addr`, `count_loaded_sections`,
`ld_so_entry` and `elf_header->e_entry`. -/
structure Image where
  phdrAddr : UInt64
  countLoadedSections : UInt64
  ldSoEntry : UInt64
  eEntry : UInt64

def atRandom : ℕ := 25

/-- `auxv_default` without its last entry `AT_NULL`. -/
def auxvDefault (image : Image) (random arg0 : ℕ) : List (ℕ × ℕ) :=
  [(3, image.phdrAddr.toNat), (4, 56), (5, image.countLoadedSections.toNat),
    (9, image.eEntry.toNat), (6, 0x1000), (7, image.ldSoEntry.toNat), (atRandom, random),
    (31, arg0), (11, 0), (12, 0), (13, 0), (14, 0)]

def auxvWords (auxv : List (ℕ × ℕ)) : List ℕ :=
  auxv.flatMap fun p => [p.1, p.2]

/-- The part of `init_stack` from the padding on. -/
def initTables (low : ℕ) (s : Stack) (auxv : List (ℕ × ℕ)) (argvPtr envpPtr : List ℕ) :
    Option Stack :=
  let size := 16 * (auxv.length + 1) + 8 * argvPtr.length + 8 * envpPtr.length + 8 + 16
  -- a table that reaches down to address 0 is not mapped
  if s.rsp < size + 16 then none
  else do
    let rspBottom := s.rsp - size
    let s ← s.push low (rspBottom - alignDown168 rspBottom) fun _ => 0
    let s ← s.pushWords low (auxvWords auxv ++ [0, 0])
    let s ← s.pushWords low [0]
    let s ← s.pushWords low argvPtr
    let s ← s.pushWords low [0]
    let s ← s.pushWords low envpPtr
    let s ← s.pushWords low [argvPtr.length]
    s.pushWords low [0]

/-- `init_stack`. The result is the memory and `context.rsp`. The strings are given by their bytes,
and `random` are the sixteen bytes that `rand` returns. -/
def initStack (low : ℕ) (stackAddr : UInt64) (mem : ℕ → UInt8) (argv envp : List (List UInt8))
    (random : ℕ → UInt8) (image : Image) : Option Stack := do
  let (s, argvPtr) ← Stack.pushStrings low ⟨mem, stackAddr.toNat - 8⟩ argv
  let s ← s.pushWords low [0]
  let (s, envpPtr) ← s.pushStrings low envp
  let s ← s.pushWords low [0]
  -- the random bytes stand at the pointer, which does not move
  initTables low { s with mem := blit s.mem s.rsp 16 random }
    (auxvDefault image s.rsp (argvPtr.headD 0)) argvPtr envpPtr

/-! ## What the program reads -/

def word (mem : ℕ → UInt8) (addr : ℕ) : ℕ :=
  leNat 8 fun i => mem (addr + i)

def Words (mem : ℕ → UInt8) : ℕ → List ℕ → Prop
  | _, [] => True
  | addr, w :: ws => word mem addr = w ∧ Words mem (addr + 8) ws

/-- At an address stands a string with a terminating zero. -/
def StringAt (mem : ℕ → UInt8) (addr : ℕ) (str : List UInt8) : Prop :=
  (∀ i (h : i < str.length), mem (addr + i) = str[i]) ∧ mem (addr + str.length) = 0

/-- The stack at `addr` as the program reads it: `argc`, as many pointers, a null pointer, further
pointers up to a null pointer, and pairs up to one of type `AT_NULL`. -/
structure Layout (mem : ℕ → UInt8) (addr argc : ℕ) (argvPtr envpPtr : List ℕ)
    (auxv : List (ℕ × ℕ)) : Prop where
  length : argvPtr.length = argc
  words : Words mem addr (argc :: argvPtr ++ 0 :: (envpPtr ++ 0 :: (auxvWords auxv ++ [0])))
  envp_ne_zero : ∀ p ∈ envpPtr, p ≠ 0
  auxv_ne_null : ∀ p ∈ auxv, p.1 ≠ 0

/-- The program finds its arguments and its environment, and sixteen random bytes beside them; the
stack pointer is a multiple of 16. -/
structure RoundTrip (s : Stack) (argv envp : List (List UInt8)) : Prop where
  aligned : s.rsp % 16 = 0
  layout : ∃ argvPtr envpPtr auxv random,
    Layout s.mem (s.rsp + 8) argv.length argvPtr envpPtr auxv ∧
    List.Forall₂ (StringAt s.mem) argvPtr argv ∧ List.Forall₂ (StringAt s.mem) envpPtr envp ∧
    auxv.lookup atRandom = some random ∧
    ∀ p ∈ argvPtr.zip argv ++ envpPtr.zip envp,
      random + 16 ≤ p.1 ∨ p.1 + p.2.length + 1 ≤ random

/-! ## Words in memory -/

section Words

variable {mem mem' : ℕ → UInt8} {addr : ℕ} {ws vs : List ℕ}

theorem words_append : Words mem addr (ws ++ vs) ↔
    Words mem addr ws ∧ Words mem (addr + 8 * ws.length) vs := by
  induction ws generalizing addr with
  | nil => simp [Words]
  | cons w ws ih =>
    rw [cons_append, Words, Words, ih, length_cons, and_assoc]
    rw [show addr + 8 + 8 * ws.length = addr + 8 * (ws.length + 1) by omega]

theorem words_congr (h : ∀ j < 8 * ws.length, mem (addr + j) = mem' (addr + j)) :
    Words mem addr ws ↔ Words mem' addr ws := by
  induction ws generalizing addr with
  | nil => rfl
  | cons w ws ih =>
    have hword : word mem addr = word mem' addr := by
      refine leNat_congr fun i hi => h i ?_
      rw [length_cons]
      omega
    have hrest : Words mem (addr + 8) ws ↔ Words mem' (addr + 8) ws := by
      refine ih fun j hj => ?_
      rw [Nat.add_assoc]
      exact h (8 + j) (by rw [length_cons]; omega)
    rw [Words, Words, hword, hrest]

theorem Words.getElem (h : Words mem addr ws) {i : ℕ} (hi : i < ws.length) :
    word mem (addr + 8 * i) = ws[i] := by
  induction ws generalizing addr i with
  | nil => cases hi
  | cons w ws ih =>
    cases i with
    | zero => exact h.1
    | succ i =>
      have := ih h.2 (Nat.lt_of_succ_lt_succ hi)
      rw [show addr + 8 * (i + 1) = addr + 8 + 8 * i by omega]
      exact this

theorem Words.eq_of_length (h : Words mem addr ws) (h' : Words mem addr vs)
    (hlen : ws.length = vs.length) : ws = vs := by
  refine ext_getElem hlen fun i hi hi' => ?_
  rw [← h.getElem hi, h'.getElem hi']

theorem Words.eq_of_terminated (h : Words mem addr (ws ++ 0 :: l))
    (h' : Words mem addr (vs ++ 0 :: l')) (hws : ∀ w ∈ ws, w ≠ 0) (hvs : ∀ v ∈ vs, v ≠ 0) :
    ws = vs := by
  induction ws generalizing addr vs with
  | nil =>
    cases vs with
    | nil => rfl
    | cons v vs => exact absurd (h'.1.symm.trans h.1) (hvs v mem_cons_self)
  | cons w ws ih =>
    cases vs with
    | nil => exact absurd (h.1.symm.trans h'.1) (hws w mem_cons_self)
    | cons v vs =>
      have heq : w = v := h.1.symm.trans h'.1
      have hrest := ih h.2 h'.2 (fun w hw => hws w (mem_cons_of_mem _ hw))
        fun v hv => hvs v (mem_cons_of_mem _ hv)
      rw [heq, hrest]

theorem Words.auxv_eq {auxv' : List (ℕ × ℕ)} (h : Words mem addr (auxvWords auxv ++ 0 :: l))
    (h' : Words mem addr (auxvWords auxv' ++ 0 :: l')) (hne : ∀ p ∈ auxv, p.1 ≠ 0)
    (hne' : ∀ p ∈ auxv', p.1 ≠ 0) : auxv = auxv' := by
  induction auxv generalizing addr auxv' with
  | nil =>
    cases auxv' with
    | nil => rfl
    | cons p auxv' => exact absurd (h'.1.symm.trans h.1) (hne' p mem_cons_self)
  | cons p auxv ih =>
    cases auxv' with
    | nil => exact absurd (h.1.symm.trans h'.1) (hne p mem_cons_self)
    | cons p' auxv' =>
      have heq : p = p' := Prod.ext (h.1.symm.trans h'.1) (h.2.1.symm.trans h'.2.1)
      have hrest := ih h.2.2 h'.2.2 (fun p hp => hne p (mem_cons_of_mem _ hp))
        fun p hp => hne' p (mem_cons_of_mem _ hp)
      rw [heq, hrest]

theorem words_iff : Words mem addr ws ↔
    ∀ i (h : i < ws.length), word mem (addr + 8 * i) = ws[i] := by
  refine ⟨fun h i hi => h.getElem hi, fun h => ?_⟩
  induction ws generalizing addr with
  | nil => trivial
  | cons w ws ih =>
    refine ⟨h 0 (Nat.zero_lt_succ _), ih fun i hi => ?_⟩
    have := h (i + 1) (Nat.succ_lt_succ hi)
    rwa [show addr + 8 * (i + 1) = addr + 8 + 8 * i by omega] at this

theorem words_blit (mem : ℕ → UInt8) (addr : ℕ) (hws : ∀ w ∈ ws, w < 2 ^ 64) :
    Words (blit mem addr (8 * ws.length) (wordBytes ws)) addr ws := by
  refine words_iff.mpr fun i hi => ?_
  have hbytes : word (blit mem addr (8 * ws.length) (wordBytes ws)) (addr + 8 * i) =
      leNat 8 (leByte ws[i]) := by
    refine leNat_congr fun j hj => ?_
    rw [blit_of_mem _ _ (by omega) (by omega),
      show addr + 8 * i + j - addr = 8 * i + j by omega, wordBytes,
      show (8 * i + j) / 8 = i by omega, show (8 * i + j) % 8 = j by omega]
    simp [hi]
  have hlt := hws _ (getElem_mem hi)
  rw [hbytes, leNat_leByte, Nat.mod_eq_of_lt (by omega)]

theorem Words.blit (h : Words mem addr ws) {a : ℕ} (hle : a + n ≤ addr) (bytes : ℕ → UInt8) :
    Words (Bytes.blit mem a n bytes) addr ws :=
  (words_congr fun j _ => blit_of_not_mem _ _ (.inr (by omega))).mpr h

end Words

/-! ## What the construction leaves -/

section Construction

variable {low : ℕ} {s s' : Stack} {ws vs : List ℕ}

theorem push_spec {bytes : ℕ → UInt8} (h : s.push low n bytes = some s') :
    low ≤ s'.rsp ∧ s'.rsp + n = s.rsp ∧ s'.mem = blit s.mem s'.rsp n bytes := by
  obtain ⟨hle, h⟩ := ite_none_right_eq_some.mp h
  cases h
  exact ⟨by simp only; omega, by simp only; omega, rfl⟩

theorem pushWords_words (h : s.pushWords low vs = some s') (hvs : ∀ v ∈ vs, v < 2 ^ 64)
    (hws : Words s.mem s.rsp ws) : Words s'.mem s'.rsp (vs ++ ws) := by
  obtain ⟨-, hrsp, hmem⟩ := push_spec h
  rw [words_append, hmem, hrsp]
  exact ⟨words_blit _ _ hvs, hws.blit (by omega) _⟩

theorem pushStrings_spec {strs : List (List UInt8)} {ptrs : List ℕ}
    (h : s.pushStrings low strs = some (s', ptrs)) :
    ptrs.length = strs.length ∧ s'.rsp + strs.length ≤ s.rsp ∧
      (∀ p ∈ ptrs, low ≤ p ∧ p ≤ s.rsp) ∧ ∀ hne : ptrs ≠ [], ptrs.getLast hne = s'.rsp := by
  induction strs generalizing s s' ptrs with
  | nil =>
    cases h
    simp
  | cons str strs ih =>
    obtain ⟨s1, hs1, h⟩ := bind_eq_some_iff.mp h
    obtain ⟨⟨s2, rest⟩, hrest, h⟩ := bind_eq_some_iff.mp h
    cases h
    obtain ⟨hlow, hrsp, -⟩ := push_spec hs1
    obtain ⟨hlen, hle, hptrs, hlast⟩ := ih hrest
    refine ⟨by simp [hlen], by simp only [length_cons]; omega, ?_, ?_⟩
    · intro p hp
      rcases mem_cons.mp hp with rfl | hp
      · omega
      · have := hptrs p hp
        omega
    · intro hne
      by_cases hnil : rest = []
      · subst hnil
        have hstrs : strs = [] := length_eq_zero_iff.mp hlen.symm
        subst hstrs
        cases hrest
        rfl
      · rw [getLast_cons hnil]
        exact hlast hnil

theorem alignDown168_spec {num : ℕ} (h : 16 ≤ num) (hlt : num < 2 ^ 64) :
    alignDown168 num % 16 = 8 ∧ alignDown168 num ≤ num := by
  unfold alignDown168
  split_ifs with hmod
  · have hu : u64 (num / 16 * 16 + 2 ^ 64 - 16 + 8) = num / 16 * 16 - 8 := by
      unfold u64
      omega
    omega
  · rw [u64_of_lt (by omega)]
    omega

theorem length_auxvWords (auxv : List (ℕ × ℕ)) : (auxvWords auxv).length = 2 * auxv.length := by
  induction auxv with
  | nil => rfl
  | cons p auxv ih =>
    have hcons : auxvWords (p :: auxv) = p.1 :: p.2 :: auxvWords auxv := rfl
    rw [hcons, length_cons, length_cons, ih, length_cons]
    omega

/-- **The tables**, from the stack pointer on: the environment stands before the arguments. -/
theorem initTables_words (h : initTables low s auxv argvPtr envpPtr = some s')
    (hrsp : s.rsp < 2 ^ 64) (hauxv : ∀ w ∈ auxvWords auxv, w < 2 ^ 64)
    (hargv : ∀ p ∈ argvPtr, p < 2 ^ 64) (henvp : ∀ p ∈ envpPtr, p < 2 ^ 64)
    (hargc : argvPtr.length < 2 ^ 64) :
    s'.rsp % 16 = 0 ∧ Words s'.mem s'.rsp (0 :: argvPtr.length ::
      (envpPtr ++ 0 :: (argvPtr ++ 0 :: (auxvWords auxv ++ [0, 0])))) := by
  obtain ⟨hroom, h⟩ := ite_none_left_eq_some.mp h
  obtain ⟨s1, h1, h⟩ := bind_eq_some_iff.mp h
  obtain ⟨s2, h2, h⟩ := bind_eq_some_iff.mp h
  obtain ⟨s3, h3, h⟩ := bind_eq_some_iff.mp h
  obtain ⟨s4, h4, h⟩ := bind_eq_some_iff.mp h
  obtain ⟨s5, h5, h⟩ := bind_eq_some_iff.mp h
  obtain ⟨s6, h6, h⟩ := bind_eq_some_iff.mp h
  obtain ⟨s7, h7, h8⟩ := bind_eq_some_iff.mp h
  have hzero : ∀ w ∈ [0], w < 2 ^ 64 := by simp
  constructor
  · obtain ⟨-, hr1, -⟩ := push_spec h1
    obtain ⟨-, hr2, -⟩ := push_spec h2
    obtain ⟨-, hr3, -⟩ := push_spec h3
    obtain ⟨-, hr4, -⟩ := push_spec h4
    obtain ⟨-, hr5, -⟩ := push_spec h5
    obtain ⟨-, hr6, -⟩ := push_spec h6
    obtain ⟨-, hr7, -⟩ := push_spec h7
    obtain ⟨-, hr8, -⟩ := push_spec h8
    simp only [length_append, length_auxvWords, length_cons, length_nil] at *
    obtain ⟨hmod, hle⟩ := alignDown168_spec
      (show 16 ≤ s.rsp - (16 * (auxv.length + 1) + 8 * argvPtr.length + 8 * envpPtr.length + 8 + 16)
        by omega) (by omega)
    omega
  · have haux : ∀ w ∈ auxvWords auxv ++ [0, 0], w < 2 ^ 64 := by
      intro w hw
      rcases mem_append.mp hw with hw | hw
      · exact hauxv w hw
      · simp at hw
        omega
    have hw2 := pushWords_words h2 haux (show Words s1.mem s1.rsp [] from trivial)
    have hw3 := pushWords_words h3 hzero hw2
    have hw4 := pushWords_words h4 hargv hw3
    have hw5 := pushWords_words h5 hzero hw4
    have hw6 := pushWords_words h6 henvp hw5
    have hw7 := pushWords_words h7 (by simpa using hargc) hw6
    have hw8 := pushWords_words h8 hzero hw7
    simpa using hw8

theorem auxvDefault_lt (image : Image) {random arg0 : ℕ} (hrandom : random < 2 ^ 64)
    (harg0 : arg0 < 2 ^ 64) : ∀ w ∈ auxvWords (auxvDefault image random arg0), w < 2 ^ 64 := by
  have h1 := image.phdrAddr.toNat_lt
  have h2 := image.countLoadedSections.toNat_lt
  have h3 := image.eEntry.toNat_lt
  have h4 := image.ldSoEntry.toNat_lt
  intro w hw
  simp only [auxvWords, auxvDefault, atRandom, flatMap_cons, flatMap_nil,
    cons_append, nil_append, append_nil, mem_cons, not_mem_nil,
    or_false] at hw
  omega

/-- **The stack** from `context.rsp` on, and where its pointers lead. -/
theorem initStack_words {stackAddr : UInt64} {mem : ℕ → UInt8} {argv envp : List (List UInt8)}
    {random : ℕ → UInt8} {image : Image} (hlow : 0 < low)
    (h : initStack low stackAddr mem argv envp random image = some s') :
    ∃ argvPtr envpPtr randomAddr arg0,
      argvPtr.length = argv.length ∧ envpPtr.length = envp.length ∧
      (∀ p ∈ argvPtr, p ≠ 0) ∧ (∀ p ∈ envpPtr, p ≠ 0) ∧
      (∀ hne : envpPtr ≠ [], envpPtr.getLast hne = randomAddr + 8) ∧ s'.rsp % 16 = 0 ∧
      Words s'.mem s'.rsp (0 :: argvPtr.length :: (envpPtr ++ 0 :: (argvPtr ++
        0 :: (auxvWords (auxvDefault image randomAddr arg0) ++ [0, 0])))) := by
  obtain ⟨⟨s1, argvPtr⟩, h1, h⟩ := bind_eq_some_iff.mp h
  obtain ⟨s2, h2, h⟩ := bind_eq_some_iff.mp h
  obtain ⟨⟨s3, envpPtr⟩, h3, h⟩ := bind_eq_some_iff.mp h
  obtain ⟨s4, h4, h⟩ := bind_eq_some_iff.mp h
  obtain ⟨hargc, hle1, hargv, -⟩ := pushStrings_spec h1
  obtain ⟨-, hr2, -⟩ := push_spec h2
  obtain ⟨henvc, hle3, henvp, hlast⟩ := pushStrings_spec h3
  obtain ⟨-, hr4, -⟩ := push_spec h4
  have hstack := stackAddr.toNat_lt
  simp only [length_singleton] at hle1 hr2 hle3 hr4 hargv
  have harg0 : argvPtr.headD 0 < 2 ^ 64 := by
    cases argvPtr with
    | nil => simp
    | cons p ps =>
      have := hargv p mem_cons_self
      simp only [headD_cons]
      omega
  obtain ⟨hmod, hwords⟩ := initTables_words h (by simp only; omega)
    (auxvDefault_lt image (by omega) harg0)
    (fun p hp => by have := hargv p hp; omega) (fun p hp => by have := henvp p hp; omega)
    (by omega)
  refine ⟨argvPtr, envpPtr, s4.rsp, _, hargc, henvc, ?_, ?_, ?_, hmod, hwords⟩
  · intro p hp
    have := hargv p hp
    omega
  · intro p hp
    have := henvp p hp
    omega
  · intro hne
    rw [hlast hne]
    omega

end Construction

/-! ## The round trip -/

section RoundTrip

variable {low : ℕ} {s : Stack} {stackAddr : UInt64} {mem : ℕ → UInt8}
  {argv envp : List (List UInt8)} {random : ℕ → UInt8} {image : Image}

theorem auxvDefault_ne_null (image : Image) (random arg0 : ℕ) :
    ∀ p ∈ auxvDefault image random arg0, p.1 ≠ 0 := by
  simp [auxvDefault, atRandom]

theorem lookup_atRandom (image : Image) (random arg0 : ℕ) :
    (auxvDefault image random arg0).lookup atRandom = some random :=
  rfl

theorem length_eq_of_words {addr : ℕ} {ps : List ℕ} (hlen : ps.length = argvPtr.length)
    (hargv : ∀ p ∈ argvPtr, p ≠ 0) (henvp : ∀ p ∈ envpPtr, p ≠ 0)
    (hread : Words mem addr (ps ++ 0 :: l))
    (hbuilt : Words mem addr (envpPtr ++ 0 :: (argvPtr ++ l'))) :
    envpPtr.length = argvPtr.length := by
  have hzero : word mem (addr + 8 * ps.length) = 0 := (words_append.mp hread).2.1
  obtain ⟨henv, hrest⟩ := words_append.mp hbuilt
  rcases Nat.lt_trichotomy argvPtr.length envpPtr.length with hlt | heq | hgt
  · -- a pointer to the environment where the null pointer should be
    rw [hlen, henv.getElem hlt] at hzero
    exact absurd hzero (henvp _ (getElem_mem hlt))
  · exact heq.symm
  · have hlt : argvPtr.length - envpPtr.length - 1 < argvPtr.length := by omega
    have hptr := (words_append.mp hrest.2).1.getElem hlt
    rw [show addr + 8 * envpPtr.length + 8 + 8 * (argvPtr.length - envpPtr.length - 1) =
      addr + 8 * ps.length by omega, hzero] at hptr
    exact absurd hptr.symm (hargv _ (getElem_mem hlt))

/-- **When the round trip works**: a program finds its arguments and its environment exactly when it
has neither. -/
theorem roundTrip_iff (hlow : 0 < low)
    (h : initStack low stackAddr mem argv envp random image = some s) :
    RoundTrip s argv envp ↔ argv = [] ∧ envp = [] := by
  obtain ⟨argvPtr, envpPtr, randomAddr, arg0, hargc, henvc, hargv, henvp, hlast, hmod, hwords⟩ :=
    initStack_words hlow h
  obtain ⟨-, hargcWord, hbuilt⟩ := hwords
  constructor
  · rintro ⟨-, ps, qs, auxv, r, hlayout, -, -, hr, hdisjoint⟩
    have hps := hlayout.length
    obtain ⟨-, hread⟩ := hlayout.words
    have hsame := length_eq_of_words (hps.trans hargc.symm) hargv henvp hread hbuilt
    by_cases hnil : envp = []
    · subst hnil
      rw [length_nil] at henvc
      exact ⟨length_eq_zero_iff.mp (by omega), rfl⟩
    · exfalso
      -- the last argument is looked for where the last string of the environment is
      have hne : envpPtr ≠ [] := by
        intro h0
        rw [h0] at henvc
        exact hnil (length_eq_zero_iff.mp henvc.symm)
      obtain ⟨hread₁, -, hread₂⟩ := words_append.mp hread
      obtain ⟨hbuilt₁, -, hbuilt₂⟩ := words_append.mp hbuilt
      obtain rfl : ps = envpPtr := hread₁.eq_of_length hbuilt₁ (by omega)
      obtain rfl : qs = argvPtr :=
        hread₂.eq_of_terminated hbuilt₂ hlayout.envp_ne_zero hargv
      obtain rfl : auxv = auxvDefault image randomAddr arg0 :=
        (words_append.mp hread₂).2.2.auxv_eq (words_append.mp hbuilt₂).2.2 hlayout.auxv_ne_null
          (auxvDefault_ne_null image randomAddr arg0)
      rw [lookup_atRandom] at hr
      cases hr
      have hargvne : argv ≠ [] := by
        rintro rfl
        exact hne (length_eq_zero_iff.mp hps)
      have hmem : (ps.getLast hne, argv.getLast hargvne) ∈ ps.zip argv ++ qs.zip envp := by
        apply mem_append_left
        have hlt : ps.length - 1 < (ps.zip argv).length := by
          have := length_pos_iff.mpr hne
          rw [length_zip]
          omega
        have := getElem_mem hlt
        simpa [getLast_eq_getElem, hps] using this
      have := hdisjoint _ hmem
      simp only [hlast hne] at this
      omega
  · rintro ⟨rfl, rfl⟩
    obtain rfl : argvPtr = [] := length_eq_zero_iff.mp hargc
    obtain rfl : envpPtr = [] := length_eq_zero_iff.mp henvc
    refine ⟨hmod, [], [], auxvDefault image randomAddr arg0, randomAddr, ⟨rfl, ?_, by simp,
      auxvDefault_ne_null _ _ _⟩, .nil, .nil, lookup_atRandom _ _ _, by simp⟩
    refine ⟨hargcWord, hbuilt.1, hbuilt.2.1, ?_⟩
    have haux := (words_append.mp hbuilt.2.2)
    exact words_append.mpr ⟨haux.1, haux.2.1, trivial⟩

end RoundTrip

/-! ## Two stacks -/

/-- The program without arguments starts on a stack of one page. -/
theorem roundTrip_iff_empty : ∃ s,
    initStack 0x1000 0x2000 (fun _ => 0) [] [] (fun _ => 7) ⟨64, 2, 0, 0x400000⟩ = some s ∧
    RoundTrip s [] [] := by
  exact exists_of_eval (Q := fun _ => True) (by decide) fun _ hs _ =>
    (roundTrip_iff (by decide) hs).mpr ⟨rfl, rfl⟩

/-- **One argument and no environment**: behind `argc` stands the null pointer that ends the table
of the environment. -/
theorem argv_not_read_back : ∃ s,
    initStack 0x1000 0x2000 (fun _ => 0) [[0x61]] [] (fun _ => 7) ⟨64, 2, 0, 0x400000⟩ = some s ∧
    word s.mem (s.rsp + 8) = 1 ∧ word s.mem (s.rsp + 16) = 0 ∧ ¬RoundTrip s [[0x61]] [] := by
  refine exists_of_eval (Q := fun s => word s.mem (s.rsp + 8) = 1 ∧
    word s.mem (s.rsp + 16) = 0 ∧ word s.mem (s.rsp + 24) ≠ 0) (by decide) ?_
  rintro s - ⟨hargc, hfirst, hsecond⟩
  refine ⟨hargc, hfirst, ?_⟩
  rintro ⟨-, ps, qs, auxv, r, hlayout, -⟩
  -- behind the only pointer stands no null pointer
  have hlen := hlayout.length
  have hzero : word s.mem (s.rsp + 8 + 8 * 2) = 0 := by
    have := (words_append.mp hlayout.words).2.1
    rwa [length_cons, hlen] at this
  exact hsecond hzero

end CarrotOS.Elf
