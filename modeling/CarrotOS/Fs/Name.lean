import Mathlib.Data.List.Basic
import Mathlib.Data.List.TakeWhile
import Mathlib.Tactic.Common

/-!
# Paths and 8.3 names (`core/filesytem/filesystem.h`, `fat32.h`)

A path is the list of its bytes before the NUL. The lookups cut it into components in three ways:
`find_cluster_from_path` with `split_n`, `find_dir_entry` with a loop of its own, and `fat32_stat`,
`fat32_create` and `fat32_rename` at the last slash. A component becomes an 11-byte name either by
`format_name_83` or inside `match_name`.
-/

namespace CarrotOS.Fat32

open List

variable {base ext rest stored : List UInt8} {c : UInt8} {count index size : ℕ}

/-- What a path can lead to. -/
inductive PathType where
  | notFound | file | directory
  deriving DecidableEq, Repr

def slash : UInt8 := 0x2F

def dot : UInt8 := 0x2E

def space : UInt8 := 0x20

def toupper (c : UInt8) : UInt8 :=
  if 0x61 ≤ c ∧ c ≤ 0x7A then c - 0x20 else c

/-- A base of at most eight bytes and an extension of at most three, in upper case and filled with
spaces. -/
def pad83 (base ext : List UInt8) : List UInt8 :=
  base.map toupper ++ replicate (8 - base.length) space ++
    (ext.map toupper ++ replicate (3 - ext.length) space)

/-- `format_name_83`: the base ends at the first dot of the whole name. -/
def formatName83 (src : List UInt8) : List UInt8 :=
  pad83 ((src.takeWhile (· ≠ dot)).take 8) (((src.dropWhile (· ≠ dot)).drop 1).take 3)

/-- The local `formatted` of `match_name`: a dot is looked for in the first nine bytes only. -/
def matchFormat (pathName : List UInt8) : List UInt8 :=
  let base := (pathName.take 8).takeWhile (· ≠ dot)
  pad83 base
    (if pathName.getD base.length 0 = dot then (pathName.drop (base.length + 1)).take 3 else [])

/-- `match_name` of a component with the name in an entry. -/
def matchName (pathName name : List UInt8) : Bool :=
  name == matchFormat pathName

/-! ## Cutting paths -/

/-- What `split_n` has done: its result, the characters stored from the start of the buffer on, and
whether a NUL was stored behind them. -/
structure SplitResult where
  ok : Bool
  stored : List UInt8
  ended : Bool
  deriving DecidableEq, Repr

/-- The loop of `split_n` and its end, for the rest of the string, the number of delimiters met and
the characters stored. -/
def splitLoop (delim : UInt8) (index resultSize : ℕ) :
    List UInt8 → ℕ → List UInt8 → SplitResult
  | [], count, stored => if count < index then ⟨false, [], true⟩ else ⟨true, stored, true⟩
  | c :: rest, count, stored =>
    if c = delim then
      if index < count + 1 then ⟨true, stored, true⟩
      else splitLoop delim index resultSize rest (count + 1) stored
    else if count = index then
      if resultSize ≤ stored.length + 1 then ⟨false, stored, false⟩
      else splitLoop delim index resultSize rest count (stored ++ [c])
    else splitLoop delim index resultSize rest count stored

def splitN (str : List UInt8) (delim : UInt8) (index resultSize : ℕ) : SplitResult :=
  splitLoop delim index resultSize str 0 []

def direntNameMaxLength : ℕ := 64

/-- The components that `find_cluster_from_path` follows: the fields from the first on, up to the
first empty one, cut to 63 characters. -/
def tokens (path : List UInt8) : List (List UInt8) :=
  ((range path.length).map fun j =>
    (splitN path slash (j + 1) direntNameMaxLength).stored).takeWhile (· ≠ [])

/-- The components that `find_dir_entry` follows, each with whether a slash follows it, for the rest
of the path and the characters of the component read so far. -/
def segments : List UInt8 → List UInt8 → List (List UInt8 × Bool)
  | [], acc => if acc = [] then [] else [(acc, false)]
  | c :: rest, acc => if c = slash then (acc, true) :: segments rest [] else segments rest
    (acc ++ [c])

def lastSlash (path : List UInt8) : ℕ :=
  (range path.length).foldl (fun last i => if path.getD i 0 = slash then i else last) 0

def parentPath (path : List UInt8) : List UInt8 :=
  if path.take (lastSlash path) = [] then [slash] else path.take (lastSlash path)

def lastName (path : List UInt8) : List UInt8 :=
  path.drop (lastSlash path + 1)

def pathOf (comps : List (List UInt8)) : List UInt8 :=
  comps.flatMap fun c => slash :: c

/-- No component is empty or contains a slash. -/
def Components (comps : List (List UInt8)) : Prop :=
  ∀ c ∈ comps, c ≠ [] ∧ slash ∉ c

/-! ## Names -/

section Names

variable {t : List UInt8}

theorem length_pad83 (hb : base.length ≤ 8) (he : ext.length ≤ 3) :
    (pad83 base ext).length = 11 := by
  simp only [pad83, length_append, length_map, length_replicate]
  omega

theorem length_formatName83 (src : List UInt8) : (formatName83 src).length = 11 :=
  length_pad83 (length_take_le ..) (length_take_le ..)

theorem takeWhile_ne_dot (h : dot ∉ base) (rest : List UInt8) :
    (base ++ rest).takeWhile (· ≠ dot) = base ++ rest.takeWhile (· ≠ dot) := by
  apply takeWhile_append_of_pos
  intro c hc
  simpa using ne_of_mem_of_not_mem hc h

theorem dropWhile_ne_dot (h : dot ∉ base) (rest : List UInt8) :
    (base ++ rest).dropWhile (· ≠ dot) = rest.dropWhile (· ≠ dot) := by
  apply dropWhile_append_of_pos
  intro c hc
  simpa using ne_of_mem_of_not_mem hc h

theorem formatName83_dot (h : dot ∉ base) :
    formatName83 (base ++ dot :: ext) = pad83 (base.take 8) (ext.take 3) := by
  rw [formatName83, takeWhile_ne_dot h, dropWhile_ne_dot h]
  simp

theorem formatName83_of_not_mem (h : dot ∉ t) : formatName83 t = pad83 (t.take 8) [] := by
  have htake := takeWhile_ne_dot h []
  have hdrop := dropWhile_ne_dot h []
  rw [append_nil] at htake hdrop
  rw [formatName83, htake, hdrop]
  simp

theorem matchFormat_dot (h : dot ∉ base) (hlen : base.length ≤ 8) :
    matchFormat (base ++ dot :: ext) = pad83 base (ext.take 3) := by
  have htake : ((base ++ dot :: ext).take 8).takeWhile (· ≠ dot) = base := by
    rw [take_append, take_of_length_le hlen, takeWhile_ne_dot h]
    cases 8 - base.length <;> simp
  rw [matchFormat, htake]
  simp

theorem matchFormat_of_not_mem (h : dot ∉ t) : matchFormat t = pad83 (t.take 8) [] := by
  have hnot : dot ∉ t.take 8 := fun hmem => h (mem_of_mem_take hmem)
  have htake := takeWhile_ne_dot hnot []
  rw [append_nil, takeWhile_nil, append_nil] at htake
  have hget : t.getD (t.take 8).length 0 ≠ dot := by
    intro hget
    rw [getD_eq_getElem?_getD] at hget
    rcases hc : t[(t.take 8).length]? with - | c
    · rw [hc] at hget
      cases hget
    · rw [hc] at hget
      exact h (hget ▸ mem_of_getElem? hc)
  rw [matchFormat, htake, if_neg hget]

/-- A name with a dot has at most eight bytes before the first one. -/
def ShortBase (t : List UInt8) : Prop :=
  dot ∈ t → (t.takeWhile (· ≠ dot)).length ≤ 8

instance (t : List UInt8) : Decidable (ShortBase t) :=
  inferInstanceAs (Decidable (_ → _))

/-- **The two conversions agree** on names with a short base. -/
theorem matchFormat_eq (h : ShortBase t) : matchFormat t = formatName83 t := by
  by_cases hdot : dot ∈ t
  · have hlen := h hdot
    obtain ⟨base, ext, rfl, hbase⟩ := eq_append_cons_of_mem hdot
    rw [takeWhile_ne_dot hbase, takeWhile_cons_of_neg (by simp), append_nil] at hlen
    rw [matchFormat_dot hbase hlen, formatName83_dot hbase, take_of_length_le hlen]
  · rw [matchFormat_of_not_mem hdot, formatName83_of_not_mem hdot]

theorem matchFormat_take {n : ℕ} (hn : 12 ≤ n) : matchFormat (t.take n) = matchFormat t := by
  have htake : ((t.take n).take 8) = t.take 8 := by
    rw [take_take, Nat.min_eq_left (by omega)]
  have hlen : ((t.take 8).takeWhile (· ≠ dot)).length ≤ 8 :=
    (List.takeWhile_prefix _).length_le.trans (length_take_le ..)
  set m := ((t.take 8).takeWhile (· ≠ dot)).length with hm
  have hget : (t.take n).getD m 0 = t.getD m 0 := by
    rw [getD_eq_getElem?_getD, getD_eq_getElem?_getD, getElem?_take_of_lt (by omega)]
  have hext : ((t.take n).drop (m + 1)).take 3 = (t.drop (m + 1)).take 3 := by
    rw [drop_take, take_take, Nat.min_eq_left (by omega)]
  rw [matchFormat, matchFormat, htake, ← hm, hget, hext]

theorem pad83_head (base ext : List UInt8) :
    (pad83 base ext).head? = some ((base.head?.map toupper).getD space) := by
  cases base <;> rfl

/-- Both conversions begin with the same byte. -/
theorem matchFormat_head (t : List UInt8) : (matchFormat t).head? = (formatName83 t).head? := by
  rw [matchFormat, formatName83, pad83_head, pad83_head]
  cases t with
  | nil => rfl
  | cons c t =>
    by_cases hc : c = dot
    · simp [hc]
    · simp [hc]

/-! ### Long bases -/

theorem toupper_ne {x : UInt8} (hx : x.toNat < 0x41) (h : c ≠ x) : toupper c ≠ x := by
  unfold toupper
  split
  · rename_i hc
    intro heq
    have hle := UInt8.le_iff_toNat_le.mp hc.1
    have hsub := congrArg UInt8.toNat heq
    rw [UInt8.toNat_sub_of_le _ _ (UInt8.le_trans (by decide) hc.1)] at hsub
    have hval : ((0x61 : UInt8).toNat, (0x20 : UInt8).toNat) = (97, 32) := by decide
    simp only [Prod.mk.injEq] at hval
    omega
  · exact h

theorem toupper_eq_space : toupper c = space ↔ c = space := by
  constructor
  · intro h
    by_contra hne
    exact toupper_ne (by decide) hne h
  · rintro rfl
    rfl

theorem matchFormat_long (h : dot ∉ base) (hlen : 8 < base.length) :
    matchFormat (base ++ dot :: ext) = pad83 (base.take 8) [] := by
  have hnot : dot ∉ base.take 8 := fun hmem => h (mem_of_mem_take hmem)
  have htake : ((base ++ dot :: ext).take 8).takeWhile (· ≠ dot) = base.take 8 := by
    rw [take_append_of_le_length (by omega)]
    simpa using takeWhile_ne_dot hnot []
  have hget : (base ++ dot :: ext).getD 8 0 ≠ dot := by
    rw [getD_eq_getElem?_getD, getElem?_append_left hlen, getElem?_eq_getElem hlen]
    exact fun heq => h (heq ▸ getElem_mem hlen)
  rw [matchFormat, htake, length_take, Nat.min_eq_left (by omega), if_neg hget]

theorem pad83_eq_iff (hlen : ext.length ≤ 3) :
    pad83 base [] = pad83 base ext ↔ ∀ c ∈ ext, c = space := by
  have hblank : ext.map toupper ++ replicate (3 - ext.length) space = replicate 3 space ↔
      ∀ c ∈ ext, c = space := by
    rw [eq_replicate_iff]
    simp [toupper_eq_space, hlen, or_imp]
  rw [pad83, pad83, append_cancel_left_eq, ← hblank]
  exact eq_comm

/-- The first three bytes of the extension are spaces, as far as there are any. -/
def BlankExt (t : List UInt8) : Prop :=
  ∀ c ∈ ((t.dropWhile (· ≠ dot)).drop 1).take 3, c = space

instance (t : List UInt8) : Decidable (BlankExt t) :=
  inferInstanceAs (Decidable (∀ c ∈ _, _))

theorem matchFormat_eq_iff (t : List UInt8) :
    matchFormat t = formatName83 t ↔ ShortBase t ∨ BlankExt t := by
  by_cases hshort : ShortBase t
  · exact iff_of_true (matchFormat_eq hshort) (.inl hshort)
  · obtain ⟨hdot, hlen⟩ := Classical.not_imp.mp hshort
    obtain ⟨base, ext, rfl, hbase⟩ := eq_append_cons_of_mem hdot
    rw [takeWhile_ne_dot hbase, takeWhile_cons_of_neg (by simp), append_nil] at hlen
    have hext : ((base ++ dot :: ext).dropWhile (· ≠ dot)).drop 1 = ext := by
      rw [dropWhile_ne_dot hbase]
      simp
    rw [matchFormat_long hbase (by omega), formatName83_dot hbase,
      pad83_eq_iff (length_take_le ..), BlankExt, hext, or_iff_right hshort]

/-- `match_name` and `format_name_83` agree on a name: it matches the entries with its 8.3 form and
no others. -/
def NamesAgree (t : List UInt8) : Prop :=
  (∀ e : List UInt8, e.length = 11 → (matchName t e = true ↔ formatName83 t = e)) ∧
    matchName t (formatName83 t) = true

/-- **A name is converted consistently** if and only if its base is short or its extension is
blank. -/
theorem namesAgree_iff (t : List UInt8) : NamesAgree t ↔ ShortBase t ∨ BlankExt t := by
  rw [← matchFormat_eq_iff, NamesAgree]
  simp only [matchName, beq_iff_eq]
  constructor
  · intro h
    exact h.2.symm
  · intro h
    refine ⟨fun e _ => ?_, h.symm⟩
    rw [h]
    exact eq_comm

def longName : List UInt8 :=
  [0x41, 0x42, 0x43, 0x44, 0x45, 0x46, 0x47, 0x48, 0x49, dot, 0x54, 0x58, 0x54]

/-- **An entry that is not found again**: it has its extension, and `match_name` looks for one
without. -/
theorem longName_not_found : slash ∉ longName ∧ 0 ∉ longName ∧
    matchName longName (formatName83 longName) = false ∧ ¬ NamesAgree longName := by
  refine ⟨by decide, by decide, by decide, ?_⟩
  intro h
  cases h.2

end Names

/-! ## Paths without empty components -/

section Paths

variable {comps : List (List UInt8)} {c : List UInt8}

theorem not_mem_of_mem_splitOn {delim : UInt8} {str f : List UInt8} (h : f ∈ str.splitOn delim) :
    delim ∉ f := by
  induction str generalizing f with
  | nil =>
    rw [splitOn_nil, mem_singleton] at h
    exact h ▸ not_mem_nil
  | cons c str ih =>
    rw [splitOn_cons_eq_if_modifyHead] at h
    obtain ⟨first, others, hfields⟩ := exists_cons_of_ne_nil (splitOn_ne_nil delim str)
    simp only [hfields, mem_cons, modifyHead_cons] at h ih
    split_ifs at h with hc
    · rcases mem_cons.mp h with rfl | h
      · exact not_mem_nil
      · exact ih (mem_cons.mp h)
    · rcases mem_cons.mp h with rfl | h
      · simpa [Ne.symm (ne_of_beq_false (Bool.eq_false_iff.mpr hc))] using ih (.inl rfl)
      · exact ih (.inr h)

/-- What is to be done with a field, or with none. -/
def fieldResult (size : ℕ) : Option (List UInt8) → SplitResult
  | none => ⟨false, [], true⟩
  | some f => if f.length < size then ⟨true, f, true⟩ else ⟨false, f.take (size - 1), false⟩

/-- The loop stores nothing before it has met `index` delimiters, and then the field. -/
theorem splitLoop_eq {delim : UInt8} {str : List UInt8} (hcount : count ≤ index)
    (hempty : count < index → stored = []) (hfits : stored.length < size) :
    splitLoop delim index size str count stored =
      fieldResult size (((str.splitOn delim)[index - count]?).map (stored ++ ·)) := by
  induction str generalizing count stored with
  | nil =>
    rw [splitLoop, splitOn_nil]
    split_ifs with h
    · rw [getElem?_eq_none (by simp; omega)]
      rfl
    · rw [show index - count = 0 by omega]
      simp [fieldResult, hfits]
  | cons c str ih =>
    rw [splitLoop, splitOn_cons_eq_if_modifyHead]
    by_cases hc : c = delim
    · rw [if_pos hc, if_pos (beq_iff_eq.mpr hc)]
      split_ifs with h
      · rw [show index - count = 0 by omega]
        simp [fieldResult, hfits]
      · rw [ih (by omega) (fun _ => hempty (by omega)) hfits,
          show index - count = index - (count + 1) + 1 by omega, getElem?_cons_succ]
    · rw [if_neg hc, if_neg (show ¬(c == delim) = true by simpa using hc)]
      obtain ⟨first, others, hfields⟩ := exists_cons_of_ne_nil (splitOn_ne_nil delim str)
      rw [hfields] at ih ⊢
      rw [modifyHead_cons]
      split_ifs with h hfull
      · subst h
        rw [Nat.sub_self]
        simp [fieldResult, show ¬stored.length + (first.length + 1) < size by omega,
          show size - 1 = stored.length by omega]
      · subst h
        rw [ih le_rfl (by omega) (by simp; omega), Nat.sub_self]
        simp
      · rw [ih hcount hempty hfits, show index - count = index - count - 1 + 1 by omega,
          getElem?_cons_succ, getElem?_cons_succ]

theorem splitN_eq {delim : UInt8} {str : List UInt8} (hsize : 1 ≤ size) :
    splitN str delim index size = fieldResult size (str.splitOn delim)[index]? := by
  rw [splitN, splitLoop_eq (Nat.zero_le _) (fun _ => rfl) hsize]
  simp

/-- **Field extraction.** The field is returned if there is one and it fits with its NUL. -/
theorem splitN_exact (str : List UInt8) (delim : UInt8) (index : ℕ) (hsize : 1 ≤ size) :
    let r := splitN str delim index size
    (r.ok = true ↔ ∃ f, (str.splitOn delim)[index]? = some f ∧ f.length < size) ∧
      (∀ f, (str.splitOn delim)[index]? = some f → f.length < size →
        r.stored = f ∧ r.ended = true) ∧
      r.stored.length + r.ended.toNat ≤ size := by
  rw [splitN_eq hsize]
  cases hfield : (str.splitOn delim)[index]? with
  | none => simp [fieldResult, hsize]
  | some f =>
    by_cases hfits : f.length < size
    · simp [fieldResult, hfits, Nat.succ_le_of_lt hfits]
    · simp [fieldResult, hfits]
      omega

theorem splitN_exact_second : (splitN [0x61, slash, 0x62] slash 1 2).stored = [0x62] :=
  ((splitN_exact [0x61, slash, 0x62] slash 1 (by decide : 1 ≤ 2)).2.1 [0x62] rfl (by decide)).1

theorem pathOf_cons (c : List UInt8) (comps : List (List UInt8)) :
    pathOf (c :: comps) = slash :: (c ++ pathOf comps) := by
  simp [pathOf]

theorem pathOf_eq_nil_or (comps : List (List UInt8)) :
    pathOf comps = [] ∨ ∃ rest, pathOf comps = slash :: rest := by
  cases comps with
  | nil => exact .inl rfl
  | cons c comps => exact .inr ⟨_, pathOf_cons c comps⟩

theorem splitOn_pathOf (h : Components comps) : (pathOf comps).splitOn slash = [] :: comps := by
  induction comps with
  | nil => exact splitOn_nil slash
  | cons c comps ih =>
    have hc := (h c mem_cons_self).2
    have hcomps := ih fun c' hc' => h c' (mem_cons_of_mem c hc')
    rw [pathOf_cons, ← nil_append (slash :: _), splitOn_append_cons_self_of_not_mem not_mem_nil]
    rcases pathOf_eq_nil_or comps with hnil | ⟨rest, hrest⟩
    · rw [hnil, splitOn_nil] at hcomps
      rw [hnil, append_nil, splitOn_eq_singleton hc, ← (cons.inj hcomps).2]
    · rw [hrest, ← nil_append (slash :: _),
        splitOn_append_cons_self_of_not_mem not_mem_nil] at hcomps
      rw [hrest, splitOn_append_cons_self_of_not_mem hc, (cons.inj hcomps).2]

theorem length_le_length_pathOf (comps : List (List UInt8)) :
    comps.length ≤ (pathOf comps).length := by
  induction comps with
  | nil => exact Nat.zero_le _
  | cons c comps ih =>
    rw [pathOf_cons, length_cons, length_cons, length_append]
    omega

theorem stored_splitN (path : List UInt8) (index : ℕ) :
    (splitN path slash index direntNameMaxLength).stored =
      (((path.splitOn slash)[index]?).map (take (direntNameMaxLength - 1))).getD [] := by
  rw [splitN_eq (by decide)]
  cases (path.splitOn slash)[index]? with
  | none => rfl
  | some f =>
    rw [fieldResult]
    split_ifs with hfits
    · exact (take_of_length_le (Nat.le_sub_one_of_lt hfits)).symm
    · rfl

/-- `find_cluster_from_path` follows the components, cut to 63 bytes. -/
theorem tokens_pathOf (h : Components comps) :
    tokens (pathOf comps) = comps.map (take (direntNameMaxLength - 1)) := by
  obtain ⟨n, hn⟩ := Nat.exists_eq_add_of_le (length_le_length_pathOf comps)
  have hfield : ∀ j, (splitN (pathOf comps) slash (j + 1) direntNameMaxLength).stored =
      ((comps[j]?).map (take (direntNameMaxLength - 1))).getD [] := by
    intro j
    rw [stored_splitN, splitOn_pathOf h, getElem?_cons_succ]
  simp only [tokens, hfield, hn, range_add, map_append, map_map]
  -- the fields with a component, and those behind them, which are empty
  have hcomps : (range comps.length).map (fun j =>
      ((comps[j]?).map (take (direntNameMaxLength - 1))).getD []) =
      comps.map (take (direntNameMaxLength - 1)) := by
    apply ext_getElem
    · simp
    · intro j hj hj'
      rw [length_map, length_range] at hj
      simp [hj]
  rw [hcomps, takeWhile_append_of_pos]
  · cases n with
    | zero => simp
    | succ n => simp [range_succ_eq_map]
  · intro c hc
    obtain ⟨c', hc', rfl⟩ := mem_map.mp hc
    simp [(h c' hc').1, direntNameMaxLength]

/-- The first bytes of components, as far as `find_cluster_from_path` reads them. -/
abbrev cut (ts : List (List UInt8)) : List (List UInt8) :=
  ts.map (take (direntNameMaxLength - 1))

theorem Components.init (h : Components (comps ++ [c])) : Components comps :=
  fun x hx => h x (mem_append_left _ hx)

theorem Components.snoc (h : Components comps) (hc : c ≠ [] ∧ slash ∉ c) :
    Components (comps ++ [c]) :=
  forall_mem_append.mpr ⟨h, forall_mem_singleton.mpr hc⟩

theorem Components.last (h : Components (comps ++ [c])) : c ≠ [] ∧ slash ∉ c :=
  h c (by simp)

theorem tokens_pathOf_snoc (h : Components (comps ++ [c])) :
    tokens (pathOf (comps ++ [c])) = cut comps ++ [c.take (direntNameMaxLength - 1)] :=
  (tokens_pathOf h).trans map_append

theorem of_mem_tokens {path t : List UInt8} (h : t ∈ tokens path) :
    (t ≠ [] ∧ slash ∉ t) ∧ t.length ≤ direntNameMaxLength - 1 := by
  have hne := mem_takeWhile_imp h
  obtain ⟨j, -, rfl⟩ := mem_map.mp ((List.takeWhile_prefix _).subset h)
  rw [stored_splitN] at hne ⊢
  cases hfield : (path.splitOn slash)[j + 1]? with
  | none => simp [hfield] at hne
  | some f =>
    rw [hfield] at hne
    refine ⟨⟨by simpa using hne, fun hmem => ?_⟩, length_take_le _ _⟩
    exact not_mem_of_mem_splitOn (mem_of_getElem? hfield) (mem_of_mem_take hmem)

theorem segments_append (hc : slash ∉ c) (rest acc : List UInt8) :
    segments (c ++ rest) acc = segments rest (acc ++ c) := by
  induction c generalizing acc with
  | nil => rw [nil_append, append_nil]
  | cons b c ih =>
    have hb : b ≠ slash := fun h => hc (h ▸ mem_cons_self)
    have hc' : slash ∉ c := fun h => hc (mem_cons_of_mem b h)
    rw [cons_append, segments, if_neg hb, ih hc', append_assoc, singleton_append]

theorem segments_pathOf (h : Components comps) (hc : c ≠ [] ∧ slash ∉ c) :
    segments ((pathOf (comps ++ [c])).drop 1) [] = comps.map (·, true) ++ [(c, false)] := by
  induction comps with
  | nil =>
    have hend : segments c [] = [(c, false)] := by
      have hall := segments_append hc.2 [] []
      rw [append_nil, nil_append] at hall
      rw [hall, segments, if_neg hc.1]
    simpa [pathOf] using hend
  | cons c' comps ih =>
    have hc' := h c' mem_cons_self
    have hcomps : Components comps := fun c hc => h c (mem_cons_of_mem c' hc)
    have hnext : ∃ rest, pathOf (comps ++ [c]) = slash :: rest := by
      rcases pathOf_eq_nil_or (comps ++ [c]) with hnil | hcons
      · have hlen := length_le_length_pathOf (comps ++ [c])
        rw [hnil] at hlen
        simp at hlen
      · exact hcons
    obtain ⟨rest, hrest⟩ := hnext
    have hih := ih hcomps
    rw [hrest, drop_one, tail_cons] at hih
    rw [cons_append, pathOf_cons, drop_one, tail_cons, segments_append hc'.2, hrest,
      segments, if_pos rfl, hih]
    rfl

theorem lastSlash_append {q : List UInt8} (hc : slash ∉ c) :
    lastSlash (q ++ slash :: c) = q.length := by
  have hlen : (q ++ slash :: c).length = (q.length + 1) + c.length := by
    rw [length_append, length_cons]
    omega
  rw [lastSlash, hlen, range_add, foldl_append, range_succ, foldl_append]
  -- no slash behind the position
  have htail : ∀ (n : ℕ) (js : List ℕ), (∀ j ∈ js, j < c.length) →
      (js.map fun j => q.length + 1 + j).foldl
        (fun last i => if (q ++ slash :: c).getD i 0 = slash then i else last) n = n := by
    intro n js hjs
    induction js generalizing n with
    | nil => rfl
    | cons j js ih =>
      have hj : j < c.length := hjs j mem_cons_self
      have hget : (q ++ slash :: c).getD (q.length + 1 + j) 0 ≠ slash := by
        rw [getD_eq_getElem?_getD, getElem?_append_right (by omega),
          show q.length + 1 + j - q.length = j + 1 by omega, getElem?_cons_succ,
          getElem?_eq_getElem hj]
        intro heq
        exact hc (heq ▸ getElem_mem hj)
      rw [map_cons, foldl_cons, if_neg hget]
      exact ih n fun j' hj' => hjs j' (mem_cons_of_mem j hj')
  rw [htail _ _ fun j hj => mem_range.mp hj]
  simp

theorem pathOf_snoc (comps : List (List UInt8)) (c : List UInt8) :
    pathOf (comps ++ [c]) = pathOf comps ++ slash :: c := by
  simp [pathOf]

theorem pathOf_snoc_head (comps : List (List UInt8)) (t : List UInt8) :
    (pathOf (comps ++ [t])).head? = some slash := by
  cases comps <;> rfl

theorem parentPath_pathOf (hc : slash ∉ c) :
    parentPath (pathOf (comps ++ [c])) = if comps = [] then [slash] else pathOf comps := by
  rw [parentPath, pathOf_snoc, lastSlash_append hc, take_left]
  cases comps with
  | nil => rfl
  | cons c' comps => simp [pathOf_cons]

theorem lastName_pathOf (hc : slash ∉ c) : lastName (pathOf (comps ++ [c])) = c := by
  rw [lastName, pathOf_snoc, lastSlash_append hc, drop_append, drop_of_length_le (by omega)]
  simp

theorem Components.pathOf_ne (h : Components (comps ++ [c])) : pathOf (comps ++ [c]) ≠ [slash] := by
  intro heq
  have hname := congrArg lastName heq
  rw [lastName_pathOf h.last.2] at hname
  exact h.last.1 hname

end Paths

end CarrotOS.Fat32
