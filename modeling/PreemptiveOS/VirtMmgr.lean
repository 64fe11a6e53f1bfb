import PreemptiveOS.PhysMmgr
import PreemptiveOS.TableForest
import PreemptiveOS.BitFields

/-!
# Page tables

The four-level tables of `virt_mmgr.c` in byte memory. Memory is addressed
as the kernel addresses it: a table at physical address `t` is read and
written at `t | KERNBASE`. The three upper levels of a mapping are created
by the same steps, so they are one definition used three times. How a new
table is cleared is a parameter of the mapping function; the kernel clears
with `my_memset`, which also writes the byte behind the table.

A memory is also seen as a store of tables, one for each frame number. The
second half says what each write does to that store.
-/

set_option autoImplicit false

namespace PreemptiveOS.VirtMmgr
open ByteMemory PhysMmgr TableForest

instance entries_neZero : NeZero 512 := ⟨by decide⟩

def addressMask : Word := 0x000FFFFFFFFFF000
def present : Word := 1
def readWrite : Word := 2
def userSupervisor : Word := 4

/-- The kernel's memory, its page array, the kernel root `pml4`, the register
`cr3`, and how many allocations have reported that no page was left. -/
structure Machine where
  mem : Mem
  pages : List Page
  pml4 : Word
  cr3 : Word
  shortages : ℕ

def memsetLoop (c : Byte) : ℕ → ℕ → Mem → Mem
  | 0, _, m => m
  | n+1, p, m => memsetLoop c n (p+1) (poke m p c)

def myMemset (m : Mem) (s : ℕ) (c : Byte) (n : ℕ) : Mem :=
  if n = 0 ∨ s = 0 then m else poke (memsetLoop c n s m) (s+n) 0

def kernelAddr (t : Word) : ℕ := (t ||| kernbase).toNat

def indexAt (shift : ℕ) (virtAddr : Word) : Fin 512 :=
  ⟨((virtAddr >>> shift) &&& 0x1FF).toNat, by
    have h := BitFields.shifted_mask_toNat virtAddr shift 9 (by decide)
    exact h ▸ Nat.mod_lt _ (by decide)⟩

def getIndexOfPml4 : Word → Fin 512 := indexAt 39
def getIndexOfPdpt : Word → Fin 512 := indexAt 30
def getIndexOfPdt : Word → Fin 512 := indexAt 21
def getIndexOfPt : Word → Fin 512 := indexAt 12

def entry (m : Mem) (table : Word) (i : Fin 512) : Word := load m (kernelAddr table+8*i)

def setEntry (m : Mem) (table : Word) (i : Fin 512) (e : Word) : Mem :=
  store m (kernelAddr table+8*i) e

def tableOf (m : Mem) (table : Word) (i : Fin 512) : Word := entry m table i &&& addressMask

def alloc (s : Machine) : Machine × Word :=
  ({ s with
      pages := (physMemAlloc s.pages).1
      shortages := if (physMemAlloc s.pages).2 = 0 then s.shortages+1 else s.shortages },
    (physMemAlloc s.pages).2)

def clearTable (m : Mem) (a : ℕ) : Mem := myMemset m a 0 4096

def clearTableExactly (m : Mem) (a : ℕ) : Mem := fill m a 4096 0

def retarget (e physAddr flags : Word) : Word := ((e &&& ~~~addressMask) ||| physAddr) ||| flags

/-- An upper level of a mapping: an entry that is not present gets a cleared
table and the flags, and an entry that is present keeps its flags. -/
def ensureTable (clear : Mem → ℕ → Mem) (s : Machine) (table : Word) (i : Fin 512)
    (flags : Word) : Machine :=
  if entry s.mem table i &&& present = present then s
  else
    let m := clear s.mem (kernelAddr (alloc s).2)
    { (alloc s).1 with
      mem := setEntry m table i (retarget (entry m table i) (alloc s).2 flags) }

def setLeaf (s : Machine) (table : Word) (i : Fin 512) (physAddr flags : Word) : Machine :=
  { s with mem := setEntry s.mem table i (retarget (entry s.mem table i) physAddr flags) }

def setPml4 (s : Machine) (physAddr : Word) : Machine := { s with cr3 := physAddr }

def mapVirtualAddressToPhysicalAddress (clear : Mem → ℕ → Mem) (s : Machine)
    (virtAddr physAddr : Word) (flags : BitVec 32) (cr3 : Word) (isReference : Bool) : Machine :=
  if virtAddr &&& 4095 ≠ 0 then s
  else if physAddr &&& 4095 ≠ 0 then s
  else
    let f := flags.setWidth 64
    let s₁ := ensureTable clear s cr3 (getIndexOfPml4 virtAddr) f
    let pdpt := tableOf s₁.mem cr3 (getIndexOfPml4 virtAddr)
    let s₂ := ensureTable clear s₁ pdpt (getIndexOfPdpt virtAddr) f
    let pdt := tableOf s₂.mem pdpt (getIndexOfPdpt virtAddr)
    let s₃ := ensureTable clear s₂ pdt (getIndexOfPdt virtAddr) f
    let pt := tableOf s₃.mem pdt (getIndexOfPdt virtAddr)
    let s₄ := if isReference then s₃ else setLeaf s₃ pt (getIndexOfPt virtAddr) physAddr f
    setPml4 s₄ cr3

def orEntry (m : Mem) (table : Word) (i : Fin 512) (flags : Word) : Mem :=
  setEntry m table i (entry m table i ||| flags)

/-- The flags are only ever added, and the last entry gets them without a
look at its present bit. -/
def changeFlagsInParentPageTables (s : Machine) (virt cr3 flags : Word) : Machine :=
  if entry s.mem cr3 (getIndexOfPml4 virt) &&& present ≠ present then s
  else
    let m₁ := orEntry s.mem cr3 (getIndexOfPml4 virt) flags
    let pdpt := tableOf m₁ cr3 (getIndexOfPml4 virt)
    if entry m₁ pdpt (getIndexOfPdpt virt) &&& present ≠ present then { s with mem := m₁ }
    else
      let m₂ := orEntry m₁ pdpt (getIndexOfPdpt virt) flags
      let pdt := tableOf m₂ pdpt (getIndexOfPdpt virt)
      if entry m₂ pdt (getIndexOfPdt virt) &&& present ≠ present then { s with mem := m₂ }
      else
        let m₃ := orEntry m₂ pdt (getIndexOfPdt virt) flags
        let pt := tableOf m₃ pdt (getIndexOfPdt virt)
        setPml4 { s with mem := orEntry m₃ pt (getIndexOfPt virt) flags } cr3

def walkPml4 (m : Mem) (cr3 virtAddr : Word) : Word :=
  if entry m cr3 (getIndexOfPml4 virtAddr) &&& present ≠ present then -1
  else
    let pdpt := tableOf m cr3 (getIndexOfPml4 virtAddr)
    if entry m pdpt (getIndexOfPdpt virtAddr) &&& present ≠ present then -1
    else
      let pdt := tableOf m pdpt (getIndexOfPdpt virtAddr)
      if entry m pdt (getIndexOfPdt virtAddr) &&& present ≠ present then -1
      else
        let pt := tableOf m pdt (getIndexOfPdt virtAddr)
        entry m pt (getIndexOfPt virtAddr) &&& addressMask

def copyEntries (next : Machine → Word → Machine) (source copy : Word) :
    List (Fin 512) → Machine → Machine
  | [], s => s
  | i::is, s =>
    let s₁ := { s with mem := setEntry s.mem copy i (entry s.mem source i) }
    let s₂ := if entry s₁.mem source i = 0 then s₁ else next s₁ (tableOf s₁.mem source i)
    copyEntries next source copy is s₂

/-- The copy of a table and, for every entry that is not zero, of the table
below it. No copied entry is redirected to the copy of the table below. -/
def copyLevel (next : Machine → Word → Machine) (s : Machine) (table : Word) : Machine × Word :=
  (copyEntries next table (alloc s).2 (List.finRange 512) (alloc s).1, (alloc s).2)

def copyTable : ℕ → Machine → Word → Machine × Word
  | 0 => copyLevel (fun s _ => s)
  | d+1 => copyLevel (fun s t => (copyTable d s t).1)

def copyPageTables (s : Machine) (pageTableAddress : Word) : ℕ → Machine × Word
  | 4 => ((copyTable 3 s pageTableAddress).1,
      ~~~kernbase &&& ((copyTable 3 s pageTableAddress).2 ||| kernbase))
  | 3 => ((copyTable 2 s pageTableAddress).1, ~~~kernbase &&& 0)
  | 2 => ((copyTable 1 s pageTableAddress).1, ~~~kernbase &&& 0)
  | 1 => ((copyTable 0 s pageTableAddress).1, ~~~kernbase &&& 0)
  | _ => (s, -1)

def tables (m : Mem) (k : ℕ) (i : Fin 512) : Word := load m (4096*k+8*i)

def frameOf (t : Word) : ℕ := kernelAddr t/4096

def child (e : Word) : Option ℕ :=
  if e &&& present = present then some (frameOf (e &&& addressMask)) else none

def Aligned (t : Word) : Prop := t.toNat%4096 = 0

instance (t : Word) : Decidable (Aligned t) := inferInstanceAs (Decidable (_ = _))

theorem memsetLoop_eq (c : Byte) (n p : ℕ) (m : Mem) : memsetLoop c n p m = fill m p n c := by
  induction n generalizing p m with
  | zero =>
    funext x
    rw [memsetLoop, fill, if_neg (by omega)]
  | succ n ih =>
    funext x
    rw [memsetLoop, ih]
    unfold fill poke
    by_cases hx : x = p
    · rw [if_neg (by omega), if_pos hx, if_pos (by omega)]
    · rw [if_neg hx]
      congr 1
      apply propext
      omega

theorem kernelAddr_eq (t : Word) : kernelAddr t = kernbase.toNat+t.toNat%2^31 := by
  have hlow := BitFields.and_low_mask t 31 (by decide)
  have hor : t ||| kernbase = kernbase+(t &&& BitVec.ofNat 64 (2^31-1)) := by
    rw [BitVec.add_eq_or_of_and_eq_zero]
    · apply BitVec.eq_of_getLsbD_eq
      intro i hi
      have hm : kernbase = ~~~(BitVec.ofNat 64 (2^31-1)) := by decide
      rw [hm]
      simp only [BitVec.getLsbD_or, BitVec.getLsbD_and, BitVec.getLsbD_not, hi, decide_true,
        Bool.true_and]
      cases (BitVec.ofNat 64 (2^31-1)).getLsbD i <;> simp
    · rw [BitVec.and_comm t, ← BitVec.and_assoc]
      have hz : kernbase &&& BitVec.ofNat 64 (2^31-1) = 0#64 := by decide
      rw [hz, BitVec.zero_and]
  have hk : kernbase.toNat = 2^64-2^31 := by decide
  rw [kernelAddr, hor, BitVec.toNat_add, hlow, hk]
  omega

theorem kernelAddr_aligned (t : Word) (ht : Aligned t) : kernelAddr t = 4096*frameOf t := by
  have hk : kernbase.toNat%4096 = 0 := by decide
  unfold frameOf Aligned at *
  rw [kernelAddr_eq]
  omega

theorem frameOf_eq (t : Word) : frameOf t = kernbase.toNat/4096+t.toNat%2^31/4096 := by
  have hk : kernbase.toNat%4096 = 0 := by decide
  rw [frameOf, kernelAddr_eq]
  omega

theorem frameOf_pos (t : Word) : 0 < frameOf t := by
  have hk : kernbase.toNat/4096 = 2^52-2^19 := by decide
  rw [frameOf_eq, hk]
  omega

variable {b : Word}

theorem frameOf_lt {a : Word} (ha : Aligned a) (hb : Aligned b) (hw : b.toNat < 2^31)
    (h : a.toNat < b.toNat) : frameOf a < frameOf b := by
  unfold Aligned at *
  rw [frameOf_eq, frameOf_eq]
  omega

theorem masked_aligned (e : Word) : Aligned (e &&& addressMask) := by
  apply (BitFields.low_mask_zero _ 12 (by decide)).mp
  have hz : addressMask &&& BitVec.ofNat 64 (2^12-1) = 0#64 := by decide
  rw [BitVec.and_assoc, hz, BitVec.and_zero]

theorem aligned_iff (t : Word) : t &&& 4095 = 0 ↔ Aligned t :=
  BitFields.low_mask_zero t 12 (by decide)

variable {t : Word}

theorem entry_eq (m : Mem) (i : Fin 512) (ht : Aligned t) :
    entry m t i = tables m (frameOf t) i := by
  rw [entry, tables, kernelAddr_aligned t ht]

theorem tables_setEntry (m : Mem) (t : Word) (i : Fin 512) (e : Word) (ht : Aligned t) :
    tables (setEntry m t i e) = put (tables m) (frameOf t) i e := by
  funext u j
  rw [tables, setEntry, kernelAddr_aligned t ht]
  by_cases h : u = frameOf t ∧ j = i
  · obtain ⟨rfl,rfl⟩ := h
    rw [put_same, load_store_same]
  · have hne : u ≠ frameOf t ∨ j.val ≠ i.val := by
      by_cases hu : u = frameOf t
      · exact Or.inr (fun hj => h ⟨hu,Fin.ext hj⟩)
      · exact Or.inl hu
    rw [load_store_apart _ _ (by omega), put, if_neg h, tables]

structure Clears (clear : Mem → ℕ → Mem) (margin : ℕ) : Prop where
  zero : ∀ m k, 0 < k → ∀ j, tables (clear m (4096*k)) k j = 0
  apart : ∀ m k u, 0 < k → u < k ∨ k+margin < u → ∀ j, tables (clear m (4096*k)) u j = tables m u j

theorem clearTable_eq (m : Mem) {a : ℕ} (ha : 0 < a) :
    clearTable m a = poke (fill m a 4096 0) (a+4096) 0 := by
  rw [clearTable, myMemset, if_neg (by omega), memsetLoop_eq]

theorem clears_exactly : Clears clearTableExactly 0 := by
  constructor
  · intro m k _ j
    exact load_fill_zero m (by omega)
  · intro m k u _ h j
    exact load_fill_apart m (by omega)

/-- The byte that `my_memset` writes behind a table reaches the next frame
and no frame above that. -/
theorem clears_memset : Clears clearTable 1 := by
  constructor
  · intro m k hk j
    rw [clearTable_eq m (by omega), tables, load_poke_apart (by omega)]
    exact load_fill_zero m (by omega)
  · intro m k u hk h j
    rw [clearTable_eq m (by omega), tables, load_poke_apart (by omega)]
    exact load_fill_apart m (by omega)

def upperPath (v : Word) : List (Fin 512) := [getIndexOfPml4 v, getIndexOfPdpt v, getIndexOfPdt v]

def leaf (m : Mem) (cr3 v : Word) : Option Word :=
  entryAt child (tables m) (frameOf cr3) (upperPath v) (getIndexOfPt v)

variable {e : Word}

theorem child_absent (h : ¬ e &&& present = present) : child e = none := if_neg h

theorem child_present (h : e &&& present = present) :
    child e = some (frameOf (e &&& addressMask)) := if_pos h

theorem tableOf_eq (m : Mem) (i : Fin 512) (ht : Aligned t) :
    tableOf m t i = tables m (frameOf t) i &&& addressMask := by
  rw [tableOf, entry_eq m i ht]

theorem tableOf_aligned (m : Mem) (t : Word) (i : Fin 512) : Aligned (tableOf m t i) :=
  masked_aligned _

theorem descend_entry (m : Mem) (t : Word) (i : Fin 512) (is : List (Fin 512)) (ht : Aligned t) :
    descend child (tables m) (frameOf t) (i::is) =
      if entry m t i &&& present = present then
        descend child (tables m) (frameOf (tableOf m t i)) is
      else none := by
  rw [descend, tableOf_eq m i ht, entry_eq m i ht]
  by_cases h : tables m (frameOf t) i &&& present = present
  · rw [child_present h, if_pos h]
    rfl
  · rw [child_absent h, if_neg h]
    rfl

variable {cr3 : Word}

theorem walk_eq (m : Mem) (v : Word) (h : Aligned cr3) :
    walkPml4 m cr3 v = ((leaf m cr3 v).map (fun e => e &&& addressMask)).getD (-1) := by
  have h₁ := tableOf_aligned m cr3 (getIndexOfPml4 v)
  have h₂ := tableOf_aligned m (tableOf m cr3 (getIndexOfPml4 v)) (getIndexOfPdpt v)
  unfold leaf entryAt upperPath walkPml4
  rw [descend_entry m cr3 _ _ h, descend_entry m _ _ _ h₁, descend_entry m _ _ _ h₂]
  dsimp only
  split_ifs <;> simp_all [descend, entry_eq m _ (tableOf_aligned _ _ _)]

def pageNumber (v : Word) : ℕ := v.toNat/4096%2^36

theorem indexAt_val (k : ℕ) (v : Word) : (indexAt k v).val = v.toNat/2^k%512 :=
  BitFields.shifted_mask_toNat v k 9 (by decide)

/-- The four indices are the digits of the page number. -/
theorem same_page_iff (v w : Word) :
    upperPath v = upperPath w ∧ getIndexOfPt v = getIndexOfPt w ↔ pageNumber v = pageNumber w := by
  simp only [upperPath, List.cons.injEq, and_true, Fin.ext_iff, getIndexOfPml4, getIndexOfPdpt,
    getIndexOfPdt, getIndexOfPt, indexAt_val, pageNumber]
  omega

theorem addressMask_getLsbD {i : ℕ} (hi : i < 64) :
    addressMask.getLsbD i = decide (12 ≤ i ∧ i < 52) := by
  revert i
  decide

theorem aligned_masked (a : Word) (ha : Aligned a) (hw : a.toNat < 2^52) : a &&& addressMask = a := by
  apply BitVec.eq_of_getLsbD_eq
  intro i hi
  rw [BitVec.getLsbD_and, addressMask_getLsbD hi]
  by_cases hin : 12 ≤ i ∧ i < 52
  · simp [hin]
  · have hbit : a.getLsbD i = false := by
      by_cases hlow : i < 12
      · have hm : (a.toNat%2^12).testBit i = false := by
          rw [show a.toNat%2^12 = 0 from ha]
          exact Nat.zero_testBit i
        simp only [Nat.testBit_mod_two_pow, hlow, decide_true, Bool.true_and] at hm
        exact hm
      · exact Nat.testBit_lt_two_pow
          (lt_of_lt_of_le hw (Nat.pow_le_pow_right (by decide) (by omega)))
    simp [hbit]

section
variable (e a flags : Word) (ha : a &&& addressMask = a) (hm : flags &&& addressMask = 0)

include ha hm in
theorem retarget_address : retarget e a flags &&& addressMask = a :=
  BitFields.replaced_field e ha hm

include ha in
theorem retarget_bits (hb : b &&& addressMask = 0) :
    retarget e a flags &&& b = (e ||| flags) &&& b :=
  BitFields.replaced_outside e flags hb ha

include ha hm in
theorem retarget_child (hp : flags &&& present = present) :
    child (retarget e a flags) = some (frameOf a) := by
  have hb : retarget e a flags &&& present = present := by
    rw [retarget_bits e a flags ha (by decide)]
    exact BitFields.set_inside e hp
  rw [child_present hb, retarget_address e a flags ha hm]

end

variable {f : BitVec 32} {s : Machine} {clear : Mem → ℕ → Mem} {p v : Word}

theorem map_pml4 {b : Bool} :
    (mapVirtualAddressToPhysicalAddress clear s v p f cr3 b).pml4 = s.pml4 := by
  have he : ∀ s t i f, (ensureTable clear s t i f).pml4 = s.pml4 := by
    intro s t i f
    unfold ensureTable
    split_ifs <;> rfl
  unfold mapVirtualAddressToPhysicalAddress
  split_ifs <;> simp only [setPml4, setLeaf, he]

theorem map_unaligned {b : Bool} (h : ¬ (Aligned v ∧ Aligned p)) :
    mapVirtualAddressToPhysicalAddress clear s v p f cr3 b = s := by
  unfold mapVirtualAddressToPhysicalAddress
  by_cases hv : Aligned v
  · have hp : ¬ Aligned p := fun hp => h ⟨hv,hp⟩
    rw [if_neg (not_not.mpr ((aligned_iff v).mpr hv)), if_pos (mt (aligned_iff p).mp hp)]
  · rw [if_pos (mt (aligned_iff v).mp hv)]

end PreemptiveOS.VirtMmgr
