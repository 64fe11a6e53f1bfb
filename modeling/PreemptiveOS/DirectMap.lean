import PreemptiveOS.BootReservations
import PreemptiveOS.FreshFrames

/-!
# The kernel's direct map

Boot hands the frames from the end of the kernel image up to `0x5000000` to
the allocator, while `init_setup_virtual_memory` fills three last-level
tables, for the first six megabytes. The first of them is in use when the
other two are written, so a boot returns only if it maps their frames. A
frame above the six megabytes is compared: some sequence of allocations
returns it, and the walk of its kernel address does not.
-/

set_option autoImplicit false

namespace PreemptiveOS.DirectMap
open ByteMemory PhysMmgr TableForest VirtMmgr PageTree
open BootReservations (prefixUsed stamp alloc_prefix)

def newTable (s : Machine) : Machine × Word :=
  if (alloc s).2 = 0 then alloc s
  else ({ (alloc s).1 with mem := clearTable s.mem (kernelAddr (alloc s).2) }, (alloc s).2)

def fillTable (table : Word) : ℕ → Word → Word → Mem → Mem
  | 0, _, _, m => m
  | n+1, virt, phys, m => fillTable table n (virt+4096) (phys+4096)
      (setEntry m table (getIndexOfPt virt)
        (((present ||| readWrite) &&& ~~~addressMask) ||| phys))

def linkTable (m : Mem) (table : Word) (i : Fin 512) (t flag flag' : Word) : Mem :=
  setEntry m table i (retarget (entry m table i) t flag ||| flag')

/-- What is written before the new tables are in use. -/
def firstTables (m : Mem) (pt pdt pdpt pml4 : Word) : Mem :=
  let m₁ := fillTable pt 512 0xFFFFFFFF80200000 0x200000 m
  let m₂ := linkTable m₁ pdt (getIndexOfPdt 0xFFFFFFFF80200000) pt present readWrite
  let m₃ := linkTable m₂ pdpt (getIndexOfPdpt 0xFFFFFFFF80200000) pdt present readWrite
  linkTable m₃ pml4 (getIndexOfPml4 0xFFFFFFFF80200000) pdpt readWrite present

/-- Where the machine finds the table at `t | KERNBASE`; an address that is
not mapped is a fault. -/
def translate (m : Mem) (pml4 t : Word) : Option Word :=
  (leaf m pml4 (t ||| kernbase)).bind (fun e =>
    if e &&& present = present then some ((e &&& addressMask) ||| (t &&& 4095)) else none)

/-- What is written after `set_pml4`, through the kernel's own addresses. -/
def otherTables (m : Mem) (pt2 pt3 pdt pml4 : Word) : Option Mem := do
  let pt2Virt ← translate m pml4 pt2
  let m₁ := fillTable pt2Virt 512 0xFFFFFFFF80000000 0 m
  let pdtVirt ← translate m₁ pml4 pdt
  let m₂ := linkTable m₁ pdtVirt (getIndexOfPdt 0xFFFFFFFF80000000) pt2 present readWrite
  let pt3Virt ← translate m₂ pml4 pt3
  let m₃ := fillTable pt3Virt 512 0xFFFFFFFF80400000 0x400000 m₂
  let pdtVirt' ← translate m₃ pml4 pdt
  some (linkTable m₃ pdtVirt' (getIndexOfPdt 0xFFFFFFFF80400000) pt3 present readWrite)

def initSetupVirtualMemory (s : Machine) : Option Machine :=
  let pt := newTable s
  if pt.2 = 0 then some pt.1
  else
    let pt2 := newTable pt.1
    if pt2.2 = 0 then some pt2.1
    else
      let pt3 := newTable pt2.1
      if pt3.2 = 0 then some pt3.1
      else
        let pdt := newTable pt3.1
        if pdt.2 = 0 then some pdt.1
        else
          let pdpt := newTable pdt.1
          if pdpt.2 = 0 then some pdpt.1
          else
            let pml4 := newTable pdpt.1
            if pml4.2 = 0 then some { pml4.1 with pml4 := 0 }
            else
              let m := firstTables pml4.1.mem pt.2 pdt.2 pdpt.2 pml4.2
              (otherTables m pt2.2 pt3.2 pdt.2 pml4.2).map (fun m' =>
                setPml4 { pml4.1 with pml4 := pml4.2, mem := m' } pml4.2)

/-- The records that fill whole pages of the array. -/
def wholePages (pages : List Page) : List Page := pages.take (256*(pages.length/256))

/-- The first table is put into the frame of the array's last page, which is
filled in part and not reserved. What becomes of the records there is left
open: they are `last`. -/
def booted (m : Mem) (physStart : Word) (last : List Page) : Option Machine :=
  initSetupVirtualMemory ⟨m,wholePages (defineFreeList physStart 0x5000000)++last,0,0,0⟩

def leafPresent (m : Mem) (cr3 v : Word) : Prop :=
  entry m (tableOf m (tableOf m (tableOf m cr3 (getIndexOfPml4 v)) (getIndexOfPdpt v))
    (getIndexOfPdt v)) (getIndexOfPt v) &&& present = present

def Covered (s : Machine) : Prop :=
  ∀ k, (physMemAlloc (allocs k s.pages)).2 ≠ 0 →
    walkPml4 s.mem s.pml4 ((physMemAlloc (allocs k s.pages)).2 ||| kernbase) =
      (physMemAlloc (allocs k s.pages)).2 ∧
    leafPresent s.mem s.pml4 ((physMemAlloc (allocs k s.pages)).2 ||| kernbase)

variable {base : Word} {last : List Page} {n k : ℕ}

/-- The first `k` of `n` whole-page records are in use, the others are not. -/
def Taken (base : Word) (last : List Page) (n k : ℕ) (pages : List Page) : Prop :=
  ∃ ps, pages = ps++last ∧ ps.map stamp = (prefixUsed base n k).map stamp

theorem taken_alloc {pages : List Page} (hk : k < n) (h : Taken base last n k pages) :
    Taken base last n (k+1) (physMemAlloc pages).1 ∧
      (physMemAlloc pages).2 = (initialPage base k).physAddrOfPage := by
  obtain ⟨ps,rfl,hs⟩ := h
  obtain ⟨hnext,haddr⟩ := alloc_prefix hk hs
  have happ : physMemAlloc (ps++last) = ((physMemAlloc ps).1++last,(physMemAlloc ps).2) := by
    rcases alloc_cases ps with ⟨hall,_⟩ | ⟨us,p,vs,rfl,hu,hp,he⟩
    · have hat := congrArg (fun ss => ss[k]?.map Prod.snd) hs
      simp only [List.getElem?_map, Option.map_map] at hat
      rw [BootReservations.prefixUsed_getElem?, if_pos hk] at hat
      obtain ⟨p,hp,hfree⟩ := Option.map_eq_some_iff.mp hat
      have hused := hall p (List.mem_of_getElem? hp)
      simp [stamp, hused] at hfree
    · rw [he, List.append_assoc, alloc_used_append _ hu]
      simp [physMemAlloc, physAddrOfFirstFreePage, hp]
  rw [happ]
  exact ⟨⟨_,rfl,hnext⟩,haddr⟩

theorem taken_returned {pages : List Page} {i : ℕ} (h : Taken base last n k pages) (hk : k ≤ i)
    (hi : i < n) :
    ∃ j, (physMemAlloc (allocs j pages)).2 = (initialPage base i).physAddrOfPage := by
  obtain ⟨ps,rfl,hs⟩ := h
  have hat := congrArg (fun ss => ss[i]?) hs
  simp only [List.getElem?_map] at hat
  rw [BootReservations.prefixUsed_getElem?, if_pos hi] at hat
  obtain ⟨p,hp,he⟩ := Option.map_eq_some_iff.mp hat
  simp only [stamp, Prod.mk.injEq, decide_eq_false_iff_not.mpr (by omega : ¬ i < k)] at he
  obtain ⟨hlt,rfl⟩ := List.getElem?_eq_some_iff.mp hp
  have hsplit : ps++last = ps.take i++ps[i]::(ps.drop (i+1)++last) := by
    rw [← List.cons_append, ← List.append_assoc, List.getElem_cons_drop, List.take_append_drop]
  rw [hsplit, ← he.1]
  exact unused_allocatable _ _ he.2

theorem define_taken (last : List Page) {physStart : Word} (h : physStart.toNat < 0x600000) :
    (physStart+0x1000).toNat = physStart.toNat+0x1000 ∧
    ∃ r, 73 ≤ r ∧ physStart.toNat+0x1000+4096*(256*r) ≤ 0x5000000 ∧
      0x4F00000 < physStart.toNat+0x1000+4096*(256*r) ∧
      Taken (physStart+0x1000) last (256*r) r
        (wholePages (defineFreeList physStart 0x5000000)++last) := by
  obtain ⟨hb,hdef⟩ := define_eq (show physStart.toNat+0x1000 ≤ (0x5000000 : Word).toNat by
    show physStart.toNat+0x1000 ≤ 0x5000000
    omega)
  refine ⟨hb,?_⟩
  have hn : ((0x5000000 : Word).toNat-(physStart.toNat+0x1000))/4096 =
      (0x5000000-(physStart.toNat+0x1000))/4096 := rfl
  rw [hn] at hdef
  generalize hN : (0x5000000-(physStart.toNat+0x1000))/4096 = n at hdef
  have hr : numPagesReserved n = n/256 := by
    rw [numPagesReserved_eq n (by omega)]
    omega
  refine ⟨n/256,by omega,by omega,by omega,_,rfl,?_⟩
  rw [hdef, initialize_eq, wholePages, List.length_map, List.length_range, ← List.map_take,
    List.take_range, hr, Nat.min_eq_left (by omega)]
  rfl

/-- The table at `T j`: the frames that are handed out at boot follow each other. -/
structure Row (T : ℕ → Word) : Prop where
  aligned : Aligned (T 0)
  place : ∀ j < 6, (T j).toNat = (T 0).toNat+4096*j
  low : (T 0).toNat+4096*6 ≤ 2^30

section
variable {T : ℕ → Word} (hT : Row T)
include hT

theorem row_aligned {j : ℕ} (hj : j < 6) : Aligned (T j) := by
  have h0 := hT.aligned
  have hp := hT.place j hj
  unfold Aligned at *
  omega

theorem row_lt {i j : ℕ} (hij : i < j) (hj : j < 6) : frameOf (T i) < frameOf (T j) := by
  have hi := hT.place i (by omega)
  have hp := hT.place j hj
  have hlow := hT.low
  exact frameOf_lt (row_aligned hT (by omega)) (row_aligned hT hj) (by omega) (by omega)

theorem row_ne {i j : ℕ} (h : i < 6 ∧ j < 6 ∧ i ≠ j) : frameOf (T i) ≠ frameOf (T j) := by
  rcases Nat.lt_or_gt_of_ne h.2.2 with hlt | hlt
  · exact (row_lt hT hlt h.2.1).ne
  · exact (row_lt hT hlt h.1).ne'

theorem row_masked {j : ℕ} (hj : j < 6) : T j &&& addressMask = T j := by
  have hp := hT.place j hj
  have hlow := hT.low
  exact aligned_masked _ (row_aligned hT hj) (by omega)

end

structure Prepared (T : ℕ → Word) (base : Word) (last : List Page) (n r j : ℕ) (s : Machine) :
    Prop where
  pages : Taken base last n (r+j) s.pages
  zero : Row T → ∀ i < j, ∀ e, tables s.mem (frameOf (T i)) e = 0

/-- The byte that is cleared behind a table is in the frame of the next one. -/
theorem newTable_prepared {T : ℕ → Word} {r j : ℕ} {s : Machine} (hn : r+6 ≤ n) (hj : j < 6)
    (hT : ∀ j < 6, T j = (initialPage base (r+j)).physAddrOfPage ∧ T j ≠ 0)
    (h : Prepared T base last n r j s) :
    Prepared T base last n r (j+1) (newTable s).1 ∧ (newTable s).2 = T j ∧ T j ≠ 0 := by
  obtain ⟨haddr,hz⟩ := hT j hj
  obtain ⟨hpages,hnew⟩ := taken_alloc (by omega : r+j < n) h.pages
  have ha : (alloc s).2 = T j := hnew.trans haddr.symm
  rw [newTable, if_neg (ha ▸ hz), ha]
  refine ⟨⟨hpages,?_⟩,rfl,hz⟩
  intro hrow i hi e
  show tables (clearTable s.mem (kernelAddr (T j))) _ _ = 0
  rw [kernelAddr_aligned _ (row_aligned hrow hj)]
  by_cases hij : i = j
  · rw [hij]
    exact clears_memset.zero _ _ (frameOf_pos _) e
  · have hlt := row_lt hrow (by omega : i < j) hj
    rw [clears_memset.apart _ _ _ (frameOf_pos _) (Or.inl hlt)]
    exact h.zero hrow i (by omega) e

theorem init_setup {T : ℕ → Word} {r : ℕ} {s : Machine} (hn : r+6 ≤ n)
    (hT : ∀ j < 6, T j = (initialPage base (r+j)).physAddrOfPage ∧ T j ≠ 0)
    (h : Prepared T base last n r 0 s) :
    ∃ s', Prepared T base last n r 6 s' ∧ initSetupVirtualMemory s =
      (otherTables (firstTables s'.mem (T 0) (T 3) (T 4) (T 5)) (T 1) (T 2) (T 3) (T 5)).map
        (fun m => setPml4 { s' with pml4 := T 5, mem := m } (T 5)) := by
  obtain ⟨h₁,t₁,z₁⟩ := newTable_prepared hn (by decide) hT h
  obtain ⟨h₂,t₂,z₂⟩ := newTable_prepared hn (by decide) hT h₁
  obtain ⟨h₃,t₃,z₃⟩ := newTable_prepared hn (by decide) hT h₂
  obtain ⟨h₄,t₄,z₄⟩ := newTable_prepared hn (by decide) hT h₃
  obtain ⟨h₅,t₅,z₅⟩ := newTable_prepared hn (by decide) hT h₄
  obtain ⟨h₆,t₆,z₆⟩ := newTable_prepared hn (by decide) hT h₅
  refine ⟨_,h₆,?_⟩
  rw [initSetupVirtualMemory]
  simp only [t₁, t₂, t₃, t₄, t₅, t₆, if_neg z₁, if_neg z₂, if_neg z₃, if_neg z₄, if_neg z₅,
    if_neg z₆]

theorem link_other (m : Mem) {table : Word} (ht : Aligned table) {i : Fin 512} {t f g : Word}
    {u : ℕ} {j : Fin 512} (h : u ≠ frameOf table ∨ j ≠ i) :
    tables (linkTable m table i t f g) u j = tables m u j := by
  rw [linkTable, tables_setEntry _ _ _ _ ht, put_other _ _ h]

theorem link_child {m : Mem} {table : Word} {i : Fin 512} {t : Word} {f g : Word}
    (ht : Aligned table) (ht' : t &&& addressMask = t) (hfg : (f ||| g) &&& addressMask = 0)
    (hp : (f ||| g) &&& present = present) :
    child (tables (linkTable m table i t f g) (frameOf table) i) = some (frameOf t) := by
  have hor : ∀ e, retarget e t f ||| g = retarget e t (f ||| g) := by
    intro e
    unfold retarget
    rw [BitVec.or_assoc]
  rw [linkTable, tables_setEntry _ _ _ _ ht, put_same, hor]
  exact retarget_child _ t (f ||| g) ht' hfg hp

theorem fill_other {table : Word} (ht : Aligned table) {n : ℕ} (virt phys : Word) (m : Mem)
    {u : ℕ} (hu : u ≠ frameOf table) (j : Fin 512) :
    tables (fillTable table n virt phys m) u j = tables m u j := by
  induction n generalizing virt phys m with
  | zero => rfl
  | succ n ih =>
    rw [fillTable, ih, tables_setEntry _ _ _ _ ht, put_other _ _ (Or.inl hu)]

/-- The distance of an entry from the one that is filled first. -/
def behind (virt : Word) (j : Fin 512) : ℕ := (j.val+(512-virt.toNat/4096%512))%512

theorem behind_next (virt : Word) (j : Fin 512) :
    behind (virt+4096) j = (behind virt j+511)%512 := by
  unfold behind
  rw [BitVec.toNat_add]
  show (j.val+(512-(virt.toNat+4096)%2^64/4096%512))%512 = _
  omega

theorem behind_zero (virt : Word) (j : Fin 512) : behind virt j = 0 ↔ j = getIndexOfPt virt := by
  rw [Fin.ext_iff, getIndexOfPt, indexAt_val, behind]
  have hj := j.isLt
  omega

theorem fill_at {table : Word} (ht : Aligned table) (hn : n ≤ 512) (virt phys : Word) (m : Mem)
    (j : Fin 512) : tables (fillTable table n virt phys m) (frameOf table) j =
      if behind virt j < n then
        retarget (present ||| readWrite) (phys+BitVec.ofNat 64 (4096*behind virt j)) 0
      else tables m (frameOf table) j := by
  induction n generalizing virt phys m with
  | zero => rfl
  | succ n ih =>
    have hb : behind virt j < 512 := Nat.mod_lt _ (by decide)
    rw [fillTable, ih (by omega), behind_next, tables_setEntry _ _ _ _ ht]
    by_cases h0 : behind virt j = 0
    · rw [h0, (behind_zero virt j).mp h0, put_same, if_neg (by omega), if_pos (by omega)]
      simp [retarget]
    · have hj : j ≠ getIndexOfPt virt := mt (behind_zero virt j).mpr h0
      obtain ⟨d,hd⟩ : ∃ d, behind virt j = d+1 := ⟨behind virt j-1,by omega⟩
      have hphys : phys+4096+BitVec.ofNat 64 (4096*d) = phys+BitVec.ofNat 64 (4096*(d+1)) := by
        rw [Nat.mul_succ, BitVec.ofNat_add, BitVec.add_assoc, BitVec.add_comm 4096]
        rfl
      rw [hd, show (d+1+511)%512 = d by omega, put_other _ _ (Or.inr hj), hphys]
      simp only [Nat.add_lt_add_iff_right]

/-- The first table is linked and maps the frames from `0x200000` on; the
directory has no entry above the three that are filled. -/
structure Linked (m : Mem) (T : ℕ → Word) : Prop where
  top : child (tables m (frameOf (T 5)) 511) = some (frameOf (T 4))
  pointers : child (tables m (frameOf (T 4)) 510) = some (frameOf (T 3))
  directory : child (tables m (frameOf (T 3)) 1) = some (frameOf (T 0))
  pages : ∀ j : Fin 512, tables m (frameOf (T 0)) j =
    retarget (present ||| readWrite) (0x200000+BitVec.ofNat 64 (4096*j)) 0
  above : ∀ j, 2 < j → tables m (frameOf (T 3)) j = 0

section
variable {T : ℕ → Word} {m : Mem}

theorem linked_congr {m' : Mem} (h : Linked m T)
    (hother : ∀ i, i = 0 ∨ i = 4 ∨ i = 5 → ∀ j,
      tables m' (frameOf (T i)) j = tables m (frameOf (T i)) j)
    (hdir : ∀ j, j ≠ 0 → j ≠ 2 → tables m' (frameOf (T 3)) j = tables m (frameOf (T 3)) j) :
    Linked m' T := by
  obtain ⟨htop,hpointers,hdirectory,hpages,habove⟩ := h
  constructor
  · rwa [hother 5 (by decide)]
  · rwa [hother 4 (by decide)]
  · rwa [hdir 1 (by decide) (by decide)]
  · intro j
    rw [hother 0 (by decide), hpages]
  · intro j hj
    have h0 : j ≠ 0 := by rintro rfl; exact absurd hj (by decide)
    have h2 : j ≠ 2 := by rintro rfl; exact absurd hj (by decide)
    rw [hdir j h0 h2, habove j hj]

theorem kernel_path {t : Word} (ht : t.toNat < 2^30) :
    getIndexOfPml4 (t ||| kernbase) = 511 ∧ getIndexOfPdpt (t ||| kernbase) = 510 ∧
    (getIndexOfPdt (t ||| kernbase)).val = t.toNat/2^21 ∧
    (getIndexOfPt (t ||| kernbase)).val = t.toNat/4096%512 := by
  have hk : (t ||| kernbase).toNat = kernbase.toNat+t.toNat%2^31 := kernelAddr_eq t
  have hb : kernbase.toNat = 2^64-2^31 := by decide
  simp only [Fin.ext_iff, getIndexOfPml4, getIndexOfPdpt, getIndexOfPdt, getIndexOfPt, indexAt_val,
    hk, hb]
  refine ⟨?_,?_,?_,?_⟩
  · show _ = 511
    omega
  · show _ = 510
    omega
  · omega
  · omega

theorem linked_leaf (h : Linked m T) {t : Word} (ht : t.toNat < 2^30) :
    leaf m (T 5) (t ||| kernbase) =
      (child (tables m (frameOf (T 3)) (getIndexOfPdt (t ||| kernbase)))).map
        (fun pt => tables m pt (getIndexOfPt (t ||| kernbase))) := by
  obtain ⟨h₄,h₃,_,_⟩ := kernel_path ht
  rw [leaf, entryAt, upperPath, h₄, h₃, descend, h.top, Option.bind_some, descend, h.pointers,
    Option.bind_some, descend]
  cases child (tables m (frameOf (T 3)) (getIndexOfPdt (t ||| kernbase))) <;> rfl

theorem translate_zero (h : Linked m T) {t : Word} (ht : t.toNat < 2^30)
    (hz : ∀ j : Fin 512, j.val = t.toNat/2^21 → tables m (frameOf (T 3)) j = 0) :
    leaf m (T 5) (t ||| kernbase) = none := by
  rw [linked_leaf h ht, hz _ (kernel_path ht).2.2.1, child_absent (by decide)]
  rfl

theorem translate_window (h : Linked m T) {t : Word} (hal : Aligned t) (hlow : 0x200000 ≤ t.toNat)
    (hhigh : t.toNat < 0x400000) : translate m (T 5) t = some t := by
  obtain ⟨_,_,h₂,h₁⟩ := kernel_path (by omega : t.toNat < 2^30)
  have hdir : getIndexOfPdt (t ||| kernbase) = 1 := by
    rw [Fin.ext_iff, h₂]
    show t.toNat/2^21 = 1
    omega
  unfold Aligned at hal
  have hpage : 0x200000+BitVec.ofNat 64 (4096*(getIndexOfPt (t ||| kernbase)).val) = t := by
    apply BitVec.eq_of_toNat_eq
    rw [BitVec.toNat_add, BitVec.toNat_ofNat, h₁]
    show (0x200000+4096*(t.toNat/4096%512)%2^64)%2^64 = t.toNat
    omega
  have hmask := aligned_masked t hal (by omega)
  rw [translate, linked_leaf h (by omega), hdir, h.directory, Option.map_some, Option.bind_some,
    h.pages, hpage, retarget_bits _ _ _ hmask (by decide), if_pos (by decide),
    retarget_address _ _ _ hmask (by decide), (aligned_iff t).mpr hal]
  simp

end

section
variable {T : ℕ → Word} {m : Mem} (hT : Row T)
include hT

theorem firstTables_linked (hz : ∀ i < 6, ∀ e, tables m (frameOf (T i)) e = 0) :
    Linked (firstTables m (T 0) (T 3) (T 4) (T 5)) T ∧
    ∀ j, j ≠ 1 → tables (firstTables m (T 0) (T 3) (T 4) (T 5)) (frameOf (T 3)) j = 0 := by
  have i₄ : getIndexOfPml4 0xFFFFFFFF80200000 = 511 := by decide
  have i₃ : getIndexOfPdpt 0xFFFFFFFF80200000 = 510 := by decide
  have i₂ : getIndexOfPdt 0xFFFFFFFF80200000 = 1 := by decide
  have a₀ := row_aligned hT (by decide : 0 < 6)
  have a₃ := row_aligned hT (by decide : 3 < 6)
  have a₄ := row_aligned hT (by decide : 4 < 6)
  have a₅ := row_aligned hT (by decide : 5 < 6)
  have hdir : ∀ j, j ≠ 1 →
      tables (firstTables m (T 0) (T 3) (T 4) (T 5)) (frameOf (T 3)) j = 0 := by
    intro j hj
    rw [firstTables, i₄, i₃, i₂]
    rw [link_other _ a₅ (Or.inl (row_ne hT (by decide))),
      link_other _ a₄ (Or.inl (row_ne hT (by decide))),
      link_other _ a₃ (Or.inr hj),
      fill_other a₀ _ _ _ (row_ne hT (by decide)), hz 3 (by decide)]
  refine ⟨?_,hdir⟩
  constructor
  case top =>
    rw [firstTables, i₄]
    exact link_child a₅ (row_masked hT (by decide)) (by decide) (by decide)
  case pointers =>
    rw [firstTables, i₃]
    rw [link_other _ a₅ (Or.inl (row_ne hT (by decide)))]
    exact link_child a₄ (row_masked hT (by decide)) (by decide) (by decide)
  case directory =>
    rw [firstTables, i₂]
    rw [link_other _ a₅ (Or.inl (row_ne hT (by decide))),
      link_other _ a₄ (Or.inl (row_ne hT (by decide)))]
    exact link_child a₃ (row_masked hT (by decide)) (by decide) (by decide)
  case pages =>
    intro j
    have hb : behind 0xFFFFFFFF80200000 j = j.val := by
      rw [behind, show (0xFFFFFFFF80200000 : Word).toNat/4096%512 = 0 by decide]
      have hj := j.isLt
      omega
    rw [firstTables]
    rw [link_other _ a₅ (Or.inl (row_ne hT (by decide))),
      link_other _ a₄ (Or.inl (row_ne hT (by decide))),
      link_other _ a₃ (Or.inl (row_ne hT (by decide))),
      fill_at a₀ le_rfl, hb, if_pos j.isLt]
  case above =>
    intro j hj
    exact hdir j (by rintro rfl; exact absurd hj (by decide))

theorem fill_linked (h : Linked m T) {i : ℕ} (hi : i = 1 ∨ i = 2) (virt phys : Word) :
    Linked (fillTable (T i) 512 virt phys m) T ∧ ∀ j,
      tables (fillTable (T i) 512 virt phys m) (frameOf (T 3)) j = tables m (frameOf (T 3)) j := by
  have hal := row_aligned hT (by omega : i < 6)
  have hother : ∀ u, u < 6 → u ≠ i → ∀ j,
      tables (fillTable (T i) 512 virt phys m) (frameOf (T u)) j = tables m (frameOf (T u)) j := by
    intro u hu hne j
    exact fill_other hal virt phys m (row_ne hT ⟨hu,by omega,hne⟩) j
  refine ⟨linked_congr h ?_ ?_,hother 3 (by decide) (by omega)⟩
  · intro u hu
    exact hother u (by omega) (by omega)
  · intro j _ _
    exact hother 3 (by decide) (by omega) j

theorem link_linked (h : Linked m T) {i : Fin 512} (hi : i = 0 ∨ i = 2) (t : Word) :
    Linked (linkTable m (T 3) i t present readWrite) T := by
  have hal := row_aligned hT (by decide : 3 < 6)
  refine linked_congr h ?_ ?_
  · intro u hu j
    exact link_other m hal (Or.inl (row_ne hT (by omega)))
  · intro j h0 h2
    refine link_other m hal (Or.inr ?_)
    rintro rfl
    tauto

/-- The other tables are reached exactly when the first one maps their frames. -/
theorem otherTables_linked (h : Linked m T) (hlow : 0x200000 ≤ (T 1).toNat)
    (hhigh : (T 3).toNat < 0x400000) :
    ∃ m', otherTables m (T 1) (T 2) (T 3) (T 5) = some m' ∧ Linked m' T := by
  have p₁ := hT.place 1 (by decide)
  have p₂ := hT.place 2 (by decide)
  have p₃ := hT.place 3 (by decide)
  have hwin : ∀ i, i = 1 ∨ i = 2 ∨ i = 3 → ∀ m, Linked m T →
      translate m (T 5) (T i) = some (T i) := by
    intro i hi m hm
    have hp := hT.place i (by omega)
    exact translate_window hm (row_aligned hT (by omega)) (by omega) (by omega)
  have i₀ : getIndexOfPdt 0xFFFFFFFF80000000 = 0 := by decide
  have i₂ : getIndexOfPdt 0xFFFFFFFF80400000 = 2 := by decide
  have h₁ := (fill_linked hT h (Or.inl rfl) 0xFFFFFFFF80000000 0).1
  have h₂ := link_linked hT h₁ (Or.inl rfl) (T 1)
  have h₃ := (fill_linked hT h₂ (Or.inr rfl) 0xFFFFFFFF80400000 0x400000).1
  refine ⟨_,?_,link_linked hT h₃ (Or.inr rfl) (T 2)⟩
  simp only [otherTables, i₀, i₂, hwin 1 (by decide) _ h, hwin 3 (by decide) _ h₁,
    hwin 2 (by decide) _ h₂, hwin 3 (by decide) _ h₃, Option.bind_eq_bind, Option.bind_some]

theorem otherTables_fault (h : Linked m T)
    (hz : ∀ j, j ≠ 1 → tables m (frameOf (T 3)) j = 0)
    (hout : ¬ (0x200000 ≤ (T 1).toNat ∧ (T 3).toNat < 0x400000)) :
    otherTables m (T 1) (T 2) (T 3) (T 5) = none := by
  have p₁ := hT.place 1 (by decide)
  have p₃ := hT.place 3 (by decide)
  have hlow := hT.low
  have hfault : ∀ i, i = 1 ∨ i = 3 → ∀ m, Linked m T →
      (∀ j, j ≠ 1 → tables m (frameOf (T 3)) j = 0) →
      ¬ (0x200000 ≤ (T i).toNat ∧ (T i).toNat < 0x400000) → translate m (T 5) (T i) = none := by
    intro i hi m hm hz hw
    have hp := hT.place i (by omega)
    rw [translate, translate_zero hm (by omega), Option.bind_none]
    intro j hj
    refine hz j ?_
    rintro rfl
    rw [show (1 : Fin 512).val = 1 from rfl] at hj
    omega
  by_cases hw : 0x200000 ≤ (T 1).toNat ∧ (T 1).toNat < 0x400000
  · have hpt2 := translate_window h (row_aligned hT (by decide)) hw.1 hw.2
    obtain ⟨h₁,hkeep⟩ := fill_linked hT h (Or.inl rfl) 0xFFFFFFFF80000000 0
    have hpdt := hfault 3 (by decide) _ h₁ (fun j hj => (hkeep j).trans (hz j hj)) (by omega)
    simp only [otherTables, hpt2, hpdt, Option.bind_eq_bind, Option.bind_some, Option.bind_none]
  · simp only [otherTables, hfault 1 (by decide) m h hz hw, Option.bind_eq_bind, Option.bind_none]

end

theorem linked_walk {T : ℕ → Word} {m : Mem} (h : Linked m T) (hal : Aligned (T 5)) {t : Word}
    (hlow : 0x600000 ≤ t.toNat) (ht : t.toNat < 2^30) :
    walkPml4 m (T 5) (t ||| kernbase) = -1 := by
  rw [walk_eq _ _ hal, translate_zero h ht]
  · rfl
  · intro j hj
    refine h.above j ?_
    show 2 < j.val
    omega

theorem walk_aligned (m : Mem) (cr3 v : Word) :
    walkPml4 m cr3 v = -1 ∨ Aligned (walkPml4 m cr3 v) := by
  unfold walkPml4
  dsimp only
  split_ifs
  · exact Or.inl rfl
  · exact Or.inl rfl
  · exact Or.inl rfl
  · exact Or.inr (masked_aligned _)

theorem booted_setup (m : Mem) (last : List Page) {physStart : Word}
    (h : physStart.toNat < 0x600000) :
    ∃ (T : ℕ → Word) (r : ℕ) (s' : Machine), 73 ≤ r ∧
      physStart.toNat+0x1000+4096*(256*r) ≤ 0x5000000 ∧
      0x4F00000 < physStart.toNat+0x1000+4096*(256*r) ∧
      (∀ i < 256*r, (initialPage (physStart+0x1000) i).physAddrOfPage.toNat =
        physStart.toNat+0x1000+4096*i) ∧
      (T 0).toNat = physStart.toNat+0x1000+4096*r ∧ (Aligned physStart → Row T) ∧
      Prepared T (physStart+0x1000) last (256*r) r 6 s' ∧
      booted m physStart last =
        (otherTables (firstTables s'.mem (T 0) (T 3) (T 4) (T 5)) (T 1) (T 2) (T 3) (T 5)).map
          (fun m => setPml4 { s' with pml4 := T 5, mem := m } (T 5)) := by
  obtain ⟨hb,r,hr,hend,hmost,htaken⟩ := define_taken last h
  have haddr : ∀ i < 256*r, (initialPage (physStart+0x1000) i).physAddrOfPage.toNat =
      physStart.toNat+0x1000+4096*i := by
    intro i hi
    rw [initial_address _ i (by omega) (by omega), hb, Nat.mul_comm i]
  have hT : ∀ j < 6, (initialPage (physStart+0x1000) (r+j)).physAddrOfPage ≠ 0 := by
    intro j hj h0
    have hat := haddr (r+j) (by omega)
    rw [h0, show (0 : Word).toNat = 0 from rfl] at hat
    omega
  obtain ⟨s',hs',hset⟩ := init_setup
    (T := fun j => (initialPage (physStart+0x1000) (r+j)).physAddrOfPage)
    (s := ⟨m,wholePages (defineFreeList physStart 0x5000000)++last,0,0,0⟩) (by omega)
    (fun j hj => ⟨rfl,hT j hj⟩) ⟨htaken,fun _ i hi => absurd hi (by omega)⟩
  refine ⟨_,r,s',hr,hend,hmost,haddr,haddr r (by omega),?_,hs',hset⟩
  intro hal
  have h0 := haddr (r+0) (by omega)
  unfold Aligned at hal
  constructor
  · show _ % 4096 = 0
    rw [h0]
    omega
  · intro j hj
    rw [haddr (r+j) (by omega), h0]
    omega
  · rw [h0]
    omega

/-- Which boots get through: the frames of the tables have to be in the two
megabytes that the first table maps. -/
theorem booted_returns_iff (m : Mem) (last : List Page) {physStart : Word}
    (h : physStart.toNat < 0x600000) (hal : Aligned physStart) :
    (∃ s, booted m physStart last = some s) ↔
      0x1B0000 ≤ physStart.toNat ∧ physStart.toNat < 0x3B0000 := by
  obtain ⟨T,r,s',hr,hend,hmost,_,h0,hrow,hs',hset⟩ := booted_setup m last h
  have hT := hrow hal
  obtain ⟨hlinked,hzero⟩ := firstTables_linked hT (hs'.zero hT)
  have p₁ := hT.place 1 (by decide)
  have p₃ := hT.place 3 (by decide)
  unfold Aligned at hal
  rw [hset]
  by_cases hw : 0x200000 ≤ (T 1).toNat ∧ (T 3).toNat < 0x400000
  · obtain ⟨m',hm',_⟩ := otherTables_linked hT hlinked hw.1 hw.2
    rw [hm']
    exact iff_of_true ⟨_,rfl⟩ (by omega)
  · rw [otherTables_fault hT hlinked hzero hw]
    exact iff_of_false (by simp) (by omega)

theorem booted_pages {m : Mem} {physStart : Word} {s : Machine} (h : physStart.toNat < 0x600000)
    (hs : booted m physStart last = some s) :
    ∃ r, 73 ≤ r ∧ physStart.toNat+0x1000+4096*(256*r) ≤ 0x5000000 ∧
      0x4F00000 < physStart.toNat+0x1000+4096*(256*r) ∧
      (∀ i, r+6 ≤ i → i < 256*r → ∃ k, (physMemAlloc (allocs k s.pages)).2.toNat =
        physStart.toNat+0x1000+4096*i) ∧
      (Aligned physStart → ∀ t : Word, 0x600000 ≤ t.toNat → t.toNat < 2^30 →
        walkPml4 s.mem s.pml4 (t ||| kernbase) = -1) := by
  obtain ⟨T,r,s',hr,hend,hmost,haddr,_,hrow,hs',hset⟩ := booted_setup m last h
  obtain ⟨m',hm',rfl⟩ := Option.map_eq_some_iff.mp (hset.symm.trans hs)
  refine ⟨r,hr,hend,hmost,?_,?_⟩
  · intro i hk hi
    obtain ⟨k,hreturned⟩ := taken_returned hs'.pages hk hi
    exact ⟨k,(congrArg BitVec.toNat hreturned).trans (haddr i hi)⟩
  · intro hal t hlow ht
    have hT := hrow hal
    obtain ⟨hlinked,hzero⟩ := firstTables_linked hT (hs'.zero hT)
    by_cases hw : 0x200000 ≤ (T 1).toNat ∧ (T 3).toNat < 0x400000
    · obtain ⟨m'',he,hl⟩ := otherTables_linked hT hlinked hw.1 hw.2
      obtain rfl : m'' = m' := Option.some.inj (he.symm.trans hm')
      exact linked_walk hl (row_aligned hT (by decide)) hlow ht
    · rw [otherTables_fault hT hlinked hzero hw] at hm'
      cases hm'

/-- Whatever memory the machine starts with, wherever the kernel image ends
below `0x600000` and whatever the last records of the array become, the direct
map misses a frame that the allocator hands out. -/
theorem direct_map_incomplete (m : Mem) (physStart : Word) (last : List Page) (s : Machine)
    (h : physStart.toNat < 0x600000) (hs : booted m physStart last = some s) : ¬ Covered s := by
  obtain ⟨r,hr,hend,hmost,hreturned,hwalk⟩ := booted_pages h hs
  obtain ⟨k,hk⟩ := hreturned (256*r-1) (by omega) (by omega)
  intro hcov
  have hne : (physMemAlloc (allocs k s.pages)).2 ≠ 0 := by
    intro h0
    rw [h0, show (0 : Word).toNat = 0 from rfl] at hk
    omega
  obtain ⟨hmap,-⟩ := hcov k hne
  by_cases hal : Aligned physStart
  · rw [hwalk hal _ (by omega) (by omega)] at hmap
    rw [← hmap, show (-1 : Word).toNat = 2^64-1 from rfl] at hk
    omega
  · -- an address that is not aligned is not the result of a walk
    rcases walk_aligned s.mem s.pml4 ((physMemAlloc (allocs k s.pages)).2 ||| kernbase) with hw | hw
    · rw [← hmap, hw, show (-1 : Word).toNat = 2^64-1 from rfl] at hk
      omega
    · rw [hmap] at hw
      unfold Aligned at hw hal
      omega

/-- The records of the array's last page, read from the first page table. -/
def overwritten : List Page := (List.range 255).map (fun j =>
  ⟨0x200003+BitVec.ofNat 64 (8192*j),0x201003+BitVec.ofNat 32 (8192*j),false⟩)

theorem direct_map_incomplete_image : (0x300000 : Word).toNat < 0x600000 ∧
    ∃ s, booted (fun _ => 0) 0x300000 overwritten = some s ∧ ¬ Covered s := by
  have h : (0x300000 : Word).toNat < 0x600000 := by decide
  obtain ⟨s,hs⟩ := (booted_returns_iff (fun _ => 0) overwritten h (by decide)).mpr (by decide)
  exact ⟨h,s,hs,direct_map_incomplete _ _ _ s h hs⟩

/-- The first frame above the six megabytes. -/
theorem direct_map_misses_frame : ∃ s k, booted (fun _ => 0) 0x300000 overwritten = some s ∧
    (physMemAlloc (allocs k s.pages)).2 = 0x600000 ∧
    walkPml4 s.mem s.pml4 (0x600000 ||| kernbase) = -1 := by
  have h : (0x300000 : Word).toNat < 0x600000 := by decide
  obtain ⟨s,hs⟩ := (booted_returns_iff (fun _ => 0) overwritten h (by decide)).mpr (by decide)
  obtain ⟨r,_,hend,hmost,hreturned,hwalk⟩ := booted_pages h hs
  rw [show (0x300000 : Word).toNat = 0x300000 from rfl] at *
  obtain ⟨k,hk⟩ := hreturned 767 (by omega) (by omega)
  exact ⟨s,k,hs,BitVec.eq_of_toNat_eq hk,hwalk (by decide) _ (by decide) (by decide)⟩

end PreemptiveOS.DirectMap
