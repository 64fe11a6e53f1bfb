import PreemptiveOS.FrameCounts
import PreemptiveOS.TableCopies

/-!
# What is freed with an address space

The calls of `phys_mem_free` that `free_page_range` makes, one after the other. The
two upper levels visit present entries, the kernel's among them, and free the
tables behind them once for every entry that is left. The two lower levels visit
entries that are not present, so that pages and last-level tables are not freed.
-/

set_option autoImplicit false

namespace PreemptiveOS.TableRelease
open ByteMemory PhysMmgr TableForest VirtMmgr PageTree FreshFrames Ownership Vmas AddressSpaces
open EntryCounts FrameCounts TableCopies

def callRound (m : Mem) (next : Word → List Word) (level : ℕ) (table : Word)
    (st : Word × List Word) (i : Fin 512) : Word × List Word :=
  let e := entry m table i
  let st' :=
    if visits level e then
      let addr := e &&& addressMask
      if level = 1 then ((kernelPtr addr).val,st.2++[(kernelPtr addr).val])
      else (addr,st.2++next addr)
    else st
  if st'.1 = 0 then st' else (st'.1,st'.2++[(kernelPtr st'.1).val])

def freeCalls (m : Mem) : ℕ → Word → List Word
  | 0, _ => []
  | level+1, table =>
    ((List.finRange 512).foldl (callRound m (freeCalls m level) (level+1) table) (0,[])).2

def freeAll (calls : List Word) (pages : List Page) : List Page :=
  calls.foldl (fun pages a => physMemFree a pages) pages

theorem freeAll_append (calls calls' : List Word) (pages : List Page) :
    freeAll (calls++calls') pages = freeAll calls' (freeAll calls pages) := List.foldl_append

theorem round_calls (m : Mem) {next : Word → List Page → List Page} {calls : Word → List Word}
    (hnext : ∀ a pages, next a pages = freeAll (calls a) pages) (level : ℕ) (table addr : Word)
    (log : List Word) (pages : List Page) (i : Fin 512) :
    freeRound m next level table (addr,freeAll log pages) i =
      ((callRound m calls level table (addr,log) i).1,
        freeAll (callRound m calls level table (addr,log) i).2 pages) := by
  have hone : ∀ a ps, freeAll [a] ps = physMemFree a ps := fun _ _ => rfl
  rw [freeRound, callRound]
  dsimp only
  split_ifs <;> simp only [hone, hnext, freeAll_append]

theorem freePageRange_calls (m : Mem) (level : ℕ) (table : Word) (pages : List Page) :
    freePageRange m level table pages = freeAll (freeCalls m level table) pages := by
  induction level generalizing table pages with
  | zero => rfl
  | succ level ih =>
    have hrounds : ∀ (is : List (Fin 512)) (addr : Word) (log : List Word),
        is.foldl (freeRound m (freePageRange m level) (level+1) table) (addr,freeAll log pages) =
          ((is.foldl (callRound m (freeCalls m level) (level+1) table) (addr,log)).1,
            freeAll (is.foldl (callRound m (freeCalls m level) (level+1) table) (addr,log)).2
              pages) := by
      intro is
      induction is with
      | nil => exact fun _ _ => rfl
      | cons i is ihs =>
        intro addr log
        rw [List.foldl_cons, List.foldl_cons, round_calls m ih]
        exact ihs _ _
    rw [freePageRange, freeCalls]
    generalize List.finRange 512 = is
    exact congrArg Prod.snd (hrounds is 0 [])

def releases (m : Mem) (cr3 : Word) (u : ℕ) : ℕ :=
  (freeCalls m 4 cr3).countP (fun a => frameOf a = u)

structure ReleasedOnce (s : Machine) (cr3 : Word) : Prop where
  pages : ∀ a, a ≠ 0 → 0 < entries s.mem [cr3] a →
    releases s.mem cr3 (frameOf a) = entries s.mem [cr3] a
  tables : ∀ p u, UserPath p → p ≠ [] → descend child (tables s.mem) (frameOf cr3) p = some u →
    releases s.mem cr3 u = 1
  kernel : ∀ p u, p.length ≤ 3 → p ≠ [] →
    descend child (VirtMmgr.tables s.mem) (frameOf s.pml4) p = some u → releases s.mem cr3 u = 0

structure KernelHalf (s : Machine) : Prop where
  present : tables s.mem (frameOf s.pml4) 511 &&& present = present
  table : tables s.mem (frameOf s.pml4) 511 &&& addressMask ≠ 0

variable {is : List (Fin 512)}

section
variable (m : Mem) (next : Word → List Word) (level : ℕ) (table : Word)

theorem round_grows (st : Word × List Word) (i : Fin 512) (a : Word) (ha : a ∈ st.2) :
    a ∈ (callRound m next level table st i).2 := by
  rw [callRound]
  dsimp only
  split_ifs <;> simp [ha]

theorem rounds_grow (is : List (Fin 512)) (st : Word × List Word) (a : Word) (ha : a ∈ st.2) :
    a ∈ (is.foldl (callRound m next level table) st).2 := by
  induction is generalizing st with
  | nil => exact ha
  | cons i is ih => exact ih _ (round_grows m next level table st i a ha)

variable (hlevel : level ≠ 1) (i : Fin 512) (hv : visits level (entry m table i) = true)
  (ha : entry m table i &&& addressMask ≠ 0)
include hlevel hv ha

theorem round_frees (st : Word × List Word) :
    (kernelPtr (entry m table i &&& addressMask)).val ∈
      (callRound m next level table st i).2 := by
  rw [callRound]
  dsimp only
  rw [if_pos hv, if_neg hlevel, if_neg ha]
  simp

theorem rounds_free (hi : i ∈ is) (st : Word × List Word) :
    (kernelPtr (entry m table i &&& addressMask)).val ∈
      (is.foldl (callRound m next level table) st).2 := by
  induction is generalizing st with
  | nil => cases hi
  | cons k is ih =>
    rcases List.mem_cons.mp hi with rfl | hi
    · exact rounds_grow m next level table is _ _ (round_frees m next level table hlevel i hv ha st)
    · exact ih hi _

end

variable {a : Word}

theorem frameOf_alias : frameOf (kernelPtr a).val = frameOf a := by
  rw [frameOf, frameOf, kernelAddr, kernelAddr, kernelPtr, BitVec.or_assoc, BitVec.or_self]

variable {roots : List Word} {s : Machine} {margin : ℕ} {kernel : ℕ → Prop}

theorem kernel_descend (h : Coherent kernel margin roots s) (hk : KernelHalf s) :
    descend child (tables s.mem) (frameOf s.pml4) [511] =
      some (frameOf (tableOf s.mem s.pml4 511)) := by
  rw [descend, child_present hk.present, tableOf_eq _ _ h.aligned]
  rfl

variable {cr3 : Word}

/-- The table that the kernel's entry leads to is freed with every address space. -/
theorem kernel_table_released (h : Coherent kernel margin roots s) (hk : KernelHalf s)
    (hr : cr3 ∈ roots) : 0 < releases s.mem cr3 (frameOf (tableOf s.mem s.pml4 511)) := by
  have hal := (h.window cr3 hr).1
  have hentry : entry s.mem cr3 511 = tables s.mem (frameOf s.pml4) 511 := by
    rw [entry_eq _ _ hal, h.shared cr3 hr]
  have hv : visits 4 (entry s.mem cr3 511) = true := by
    apply decide_eq_true
    rw [if_pos (by decide), hentry]
    refine ⟨fun hz => hk.table ?_,hk.present⟩
    rw [hz]
    rfl
  apply List.countP_pos_iff.mpr
  refine ⟨_,rounds_free s.mem (freeCalls s.mem 3) 4 cr3 (by decide) 511 hv (hentry ▸ hk.table)
    (List.mem_finRange _) (0,[]),?_⟩
  rw [frameOf_alias, hentry, tableOf_eq _ _ h.aligned]
  simp

/-- No address space is released exactly once. -/
theorem release_never_exact {kernel : ℕ → Prop} {margin : ℕ} {roots : List Word} {s : Machine}
    (h : Coherent kernel margin roots s) (hk : KernelHalf s) (cr3 : Word) (hr : cr3 ∈ roots) :
    ¬ ReleasedOnce s cr3 := by
  intro hreleased
  have hpos := kernel_table_released h hk hr
  have hzero := hreleased.kernel [511] _ (by decide) (by simp) (kernel_descend h hk)
  omega

def spawned : Spaces := step .spawn ⟨oneTable,[]⟩

theorem spawned_held : Held (Reached child (tables oneTable.mem) (treeAt 0x8000)) spawned := by
  apply step_held (boot_held oneTable_boot)
  refine ⟨trivial,?_⟩
  rw [step_spawn]
  exact oneTable_supplied

theorem spawned_half : KernelHalf spawned.machine := by
  have h := oneTable_tree
  have hw := (copyPageTables_fresh oneTable 0x8000 h.frames h.aligned (tree_root h)
    oneTable_supplied).1
  have hentry : tables spawned.machine.mem (frameOf spawned.machine.pml4) 511 = 0x9003 := by
    rw [spawned, step_spawn]
    dsimp only
    rw [show oneTable.pml4 = 0x8000 from rfl, hw.root]
    refine (tree_agree h hw _ ⟨_,[],⟨rfl,by decide⟩,rfl⟩ 511).trans ?_
    rw [oneTable_tables, if_pos ⟨rfl,rfl⟩]
  constructor
  case present => rw [hentry]; decide
  case table => rw [hentry]; decide

theorem release_never_exact_spawned : spawned.roots.length = 1 ∧
    ∀ r ∈ spawned.roots, ¬ ReleasedOnce spawned.machine r := by
  refine ⟨by rw [spawned, step_spawn]; rfl,fun r hr => ?_⟩
  exact release_never_exact spawned_held spawned_half r hr

/-- The table that all address spaces share is freed with the first of them. -/
theorem kernel_table_is_released : spawned.roots ≠ [] ∧ ∀ r ∈ spawned.roots,
    0 < releases spawned.machine.mem r
      (frameOf (tableOf spawned.machine.mem spawned.machine.pml4 511)) ∧
    ¬ ReleasedOnce spawned.machine r := by
  refine ⟨by rw [spawned, step_spawn]; exact List.cons_ne_nil _ _,fun r hr => ?_⟩
  have hpos := kernel_table_released spawned_held spawned_half hr
  refine ⟨hpos,fun hreleased => ?_⟩
  have hzero := hreleased.kernel [511] _ (by decide) (by simp)
    (kernel_descend spawned_held spawned_half)
  omega

end PreemptiveOS.TableRelease
