import PreemptiveOS.KernelObjects
import PreemptiveOS.Ownership

/-!
# Fork

A fork without `CLONE_VM` takes frames for the child's objects, copies the
kernel root and then passes twice over the parent's VMAs in steps of a page:
first it adds flags in the parent's tables, then it maps what it finds there
into the child's tables. The first pass can set bits but never clear one, and
the second reaches only the addresses that the steps hit.
-/

set_option autoImplicit false

namespace PreemptiveOS.Fork
open ByteMemory PhysMmgr VirtMmgr PageTree FreshFrames Ownership Vmas KernelObjects

def stepsFrom (bound : Word) : ℕ → Word → List Word
  | 0, _ => []
  | n+1, i => if i < bound then i::stepsFrom bound n (i+4096) else []

/-- The addresses a pass visits in one VMA. Unless the last step wraps round,
where the loop of the source does not end, the rounds are enough for it. -/
def forkSteps (vma : Vma) : List Word :=
  stepsFrom (upperBound vma) (((upperBound vma).toNat-(lowerBound vma).toNat)/4096+1)
    (lowerBound vma)

def allSteps (vmas : List Vma) : List Word := vmas.flatMap forkSteps

def shareFlags : BitVec 32 := 5

def protectPage (cr3 : Word) (s : Machine) (i : Word) : Machine :=
  changeFlagsInParentPageTables s i cr3 (shareFlags.setWidth 64)

/-- The count goes up even where the mapping refuses an unaligned address. -/
def sharePage (parentCr3 childCr3 : Word) (s : Machine) (i : Word) : Machine :=
  let physAddr := walkPml4 s.mem parentCr3 i
  if physAddr = -1 ∨ physAddr = 0 then s
  else
    let s₁ := mapVirtualAddressToPhysicalAddress clearTable s i physAddr shareFlags childCr3 false
    { s₁ with pages := incrementReferenceCountOfPage physAddr s₁.pages }

def copyVm (s : Machine) (vmas : List Vma) (parentCr3 : Word) : Machine × Word :=
  let childCr3 := (copyPageTables s s.pml4 4).2
  let s₁ := (allSteps vmas).foldl (protectPage parentCr3) (copyPageTables s s.pml4 4).1
  ((allSteps vmas).foldl (sharePage parentCr3 childCr3) s₁,childCr3)

def dupMm (s : Machine) : List Vma → Machine × List Vma
  | [] => (s,[])
  | vma::vmas =>
    ((dupMm (object s).1 vmas).1,{ vma with node := (object s).2 }::(dupMm (object s).1 vmas).2)

def forkObjects (s : Machine) : Machine :=
  let s₁ := (zeroedObject s).1
  let s₂ := (object s₁).1
  let s₃ := (zeroedObject s₂).1
  let s₄ := (zeroedObject s₃).1
  (object s₄).1

def forkThread (s : Machine) : Machine := (object (zeroedObject s).1).1

def doFork (s : Machine) (parent : MmStruct) : Machine × MmStruct :=
  let dup := dupMm (forkObjects s) parent.vma
  let copied := copyVm dup.1 parent.vma parent.cr3
  (forkThread copied.1,⟨dup.2,copied.2,parent.file⟩)

theorem work_object (s : Machine) : Work 1 s (object s).1 := work_alloc 1 s

theorem work_zeroedObject (s : Machine) : Work 1 s (zeroedObject s).1 :=
  work_cleared clears_memset s

theorem work_forkObjects (s : Machine) : Work 1 s (forkObjects s) := by
  apply work_trans (work_zeroedObject s)
  apply work_trans (work_object _)
  apply work_trans (work_zeroedObject _)
  apply work_trans (work_zeroedObject _)
  exact work_object _

theorem work_forkThread (s : Machine) : Work 1 s (forkThread s) :=
  work_trans (work_zeroedObject s) (work_object _)

theorem work_dupMm (vmas : List Vma) (s : Machine) : Work 1 s (dupMm s vmas).1 := by
  induction vmas generalizing s with
  | nil => exact work_refl 1 s
  | cons vma vmas ih => exact work_trans (work_object s) (ih _)

theorem work_forkCopies (s : Machine) (vmas : List Vma) :
    Work 1 s (dupMm (forkObjects s) vmas).1 :=
  work_trans (work_forkObjects s) (work_dupMm vmas (forkObjects s))

variable {cr3 : Word}

theorem walk_mapped (m : Mem) (v : Word) (h : Aligned cr3) :
    (walkPml4 m cr3 v = -1 ∨ walkPml4 m cr3 v = 0 ↔ pte m cr3 v &&& addressMask = 0) ∧
    (pte m cr3 v &&& addressMask ≠ 0 → walkPml4 m cr3 v = pte m cr3 v &&& addressMask) := by
  rw [walk_eq m v h, pte]
  cases leaf m cr3 v with
  | none => simp
  | some e =>
    have hne : ¬ e &&& addressMask = -1 := by
      intro he
      have hal := masked_aligned e
      rw [he] at hal
      exact absurd hal (by decide)
    refine ⟨?_,fun _ => rfl⟩
    simp only [Option.map_some, Option.getD_some, hne, false_or]

theorem retarget_idem {e p f : Word} (hp : p &&& addressMask = p) (hf : f &&& addressMask = 0) :
    retarget (retarget e p f) p f = retarget e p f := by
  apply BitVec.eq_of_getLsbD_eq
  intro i hi
  have hpi := congrArg (fun x => x.getLsbD i) hp
  have hfi := congrArg (fun x => x.getLsbD i) hf
  simp only [BitVec.getLsbD_and] at hpi hfi
  simp only [retarget, BitVec.getLsbD_or, BitVec.getLsbD_and, BitVec.getLsbD_not, hi, decide_true,
    Bool.true_and]
  cases addressMask.getLsbD i <;> cases p.getLsbD i <;> cases f.getLsbD i <;>
    cases e.getLsbD i <;> simp_all

theorem fresh_recount (margin : ℕ) (s : Machine) (g : Page → Page)
    (haddr : ∀ p, (g p).physAddrOfPage = p.physAddrOfPage)
    (hfree : ∀ p, (g p).isFreePage = p.isFreePage) :
    Fresh margin s { s with pages := s.pages.map g } := by
  refine ⟨?_,rfl,?_,fun _ _ _ => rfl⟩
  · have hg : Page.physAddrOfPage ∘ g = Page.physAddrOfPage := funext haddr
    simp only [addresses, List.map_map, hg]
  · rintro b ⟨q,hq,rfl,hused⟩
    obtain ⟨p,hp,rfl⟩ := List.mem_map.mp hq
    exact ⟨p,hp,(haddr p).symm,(hfree p).symm.trans hused⟩

variable {s : Machine}

theorem fresh_increment (margin : ℕ) (a : Word) :
    Fresh margin s { s with pages := incrementReferenceCountOfPage a s.pages } := by
  apply fresh_recount
  · intro p
    split_ifs <;> rfl
  · intro p
    split_ifs <;> rfl

theorem shareFlags_present : shareFlags.setWidth 64 &&& present = present := by decide

theorem shareFlags_masked : shareFlags.setWidth 64 &&& addressMask = 0 := by decide

def frameAt (m : Mem) (cr3 v : Word) : Word := pte m cr3 v &&& addressMask

variable {m : Mem} {v : Word}

theorem frameAt_masked : frameAt m cr3 v &&& addressMask = frameAt m cr3 v := by
  rw [frameAt, BitVec.and_assoc, BitVec.and_self]

variable {w : Word}

theorem pte_same_page (m : Mem) (cr3 : Word) (h : pageNumber v = pageNumber w) :
    pte m cr3 v = pte m cr3 w := by
  obtain ⟨hu,hl⟩ := (same_page_iff v w).mpr h
  simp only [pte, leaf, hu, hl]

theorem share_shortages (r c : Word) (s : Machine) (i : Word) :
    s.shortages ≤ (sharePage r c s i).shortages := by
  simp only [sharePage]
  split_ifs
  · exact le_rfl
  · exact map_shortages _ _ _ _ _ _ _

theorem shares_shortages (r c : Word) (is : List Word) (s : Machine) :
    s.shortages ≤ (is.foldl (sharePage r c) s).shortages := by
  induction is generalizing s with
  | nil => exact le_rfl
  | cons i is ih => exact (share_shortages r c s i).trans (ih _)

variable {is : List Word}

theorem protect_shortages (r : Word) (s : Machine) :
    (is.foldl (protectPage r) s).shortages = s.shortages := by
  induction is generalizing s with
  | nil => rfl
  | cons i is ih => exact (ih _).trans (PageFlags.changeFlags_rest _ _ _ _).2.2

theorem protect_pages (r : Word) (is : List Word) (s : Machine) :
    (is.foldl (protectPage r) s).pages = s.pages := by
  induction is generalizing s with
  | nil => rfl
  | cons i is ih => exact (ih _).trans (PageFlags.changeFlags_rest _ _ _ _).1

section
variable {kernel : ℕ → Prop} {roots : List Word} (r : Word) (hr : r ∈ roots)
include hr

/-- The first pass, by induction on the steps left: the last-level entries of
the pages it visits get the flags, and nothing else changes. -/
theorem protect_leaves (s : Machine) (h : Coherent kernel 1 roots s) (hu : ∀ i ∈ is, User i) :
    Coherent kernel 1 roots (is.foldl (protectPage r) s) ∧
    ∀ y ∈ roots, ∀ w, User w → leaf (is.foldl (protectPage r) s).mem y w =
      if y = r ∧ ∃ i ∈ is, pageNumber w = pageNumber i then
        (leaf s.mem y w).map (fun e => e ||| shareFlags.setWidth 64)
      else leaf s.mem y w := by
  induction is generalizing s with
  | nil => exact ⟨h,fun y _ w _ => by simp⟩
  | cons i is ih =>
    obtain ⟨h₁,hleaf⟩ := changeFlags_leaves h _ hr (hu i (by simp)) shareFlags_masked
    obtain ⟨h₂,hrest⟩ := ih (protectPage r s i) h₁ (fun j hj => hu j (by simp [hj]))
    refine ⟨h₂,?_⟩
    intro y hy w hw
    have hidem : ∀ o : Option Word,
        (o.map (fun e => e ||| shareFlags.setWidth 64)).map (fun e => e ||| shareFlags.setWidth 64) =
          o.map (fun e => e ||| shareFlags.setWidth 64) := by
      intro o
      rw [Option.map_map]
      congr 1
      funext e
      simp only [Function.comp_apply, BitVec.or_assoc, BitVec.or_self]
    rw [List.foldl_cons, hrest y hy w hw, protectPage, hleaf y hy w hw]
    by_cases hyr : y = r
    · by_cases hi : pageNumber w = pageNumber i
      · by_cases hex : ∃ j ∈ is, pageNumber w = pageNumber j
        · rw [if_pos ⟨hyr,hex⟩, if_pos ⟨hyr,hi⟩, if_pos ⟨hyr,i,by simp,hi⟩, hidem]
        · rw [if_neg (fun hc => hex hc.2), if_pos ⟨hyr,hi⟩, if_pos ⟨hyr,i,by simp,hi⟩]
      · simp only [hi, and_false, if_false, List.mem_cons, exists_eq_or_imp, false_or]
    · simp only [hyr, false_and, if_false]

variable (c : Word) (hc : c ∈ roots)
include hc

theorem share_leaf {i : Word} (h : Coherent kernel 1 roots s) (hi : User i)
    (hok : (sharePage r c s i).shortages = s.shortages) :
    Coherent kernel 1 roots (sharePage r c s i) ∧
    (∀ y ∈ roots, y ≠ c → ∀ w, leaf (sharePage r c s i).mem y w = leaf s.mem y w) ∧
    ∀ w, User w → pte (sharePage r c s i).mem c w =
      if (pageNumber w = pageNumber i ∧ Aligned i) ∧ frameAt s.mem r w ≠ 0 then
        retarget (pte s.mem c w) (frameAt s.mem r w) (shareFlags.setWidth 64)
      else pte s.mem c w := by
  have hwalk := walk_mapped s.mem i (h.window r hr).1
  by_cases hz : frameAt s.mem r i = 0
  · have hid : sharePage r c s i = s := if_pos (hwalk.1.mpr hz)
    rw [hid]
    refine ⟨h,fun _ _ _ _ => rfl,?_⟩
    intro w hw
    rw [if_neg]
    rintro ⟨⟨hpage,_⟩,hne⟩
    apply hne
    rw [frameAt, pte_same_page s.mem r hpage]
    exact hz
  · have hstep : sharePage r c s i =
        { mapVirtualAddressToPhysicalAddress clearTable s i
            (frameAt s.mem r i) shareFlags c false with
          pages := incrementReferenceCountOfPage (frameAt s.mem r i)
            (mapVirtualAddressToPhysicalAddress clearTable s i (frameAt s.mem r i) shareFlags c
              false).pages } := by
      rw [sharePage, if_neg (mt hwalk.1.mp hz), hwalk.2 hz]
      rfl
    rw [hstep] at hok ⊢
    obtain ⟨h₁,hothers,hpte⟩ := map_leaves h clears_memset i (frameAt s.mem r i)
      shareFlags hc hi shareFlags_present shareFlags_masked hok
    have h₂ := fresh_leaf h₁ _ (fresh_increment 1 (frameAt s.mem r i))
    refine ⟨h₂.1,hothers,?_⟩
    intro w hw
    refine (hpte w hw).trans ?_
    have hpa : Aligned (frameAt s.mem r i) := masked_aligned _
    by_cases hpage : pageNumber w = pageNumber i
    · have hframe : frameAt s.mem r w = frameAt s.mem r i := by
        rw [frameAt, pte_same_page s.mem r hpage]
        rfl
      rw [hframe]
      simp only [hpage, hpa, and_true, true_and, hz, ne_eq, not_false_eq_true]
    · simp only [hpage, false_and, if_false]

theorem share_leaves (hcr : c ≠ r) (s : Machine) (h : Coherent kernel 1 roots s)
    (hu : ∀ i ∈ is, User i) (hok : (is.foldl (sharePage r c) s).shortages = s.shortages) :
    Coherent kernel 1 roots (is.foldl (sharePage r c) s) ∧
    (∀ y ∈ roots, y ≠ c → ∀ w, leaf (is.foldl (sharePage r c) s).mem y w = leaf s.mem y w) ∧
    ∀ w, User w → pte (is.foldl (sharePage r c) s).mem c w =
      if (∃ i ∈ is, pageNumber w = pageNumber i ∧ Aligned i) ∧ frameAt s.mem r w ≠ 0 then
        retarget (pte s.mem c w) (frameAt s.mem r w) (shareFlags.setWidth 64)
      else pte s.mem c w := by
  induction is generalizing s with
  | nil => exact ⟨h,fun _ _ _ _ => rfl,fun w _ => by simp⟩
  | cons i is ih =>
    rw [List.foldl_cons] at hok ⊢
    have hle := share_shortages r c s i
    have hle' := shares_shortages r c is (sharePage r c s i)
    obtain ⟨h₁,hothers₁,hpte₁⟩ := share_leaf r hr c hc h (hu i (by simp)) (by omega)
    obtain ⟨h₂,hothers₂,hpte₂⟩ := ih _ h₁ (fun j hj => hu j (by simp [hj])) (by omega)
    refine ⟨h₂,fun y hy hne w => (hothers₂ y hy hne w).trans (hothers₁ y hy hne w),?_⟩
    intro w hw
    have hframe : frameAt (sharePage r c s i).mem r w = frameAt s.mem r w := by
      rw [frameAt, pte, hothers₁ r hr (Ne.symm hcr) w]
      rfl
    rw [hpte₂ w hw, hframe, hpte₁ w hw]
    by_cases hz : frameAt s.mem r w = 0
    · simp only [hz, ne_eq, not_true_eq_false, and_false, if_false]
    · by_cases hi : pageNumber w = pageNumber i ∧ Aligned i
      · by_cases hex : ∃ j ∈ is, pageNumber w = pageNumber j ∧ Aligned j
        · rw [if_pos ⟨hex,hz⟩, if_pos ⟨hi,hz⟩, if_pos ⟨⟨i,by simp,hi⟩,hz⟩,
            retarget_idem (frameAt_masked) shareFlags_masked]
        · rw [if_neg (fun hc => hex hc.1), if_pos ⟨hi,hz⟩, if_pos ⟨⟨i,by simp,hi⟩,hz⟩]
      · simp only [hi, false_and, if_false, List.mem_cons, exists_eq_or_imp, false_or]

end

theorem retarget_zero (p f : Word) : retarget 0 p f = p ||| f := by
  have hz : (0 : Word) &&& ~~~addressMask = 0#64 := BitVec.zero_and
  rw [retarget, hz, BitVec.zero_or]

structure Forked (kernel : ℕ → Prop) (roots : List Word) (steps : List Word) (r c : Word)
    (s s' : Machine) : Prop where
  coherent : Coherent kernel 1 (c::roots) s'
  new : c ∉ roots
  others : ∀ y ∈ roots, y ≠ r → ∀ w, User w → leaf s'.mem y w = leaf s.mem y w
  parent : ∀ w, User w → leaf s'.mem r w =
    if ∃ i ∈ steps, pageNumber w = pageNumber i then
      (leaf s.mem r w).map (fun e => e ||| shareFlags.setWidth 64)
    else leaf s.mem r w
  child : ∀ w, User w → pte s'.mem c w =
    if (∃ i ∈ steps, pageNumber w = pageNumber i ∧ Aligned i) ∧ frameAt s.mem r w ≠ 0 then
      frameAt s.mem r w ||| shareFlags.setWidth 64
    else 0

variable {r : Word}

theorem frameAt_protected {m' : Mem}
    (hleaf : leaf m' r w = if ∃ i ∈ is, pageNumber w = pageNumber i then
      (leaf m r w).map (fun e => e ||| shareFlags.setWidth 64) else leaf m r w) :
    frameAt m' r w = frameAt m r w := by
  rw [frameAt, frameAt, pte, pte, hleaf]
  split_ifs
  · cases leaf m r w with
    | none => rfl
    | some e => exact BitFields.set_outside e shareFlags_masked
  · rfl

theorem copyVm_supply (s : Machine) (vmas : List Vma) (r : Word) :
    s.shortages ≤ (copyVm s vmas r).1.shortages ∧
    ((copyVm s vmas r).1.shortages = s.shortages →
      (copyPageTables s s.pml4 4).1.shortages = s.shortages ∧
      ((allSteps vmas).foldl (sharePage r (copyPageTables s s.pml4 4).2)
        ((allSteps vmas).foldl (protectPage r) (copyPageTables s s.pml4 4).1)).shortages =
        ((allSteps vmas).foldl (protectPage r) (copyPageTables s s.pml4 4).1).shortages) := by
  have hle := copyPageTables_shortages s s.pml4
  rw [copyVm]
  dsimp only
  generalize copyPageTables s s.pml4 4 = c at *
  have hle' := shares_shortages r c.2 (allSteps vmas)
    ((allSteps vmas).foldl (protectPage r) c.1)
  rw [protect_shortages] at hle' ⊢
  omega

variable {vmas : List Vma}

structure Prepared (kernel : ℕ → Prop) (roots : List Word) (steps : List Word) (r c : Word)
    (s s' : Machine) : Prop where
  coherent : Coherent kernel 1 (c::roots) s'
  new : c ∉ roots
  others : ∀ y ∈ roots, y ≠ r → ∀ w, User w → leaf s'.mem y w = leaf s.mem y w
  parent : ∀ w, User w → leaf s'.mem r w =
    if ∃ i ∈ steps, pageNumber w = pageNumber i then
      (leaf s.mem r w).map (fun e => e ||| shareFlags.setWidth 64)
    else leaf s.mem r w
  child : ∀ w, User w → pte s'.mem c w = 0
  later : PageRecords.Later s.pages s'.pages

variable {roots : List Word} {kernel : ℕ → Prop}

theorem firstPass_prepared (h : Coherent kernel 1 roots s) {steps : List Word} (hr : r ∈ roots)
    (hu : ∀ i ∈ steps, User i) (hok : (copyPageTables s s.pml4 4).1.shortages = s.shortages) :
    Prepared kernel roots steps r (copyPageTables s s.pml4 4).2 s
      (steps.foldl (protectPage r) (copyPageTables s s.pml4 4).1) := by
  obtain ⟨hs,hnew,hnone⟩ := spawn_coherent h hok
  have hold := fun y hy => quiet_leaf h (spawn_quiet h hok) y (Or.inr ⟨hy,id⟩)
  have hlater := PageRecords.keeps_copyPageTables s s.pml4 h.forest.frames
  generalize copyPageTables s s.pml4 4 = c at *
  obtain ⟨s₁,c⟩ := c
  dsimp only at hs hnew hnone hold hlater ⊢
  have hcr : c ≠ r := fun he => hnew (he ▸ hr)
  obtain ⟨hp,hleaf⟩ := protect_leaves r (List.mem_cons_of_mem _ hr) s₁ hs hu
  have hpages := protect_pages r steps s₁
  constructor
  case coherent => exact hp
  case new => exact hnew
  case others =>
    intro y hy hne w hw
    rw [hleaf y (List.mem_cons_of_mem _ hy) w hw, if_neg (fun hc => hne hc.1), hold y hy w]
  case parent =>
    intro w hw
    rw [hleaf r (List.mem_cons_of_mem _ hr) w hw, hold r hr w]
    simp only [true_and]
  case child =>
    intro w hw
    rw [pte, hleaf c (by simp) w hw, if_neg (fun hc => hcr hc.1), hnone w hw]
    rfl
  case later =>
    rw [hpages]
    exact hlater

theorem copyVm_forked (h : Coherent kernel 1 roots s) (hr : r ∈ roots)
    (hu : ∀ i ∈ allSteps vmas, User i) (hok : (copyVm s vmas r).1.shortages = s.shortages) :
    Forked kernel roots (allSteps vmas) r (copyVm s vmas r).2 s (copyVm s vmas r).1 := by
  obtain ⟨hspawn,hshare⟩ := (copyVm_supply _ _ _).2 hok
  have hprep := firstPass_prepared h hr hu hspawn
  rw [copyVm]
  dsimp only
  generalize (copyPageTables s s.pml4 4).2 = c at *
  generalize (allSteps vmas).foldl (protectPage r) (copyPageTables s s.pml4 4).1 = s₂ at *
  have hcr : c ≠ r := fun he => hprep.new (he ▸ hr)
  obtain ⟨h₃,hothers₃,hpte₃⟩ := share_leaves r (List.mem_cons_of_mem _ hr) c (by simp) hcr s₂
    hprep.coherent hu hshare
  constructor
  case coherent => exact h₃
  case new => exact hprep.new
  case others =>
    intro y hy hne w hw
    have hyc : y ≠ c := fun he => hprep.new (he ▸ hy)
    rw [hothers₃ y (List.mem_cons_of_mem _ hy) hyc w, hprep.others y hy hne w hw]
  case parent =>
    intro w hw
    rw [hothers₃ r (List.mem_cons_of_mem _ hr) (Ne.symm hcr) w, hprep.parent w hw]
  case child =>
    intro w hw
    rw [hpte₃ w hw, frameAt_protected (hprep.parent w hw), hprep.child w hw,
      retarget_zero]

variable {parent : MmStruct}

theorem doFork_supply (hok : (doFork s parent).1.shortages = s.shortages) :
    (dupMm (forkObjects s) parent.vma).1.shortages = s.shortages ∧
    (copyVm (dupMm (forkObjects s) parent.vma).1 parent.vma parent.cr3).1.shortages =
      (dupMm (forkObjects s) parent.vma).1.shortages ∧
    (forkThread (copyVm (dupMm (forkObjects s) parent.vma).1 parent.vma parent.cr3).1).shortages =
      (copyVm (dupMm (forkObjects s) parent.vma).1 parent.vma parent.cr3).1.shortages := by
  have hdup := (work_forkCopies s parent.vma).shortages
  have hcopy := (copyVm_supply (dupMm (forkObjects s) parent.vma).1 parent.vma parent.cr3).1
  have hthread := (work_forkThread
    (copyVm (dupMm (forkObjects s) parent.vma).1 parent.vma parent.cr3).1).shortages
  simp only [doFork] at hok
  omega

theorem doFork_forked (h : Coherent kernel 1 roots s) (hr : parent.cr3 ∈ roots)
    (hu : ∀ i ∈ allSteps parent.vma, User i) (hok : (doFork s parent).1.shortages = s.shortages) :
    Forked kernel roots (allSteps parent.vma) parent.cr3 (doFork s parent).2.cr3 s
      (doFork s parent).1 := by
  have hw := work_forkCopies s parent.vma
  obtain ⟨hdup,hcopy,hthread⟩ := doFork_supply hok
  simp only [doFork]
  generalize dupMm (forkObjects s) parent.vma = d at *
  obtain ⟨h₁,hleaf₁⟩ := fresh_leaf h d.1 (hw.fresh h.forest.frames hdup)
  have hf := copyVm_forked h₁ hr hu hcopy
  generalize copyVm d.1 parent.vma parent.cr3 = x at *
  obtain ⟨h₂,hleaf₂⟩ := fresh_leaf hf.coherent _
    ((work_forkThread x.1).fresh hf.coherent.forest.frames hthread)
  constructor
  case coherent => exact h₂
  case new => exact hf.new
  case others =>
    intro y hy hne w hw
    rw [hleaf₂ y (List.mem_cons_of_mem _ hy) w, hf.others y hy hne w hw, hleaf₁ y hy w]
  case parent =>
    intro w hw
    rw [hleaf₂ _ (List.mem_cons_of_mem _ hr) w, hf.parent w hw, hleaf₁ _ hr w]
  case child =>
    intro w hw
    have hframe : frameAt d.1.mem parent.cr3 w = frameAt s.mem parent.cr3 w := by
      rw [frameAt, frameAt, pte, pte, hleaf₁ _ hr w]
    rw [pte, hleaf₂ _ (by simp) w, ← hframe]
    exact hf.child w hw

end PreemptiveOS.Fork
