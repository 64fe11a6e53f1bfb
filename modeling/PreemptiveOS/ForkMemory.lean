import PreemptiveOS.FaultLeaves
import PreemptiveOS.Supply

/-!
# What parent and child share after a fork

Two questions about the pages of a parent and its child right after a fork:
is every shared page write protected on both sides, and does the child have
every page of the parent. Both come down to what the parent's tables and VMAs
were before. The flag pass of a fork only adds bits, so a page that was
writable stays writable for the parent; and a page goes to the child only if
an aligned step of a VMA hits it.
-/

set_option autoImplicit false

namespace PreemptiveOS.ForkMemory
open ByteMemory VirtMmgr FreshFrames Ownership Vmas KernelObjects Fork PageFaults FaultLeaves Exec
open ExecLeaves Supply

def MapsPage (m : Mem) (cr3 v a : Word) : Prop :=
  pte m cr3 v &&& present = present ∧ frameAt m cr3 v = a

def WriteProtected (m : Mem) (r c : Word) : Prop :=
  ∀ v a, User v → MapsPage m r v a → MapsPage m c v a →
    pte m r v &&& readWrite = 0 ∧ pte m c v &&& readWrite = 0

def Walked (m : Mem) (r v : Word) : Prop := walkPml4 m r v ≠ -1 ∧ walkPml4 m r v ≠ 0

def Duplicated (m : Mem) (r c : Word) : Prop :=
  ∀ v, User v → Walked m r v → walkPml4 m c v = walkPml4 m r v

variable {v : Word}

theorem walked_iff (m : Mem) {r : Word} (hr : Aligned r) : Walked m r v ↔ frameAt m r v ≠ 0 := by
  rw [frameAt, Ne, ← (walk_mapped m v hr).1, not_or]
  rfl

def Stepped (vmas : List Vma) (v : Word) : Prop :=
  ∃ i ∈ allSteps vmas, pageNumber v = pageNumber i ∧ Aligned i

section
variable {kernel : ℕ → Prop} {roots : List Word} {vmas : List Vma} {r c : Word} {s s' : Machine}
  (h : Forked kernel roots (allSteps vmas) r c s s')
include h

theorem child_stepped (hv : User v) (hs : Stepped vmas v) (hf : frameAt s.mem r v ≠ 0) :
    pte s'.mem c v = frameAt s.mem r v ||| shareFlags.setWidth 64 := by
  rw [h.child v hv, if_pos ⟨hs,hf⟩]

theorem child_unstepped (hv : User v) (hs : ¬ (Stepped vmas v ∧ frameAt s.mem r v ≠ 0)) :
    pte s'.mem c v = 0 := by
  rw [h.child v hv]
  exact if_neg hs

theorem parent_stepped (hv : User v) (hs : Stepped vmas v) (hf : frameAt s.mem r v ≠ 0) :
    pte s'.mem r v = pte s.mem r v ||| shareFlags.setWidth 64 := by
  obtain ⟨i,hi,hpage,_⟩ := hs
  rw [pte, h.parent v hv, if_pos ⟨i,hi,hpage⟩]
  rw [frameAt, pte] at hf
  cases ho : leaf s.mem r v with
  | none =>
    rw [ho] at hf
    exact absurd BitVec.zero_and hf
  | some e => simp [pte, ho]

theorem both_map (hv : User v) (hs : Stepped vmas v) (hf : frameAt s.mem r v ≠ 0) :
    MapsPage s'.mem r v (frameAt s.mem r v) ∧ MapsPage s'.mem c v (frameAt s.mem r v) := by
  have hp := parent_stepped h hv hs hf
  have hc := child_stepped h hv hs hf
  refine ⟨⟨?_,?_⟩,⟨?_,?_⟩⟩
  · rw [hp]
    exact BitFields.set_inside _ shareFlags_present
  · rw [frameAt, hp]
    exact BitFields.set_outside _ shareFlags_masked
  · rw [hc]
    exact BitFields.set_inside _ shareFlags_present
  · rw [frameAt, hc, BitFields.set_outside _ shareFlags_masked, frameAt_masked]

theorem child_maps {a : Word} (hv : User v) (hm : MapsPage s'.mem c v a) :
    Stepped vmas v ∧ frameAt s.mem r v ≠ 0 := by
  by_contra hn
  have hzero := hm.1
  rw [child_unstepped h hv hn] at hzero
  exact absurd hzero (by decide)

theorem protected_iff (hu : ∀ i ∈ allSteps vmas, User i) :
    WriteProtected s'.mem r c ↔
      ∀ i ∈ allSteps vmas, Aligned i → frameAt s.mem r i ≠ 0 →
        pte s.mem r i &&& readWrite = 0 := by
  have hwrite : shareFlags.setWidth 64 &&& readWrite = 0 := by decide
  constructor
  · intro hprot i hi hal hf
    have hs : Stepped vmas i := ⟨i,hi,rfl,hal⟩
    obtain ⟨hmr,hmc⟩ := both_map h (hu i hi) hs hf
    have hclear := (hprot i _ (hu i hi) hmr hmc).1
    rw [parent_stepped h (hu i hi) hs hf] at hclear
    rwa [BitFields.set_outside _ hwrite] at hclear
  · intro hcond v a hv hmr hmc
    obtain ⟨⟨i,hi,hpage,hal⟩,hf⟩ := child_maps h hv hmc
    have hs : Stepped vmas v := ⟨i,hi,hpage,hal⟩
    have hsame := pte_same_page s.mem r hpage
    have hclear : pte s.mem r v &&& readWrite = 0 := by
      rw [hsame]
      apply hcond i hi hal
      rwa [frameAt, ← hsame]
    constructor
    · rw [parent_stepped h hv hs hf, BitFields.set_outside _ hwrite]
      exact hclear
    · have hmask : frameAt s.mem r v &&& readWrite = 0 := by
        rw [frameAt, BitVec.and_assoc]
        exact BitVec.and_zero
      rw [child_stepped h hv hs hf, BitFields.set_outside _ hwrite]
      exact hmask

theorem parent_frame (hv : User v) : frameAt s'.mem r v = frameAt s.mem r v :=
  frameAt_protected (h.parent v hv)

theorem duplicated_iff (hr : Aligned r) (hc : Aligned c) :
    Duplicated s'.mem r c ↔ ∀ v, User v → Walked s.mem r v → Stepped vmas v := by
  have hwalk : ∀ v, User v → (Walked s'.mem r v ↔ Walked s.mem r v) := by
    intro v hv
    rw [walked_iff _ hr, walked_iff _ hr, parent_frame h hv]
  constructor
  · intro hdup v hv hw
    by_contra hs
    have hw' := (hwalk v hv).mpr hw
    have hchild : frameAt s'.mem c v = 0 := by
      rw [frameAt, child_unstepped h hv (fun hc => hs hc.1)]
      exact BitVec.zero_and
    rcases (walk_mapped s'.mem v hc).1.mpr hchild with hz | hz
    · exact hw'.1 (hdup v hv hw' ▸ hz)
    · exact hw'.2 (hdup v hv hw' ▸ hz)
  · intro hcond v hv hw
    have hw₀ := (hwalk v hv).mp hw
    have hf := (walked_iff _ hr).mp hw₀
    obtain ⟨hmr,hmc⟩ := both_map h hv (hcond v hv hw₀) hf
    have hchild : walkPml4 s'.mem c v = frameAt s'.mem c v :=
      (walk_mapped s'.mem v hc).2 (by rw [← frameAt, hmc.2]; exact hf)
    have hparent : walkPml4 s'.mem r v = frameAt s'.mem r v :=
      (walk_mapped s'.mem v hr).2 (by rw [← frameAt, hmr.2]; exact hf)
    rw [hchild, hparent, hmc.2, hmr.2]

end

/-- After a fork without a failed allocation, the pages that parent and child
share are write protected on both sides exactly when no page that an aligned
step hits was mapped writable before. -/
theorem fork_protects_iff {kernel : ℕ → Prop} {roots : List Word} {s : Machine}
    (h : Coherent kernel 1 roots s) (parent : MmStruct) (hr : parent.cr3 ∈ roots)
    (hu : ∀ i ∈ allSteps parent.vma, User i)
    (hok : (doFork s parent).1.shortages = s.shortages) :
    WriteProtected (doFork s parent).1.mem parent.cr3 (doFork s parent).2.cr3 ↔
      ∀ i ∈ allSteps parent.vma, Aligned i → Walked s.mem parent.cr3 i →
        pte s.mem parent.cr3 i &&& readWrite = 0 := by
  rw [protected_iff (doFork_forked h hr hu hok) hu]
  simp only [walked_iff s.mem (h.window _ hr).1]

/-- With the heap as its only VMA a process has no page yet that a fork shares. -/
theorem fork_protects_iff_heap : ∃ img frames, FirstImage img frames ∧
    WriteProtected (doFork img.kernel.machine ⟨[tinyHeap (kernelPtr 0)],img.mm.cr3,none⟩).1.mem
      img.mm.cr3 (doFork img.kernel.machine ⟨[tinyHeap (kernelPtr 0)],img.mm.cr3,none⟩).2.cr3 := by
  obtain ⟨img,frames,h⟩ := first_image
  have hsteps : allSteps [tinyHeap (kernelPtr 0)] = [0x401000] := by
    simp [allSteps, forkSteps, stepsFrom, upperBound, lowerBound, tinyHeap]
  refine ⟨img,frames,h,(fork_protects_iff h.executed.coherent
    ⟨[tinyHeap (kernelPtr 0)],img.mm.cr3,none⟩ (by simp) ?_ (h.forks _ ?_)).mpr ?_⟩
  · rw [hsteps, List.forall_mem_singleton]
    decide
  · rw [hsteps, List.length_singleton, List.length_singleton]
    decide
  · rw [hsteps, List.forall_mem_singleton]
    intro _ hw
    exfalso
    apply (walked_iff _ (h.executed.coherent.window _ (by simp)).1).mp hw
    have hzero : pte img.kernel.machine.mem img.mm.cr3 0x401000 = 0 :=
      h.executed.own 0x401000 (by decide)
    rw [frameAt, hzero]
    exact BitVec.zero_and

/-- The page of the argument pointers: the child gets its frame and the parent
can still write to it. -/
theorem fork_leaves_page_writable : ∃ img frames, FirstImage img frames ∧ ∃ a,
    MapsPage (doFork img.kernel.machine img.mm).1.mem img.mm.cr3 (stackStart-2*4096) a ∧
    MapsPage (doFork img.kernel.machine img.mm).1.mem (doFork img.kernel.machine img.mm).2.cr3
      (stackStart-2*4096) a ∧
    pte (doFork img.kernel.machine img.mm).1.mem img.mm.cr3 (stackStart-2*4096) &&& readWrite =
      readWrite := by
  obtain ⟨img,frames,h⟩ := first_image
  obtain ⟨hpte,_,hne,_⟩ := first_arguments h
  have hforked := first_forked h
  have hs : Stepped img.mm.vma (stackStart-2*4096) := by
    refine ⟨stackStart-2*4096,?_,rfl,by decide⟩
    rw [h.steps]
    simp
  have hu : User (stackStart-2*4096) := by decide
  obtain ⟨hp,hc⟩ := both_map hforked hu hs hne
  refine ⟨img,frames,h,_,hp,hc,?_⟩
  rw [parent_stepped hforked hu hs hne, hpte, BitVec.or_assoc]
  exact BitFields.set_inside _ (by decide)

structure Space where
  kernel : Kernel
  process : Process

inductive Growth where
  | fault (errorCode : BitVec 32) (address : Word)
  | mmap (addr len prot off : Word) (privateAndShared : Bool)

def grow (files : KernelPtr → FileData) (atNull : Word) : Growth → Space → Option Space
  | .fault errorCode address, x =>
    (doPageFault files atNull x.kernel.machine x.process errorCode address).map
      (fun h => ⟨{ x.kernel with machine := h.machine },h.process⟩)
  | .mmap addr len prot off both, x =>
    let mm := x.process.mm
    let region := doMmap x.kernel mm.vma addr len prot off both
    match region.2 with
    | .failed => some ⟨region.1,x.process⟩
    | .mapped vmas _ => some ⟨region.1,{ x.process with mm := { mm with vma := vmas } }⟩
    | .wild => none

def Regular (files : KernelPtr → FileData) : Growth → Space → Prop
  | .fault _ address, x => User address ∧ 4096 ≤ address.toNat ∧
    ∀ vma, findVma x.process.mm.vma address = some vma →
      Delivered files x.process.mm vma (pageRoundUp address)
  | .mmap .., _ => True

inductive Grown (files : KernelPtr → FileData) (atNull : Word) (x : Space) : Space → Prop
  | refl : Grown files atNull x x
  | step (y z : Space) (op : Growth) : Grown files atNull x y → Regular files op y →
      grow files atNull op y = some z →
      z.kernel.machine.shortages = y.kernel.machine.shortages → Grown files atNull x z

variable {files : KernelPtr → FileData} {x y : Space} {atNull : Word}

section
variable {kernel : ℕ → Prop} {roots : List Word}

theorem fault_coherent {s : Machine} (h : Coherent kernel 1 roots s) {p : Process}
    (hr : p.mm.cr3 ∈ roots) {errorCode : BitVec 32} {address : Word} (hv : User address)
    (ha : 4096 ≤ address.toNat)
    (hd : ∀ vma, findVma p.mm.vma address = some vma →
      Delivered files p.mm vma (pageRoundUp address)) {x : Handled}
    (hx : doPageFault files atNull s p errorCode address = some x)
    (hok : x.machine.shortages = s.shortages) :
    Coherent kernel 1 roots x.machine ∧ x.process.mm.cr3 = p.mm.cr3 := by
  obtain ⟨hal,hround,hpage⟩ := pageRoundUp_page ha
  have hv' := user_page hpage hv
  obtain ⟨hcr3,hm | hcow | ⟨vma,hfind,_,hs'⟩⟩ :=
    doPageFault_cases hx
  · rw [hm]
    exact ⟨h,hcr3⟩
  · refine ⟨?_,hcr3⟩
    rcases cow_cases h hr hv' hcow hok with hc | hc | hc
    · exact hc.2.2.1
    · exact hc.2.2.2.coherent
    · exact hc.2.1
  · refine ⟨?_,hcr3⟩
    rcases demand_remapped h hr hv' hal hround (hd vma hfind) hs' hok with
      he | ⟨_,hmap⟩
    · rw [he]
      exact h
    · exact hmap.coherent

theorem work_doMmap (k : Kernel) (vmas : List Vma) (addr len prot off : Word) (both : Bool) :
    Work 1 k.machine (doMmap k vmas addr len prot off both).1.machine := by
  unfold doMmap
  dsimp only
  split
  · exact work_refl 1 _
  · split
    · exact work_refl 1 _
    · exact work_mmapRegion k vmas none 0 len off prot

theorem grow_coherent {op : Growth} (h : Coherent kernel 1 roots x.kernel.machine)
    (hr : x.process.mm.cr3 ∈ roots) (hreg : Regular files op x)
    (hy : grow files atNull op x = some y)
    (hok : y.kernel.machine.shortages = x.kernel.machine.shortages) :
    Coherent kernel 1 roots y.kernel.machine ∧ y.process.mm.cr3 = x.process.mm.cr3 := by
  cases op with
  | fault errorCode address =>
    obtain ⟨z,hz,rfl⟩ := Option.map_eq_some_iff.mp hy
    exact fault_coherent h hr hreg.1 hreg.2.1 hreg.2.2 hz hok
  | mmap addr len prot off both =>
    have hwork := work_doMmap x.kernel x.process.mm.vma addr len prot off both
    dsimp only [grow] at hy
    generalize doMmap x.kernel x.process.mm.vma addr len prot off both = region at *
    obtain ⟨k,region⟩ := region
    have hco := fun hsh => (fresh_leaf h k.machine (hwork.fresh h.forest.frames hsh)).1
    cases region with
    | failed =>
      obtain rfl := Option.some.inj hy
      exact ⟨hco hok,rfl⟩
    | mapped vmas vma =>
      obtain rfl := Option.some.inj hy
      exact ⟨hco hok,rfl⟩
    | wild => simp at hy

theorem grown_coherent (hgrown : Grown files atNull x y)
    (h : Coherent kernel 1 roots x.kernel.machine) (hr : x.process.mm.cr3 ∈ roots) :
    Coherent kernel 1 roots y.kernel.machine ∧ y.process.mm.cr3 = x.process.mm.cr3 := by
  induction hgrown with
  | refl => exact ⟨h,rfl⟩
  | step y z op _ hreg hz hok ih =>
    obtain ⟨hy,hcr3⟩ := ih
    obtain ⟨hz',hcr3'⟩ := grow_coherent hy (hcr3 ▸ hr) hreg hz hok
    exact ⟨hz',hcr3'.trans hcr3⟩

end

/-- A process that was built by an exec and then grew by faults and mappings
passes every page on to the child of a fork exactly when an aligned step of a
VMA hits each page that its tables map. -/
theorem fork_duplicates_iff {kernel : ℕ → Prop} {roots : List Word} {k : Kernel}
    (h : Coherent kernel 1 roots k.machine) (files : KernelPtr → FileData) (args : ExecArgs)
    (img : Image) (himg : doExecve files k args = some img)
    (hc : CommandApart kernel roots k.machine.mem args.command)
    (hh : ∀ fp ∈ img.mm.file, HeadersFit (files fp)) (hp : ParamsFit args.argv args.envp)
    (hexec : img.kernel.machine.shortages = k.machine.shortages)
    (atNull : Word) (p : Process) (hmm : p.mm = img.mm) (x : Space)
    (hgrown : Grown files atNull ⟨img.kernel,p⟩ x)
    (hu : ∀ i ∈ allSteps x.process.mm.vma, User i)
    (hfork : (doFork x.kernel.machine x.process.mm).1.shortages = x.kernel.machine.shortages) :
    Duplicated (doFork x.kernel.machine x.process.mm).1.mem x.process.mm.cr3
        (doFork x.kernel.machine x.process.mm).2.cr3 ↔
      ∀ v, User v → Walked x.kernel.machine.mem x.process.mm.cr3 v →
        Stepped x.process.mm.vma v := by
  obtain ⟨frames,hex,_⟩ := execve_executed h files args img himg hc hh hp hexec
  have hr : p.mm.cr3 ∈ img.mm.cr3::roots := by simp [hmm]
  obtain ⟨hx,hcr3⟩ := grown_coherent hgrown hex.coherent hr
  have hrx : x.process.mm.cr3 ∈ img.mm.cr3::roots := by
    rw [hcr3]
    exact hr
  have hf := doFork_forked hx hrx hu hfork
  exact duplicated_iff hf (hx.window _ hrx).1 (hf.coherent.window _ (by simp)).1

theorem first_unstepped {img : Image} {frames : ArgumentFrames} (h : FirstImage img frames) :
    ¬ Stepped img.mm.vma stackStart := by
  rintro ⟨i,hi,hpage,_⟩
  rw [h.steps] at hi
  simp only [List.mem_cons, List.not_mem_nil, or_false] at hi
  rcases hi with rfl | rfl | rfl | rfl | rfl
  all_goals exact absurd hpage (by decide)

theorem fork_duplicates_iff_first : ∃ img frames, FirstImage img frames ∧
    ¬ Duplicated (doFork img.kernel.machine img.mm).1.mem img.mm.cr3
      (doFork img.kernel.machine img.mm).2.cr3 := by
  obtain ⟨img,frames,h⟩ := first_image
  have hal := (h.executed.coherent.window img.mm.cr3 (by simp)).1
  refine ⟨img,frames,h,?_⟩
  intro hdup
  have hiff := fork_duplicates_iff first_coherent (fun _ => tinyElf) plainArgs img h.made
    (by rintro c ⟨⟩) (fun _ _ => tiny_oneSegment.headers) ⟨by decide,by decide⟩ h.shortages 0
    ⟨2,false,false,img.mm⟩ rfl _ (Grown.refl) (first_user h) (by
      apply h.forks
      rw [h.steps, h.vmas]
      decide)
  exact first_unstepped h (hiff.mp hdup stackStart (by decide)
    ((walked_iff _ hal).mpr (first_arguments h).2.2.2))

/-- The page of the argument strings is mapped for the parent, and not for the
child. -/
theorem fork_loses_page : ∃ img frames, FirstImage img frames ∧
    Walked (doFork img.kernel.machine img.mm).1.mem img.mm.cr3 stackStart ∧
    ¬ Walked (doFork img.kernel.machine img.mm).1.mem (doFork img.kernel.machine img.mm).2.cr3
      stackStart := by
  obtain ⟨img,frames,h⟩ := first_image
  have hforked := first_forked h
  have hu : User stackStart := by decide
  refine ⟨img,frames,h,?_,?_⟩
  · rw [walked_iff _ (hforked.coherent.window _ (by simp)).1, parent_frame hforked hu]
    exact (first_arguments h).2.2.2
  · rw [walked_iff _ (hforked.coherent.window _ (by simp)).1, frameAt,
      child_unstepped hforked hu (fun hs => first_unstepped h hs.1)]
    exact fun hne => hne BitVec.zero_and

end PreemptiveOS.ForkMemory
