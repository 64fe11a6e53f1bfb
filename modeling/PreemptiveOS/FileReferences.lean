import PreemptiveOS.VmaSharing

/-!
# What the calls do to the counts of files

An open and an exec set the count of a `struct file` to one, whatever number of
references the exec makes; a fork counts the new `mm_struct` but neither its
descriptors nor its VMAs. A region that is refused, a close and an exit count
down.
-/

set_option autoImplicit false

namespace PreemptiveOS.FileReferences
open ByteMemory PhysMmgr VirtMmgr PageTree Vmas KernelObjects Exec
open PageFaults (FileData tarfsReadSize)
open VmaNodes Fork FrameGrowth ExecLeaves
open NodeSpaces SpaceRefinement SpaceCopies VmaSharing
open VmaRanges (addVma_split)

def segment (phdr : Elf64Phdr) : Vma :=
  regionVma (kernelPtr 0) (some (kernelPtr 0)) phdr.pVaddr phdr.pFilesz phdr.pMemsz phdr.pOffset
    (elfProt phdr.pFlags)

def SegmentsApart (phdrs : List Elf64Phdr) : Prop :=
  phdrs.Pairwise (fun a b => a.pType = 1 → b.pType = 1 →
    isOverlappingVma (segment a) (segment b) = false)

def mappings (vmas : List Vma) (fp : KernelPtr) : ℕ := vmas.countP (fun v => v.file = some fp)

structure NewFile (k k' : Kernel) (fp : KernelPtr) : Prop where
  fresh : FreshNode k.machine fp
  held : HeldNode k'.machine fp
  one : k'.fRefcount fp = 1
  others : ∀ q, q ≠ fp → k'.fRefcount q = k.fRefcount q

def Opened (k : Kernel) (r : Kernel × Option (ℕ × KernelPtr)) : Prop :=
  (r.2 = none ∧ r.1.fRefcount = k.fRefcount) ∨
    ∃ fp, NewFile k r.1 fp ∧ ∀ d fp', r.2 = some (d,fp') → fp' = fp

variable {k : Kernel} {s : Machine}

theorem newFile_object {s' : Machine} (hf : FramesOk k.machine.pages) (hg : Grows k.machine s)
    (hg' : Grows (object s).1 s') (hok : s'.shortages = k.machine.shortages) :
    NewFile k ⟨s',fun p => if p = (object s).2 then 1 else k.fRefcount p⟩ (object s).2 := by
  have ha := object_supplied hg hg' hok
  have hfs := grows_frames hg hf
  constructor
  case fresh => exact fresh_before hg hf (object_fresh ha)
  case held => exact held_after hg' (grows_frames (grows_object s) hfs) (object_held hfs ha)
  case one => exact if_pos rfl
  case others => exact fun q hq => if_neg hq

variable {dentryCache : List (List Byte)} {fd : List (Option KernelPtr)}

theorem sysOpen_opened {pathname : List Byte} (hf : FramesOk k.machine.pages)
    (hok : (sysOpen dentryCache k fd pathname).1.machine.shortages = k.machine.shortages) :
    Opened k (sysOpen dentryCache k fd pathname) := by
  have hpath := grows_path k.machine pathname
  rw [sysOpen, tarfsOpen] at hok ⊢
  dsimp only at hok ⊢
  generalize (if startsWithDot pathname then (object k.machine).1
    else (zeroedObject (object k.machine).1).1) = s at *
  cases hfd : availableFd fd with
  | none => exact Or.inl ⟨rfl,rfl⟩
  | some i =>
    cases hfind : checkCorrectFile dentryCache (lookupName pathname) with
    | none => exact Or.inl ⟨rfl,rfl⟩
    | some d =>
      simp only [hfd, hfind] at hok
      refine Or.inr ⟨(object (zeroedObject s).1).2,?_,?_⟩
      · exact newFile_object hf (grows_trans hpath (grows_zeroedObject s))
          (grows_trans (grows_clear) (grows_object _)) hok
      · intro d' fp' he
        exact (Prod.ext_iff.mp (Option.some.inj he)).2.symm

theorem terminalOpen_opened (hf : FramesOk k.machine.pages)
    (hok : (terminalOpen k fd).1.machine.shortages = k.machine.shortages) :
    Opened k (terminalOpen k fd) := by
  have hfile : Grows (object k.machine).1 (object (zeroedObject k.machine).1).1 :=
    grows_trans (grows_clear) (grows_object _)
  right
  rw [terminalOpen] at hok ⊢
  cases hfd : availableFd fd with
  | none =>
    rw [hfd] at hok
    exact ⟨_,newFile_object hf (grows_same rfl rfl)
      (grows_trans hfile (grows_work (work_release _ _))) hok,fun d fp' he => by cases he⟩
  | some i =>
    rw [hfd] at hok
    refine ⟨_,newFile_object hf (grows_same rfl rfl) hfile hok,?_⟩
    intro d fp' he
    exact (Prod.ext_iff.mp (Option.some.inj he)).2.symm

variable {vmas : List Vma} {vma : Vma}

theorem findVmaPrevFrom_overlaps (i : ℕ) (h : Vmas.findVmaPrevFrom vma i vmas = .overlaps) :
    ∃ c ∈ vmas, isOverlappingVma c vma = true := by
  induction vmas generalizing i with
  | nil => cases h
  | cons curr rest ih =>
    by_cases hover : isOverlappingVma curr vma = true
    · exact ⟨curr,List.mem_cons_self,hover⟩
    · cases rest with
      | nil =>
        simp only [Vmas.findVmaPrevFrom] at h
        split_ifs at h
      | cons next rest =>
        rw [Vmas.findVmaPrevFrom, if_neg hover] at h
        split_ifs at h
        obtain ⟨c,hc,hover'⟩ := ih (i+1) h
        exact ⟨c,List.mem_cons_of_mem _ hc,hover'⟩

theorem addVma_failed (h : Vmas.addVma vmas vma = .failed) :
    ∃ c ∈ vmas, isOverlappingVma c vma = true := by
  rcases addVma_split vmas vma with ⟨hprev,_⟩ | ⟨_,hwild⟩ | ⟨_,_,_,hadded,_⟩
  · cases vmas with
    | nil => cases hprev
    | cons curr rest =>
      rw [Vmas.findVmaPrev] at hprev
      split_ifs at hprev
      exact findVmaPrevFrom_overlaps 0 hprev
  · rw [hwild] at h
    cases h
  · rw [hadded] at h
    cases h

variable {vmas' : List Vma}

theorem addVma_added (h : Vmas.addVma vmas vma = .added vmas') :
    ∀ v ∈ vmas', v = vma ∨ v ∈ vmas := by
  rcases addVma_split vmas vma with ⟨_,hfailed⟩ | ⟨_,hwild⟩ | ⟨vmas₁,vmas₂,rfl,hadded,_⟩
  · rw [hfailed] at h
    cases h
  · rw [hwild] at h
    cases h
  · rw [hadded] at h
    obtain rfl := AddVma.added.inj h
    intro v hv
    simp only [List.mem_append, List.mem_cons] at hv ⊢
    tauto

theorem closeFile_counts (k : Kernel) (file : Option KernelPtr) :
    (closeFile { k with machine := s } file).fRefcount = (closeFile k file).fRefcount := by
  cases file <;> rfl

def RegionEnds (k : Kernel) (vmas : List Vma) (file : Option KernelPtr) (vma : Vma)
    (r : Kernel × Region) : Prop :=
  (r.1.fRefcount = k.fRefcount ∧ (r.2 = .failed ∨ r.2 = .wild ∨
    ∃ vmas', r.2 = .mapped vmas' vma ∧ Vmas.addVma vmas vma = .added vmas')) ∨
  (r.1.fRefcount = (closeFile k file).fRefcount ∧ r.2 = .failed ∧ Vmas.addVma vmas vma = .failed)

theorem region_ends (k : Kernel) (vmas : List Vma) (file : Option KernelPtr)
    (addr filesz memsz off prot : Word) :
    RegionEnds k vmas file (regionVma (object k.machine).2 file addr filesz memsz off prot)
      (KernelObjects.mmapRegion k vmas file addr filesz memsz off prot) := by
  unfold KernelObjects.mmapRegion
  dsimp only
  split_ifs
  · exact Or.inl ⟨rfl,Or.inl rfl⟩
  · exact Or.inl ⟨rfl,Or.inl rfl⟩
  · exact Or.inl ⟨rfl,Or.inl rfl⟩
  · have hfile : (regionVma (object k.machine).2 file addr filesz memsz off prot).file = file := rfl
    generalize regionVma (object k.machine).2 file addr filesz memsz off prot = vma at *
    cases hadd : Vmas.addVma vmas vma with
    | added vmas' => exact Or.inl ⟨rfl,Or.inr (Or.inr ⟨vmas',rfl,hadd⟩)⟩
    | wild => exact Or.inl ⟨rfl,Or.inr (Or.inl rfl)⟩
    | failed =>
      refine Or.inr ⟨?_,rfl,hadd⟩
      rw [← hfile]
      exact closeFile_counts k vma.file

def Segments (file : KernelPtr) (done : List Elf64Phdr) (vmas : List Vma) : Prop :=
  ∀ v ∈ vmas, v.file = some file ∧ ∃ a ∈ done, a.pType = 1 ∧
    v.startAddr = (segment a).startAddr ∧ v.endAddr = (segment a).endAddr

variable {file : KernelPtr}

theorem loadSegments_counts {phdrs : List Elf64Phdr} (done : List Elf64Phdr) (k : Kernel)
    (vmas : List Vma) (hdone : Segments file done vmas) (hapart : SegmentsApart (done++phdrs)) :
    (Exec.loadSegments file phdrs k vmas).1.fRefcount = k.fRefcount ∧
    ∀ vmas' ok, stageView (Exec.loadSegments file phdrs k vmas).2 = some (vmas',ok) →
      ∀ v ∈ vmas', v.file = some file := by
  have hfiles : ∀ {vmas done b}, Segments file done vmas → ∀ vmas' (ok : Bool),
      some (vmas,b) = some (vmas',ok) → ∀ v ∈ vmas', v.file = some file := by
    intro vmas done b hd vmas' ok he v hv
    obtain ⟨rfl,_⟩ := Prod.mk.inj (Option.some.inj he)
    exact (hd v hv).1
  induction phdrs generalizing done k vmas with
  | nil => exact ⟨rfl,hfiles hdone⟩
  | cons phdr rest ih =>
    have hsplit : done++phdr::rest = done++[phdr]++rest := by simp
    have hlater : Segments file (done++[phdr]) vmas := by
      intro v hv
      obtain ⟨hfile,a,ha,hseg⟩ := hdone v hv
      exact ⟨hfile,a,List.mem_append_left _ ha,hseg⟩
    rw [Exec.loadSegments]
    by_cases hload : phdr.pType = 1
    · rw [if_pos hload]
      have hregion : RegionEnds k vmas (some file) _ (Exec.elfMap k vmas file phdr) :=
        region_ends k vmas (some file) phdr.pVaddr phdr.pFilesz phdr.pMemsz phdr.pOffset
          (elfProt phdr.pFlags)
      generalize Exec.elfMap k vmas file phdr = r at *
      obtain ⟨k',region⟩ := r
      rcases hregion with ⟨hcount,rfl | rfl | ⟨vmas',rfl,hadd⟩⟩ | ⟨_,_,hadd⟩
      · exact ⟨hcount,hfiles hdone⟩
      · exact ⟨hcount,fun vmas' ok he => by cases he⟩
      · have hdone' : Segments file (done++[phdr]) vmas' := by
          intro v hv
          rcases addVma_added hadd v hv with rfl | hv
          · exact ⟨rfl,phdr,by simp,hload,rfl,rfl⟩
          · exact hlater v hv
        dsimp only
        by_cases hint : (phdr.pVaddr.setWidth 32).msb = true
        · rw [if_pos hint]
          exact ⟨hcount,hfiles hdone'⟩
        · rw [if_neg hint]
          have hrest := ih (done++[phdr]) k' vmas' hdone' (by rwa [← hsplit])
          rwa [hcount] at hrest
      · -- a refused segment overlaps one of those that are loaded
        obtain ⟨c,hc,hover⟩ := addVma_failed hadd
        obtain ⟨_,a,ha,hatype,hstart,hend⟩ := hdone c hc
        have hnot := (List.pairwise_append.mp hapart).2.2 a ha phdr (by simp) hatype hload
        rw [isOverlappingVma, ← hstart, ← hend] at hnot
        rw [isOverlappingVma] at hover
        exact absurd (hover.symm.trans hnot) (by decide)
    · rw [if_neg hload]
      exact ih (done++[phdr]) k vmas hlater (by rwa [← hsplit])

variable {ok : Bool}

theorem addNode_files (hfile : vma.file = none)
    (h : stageView (Exec.addNode s vmas vma).2 = some (vmas',ok)) :
    ∀ v ∈ vmas', v.file = none ∨ v ∈ vmas := by
  rw [Exec.addNode] at h
  cases hadd : Vmas.addVma vmas vma with
  | added vmas'' =>
    simp only [hadd, stageView, Option.some.injEq, Prod.mk.injEq] at h
    obtain ⟨rfl,_⟩ := h
    intro v hv
    rcases addVma_added hadd v hv with rfl | hv
    · exact Or.inl hfile
    · exact Or.inr hv
  | failed =>
    simp only [hadd, stageView, Option.some.injEq, Prod.mk.injEq] at h
    obtain ⟨rfl,_⟩ := h
    exact fun v hv => Or.inr hv
  | wild => simp [hadd, stageView] at h

variable {args : ExecArgs}

theorem heapAndStack_files {cr3 : Word}
    (h : stageView (Exec.heapAndStack s cr3 vmas args).2 = some (vmas',ok)) :
    ∀ v ∈ vmas', v.file = none ∨ v ∈ vmas := by
  have hheap : ∀ vmas'' ok, stageView (Exec.doHeapVma s vmas).2 = some (vmas'',ok) →
      ∀ v ∈ vmas'', v.file = none ∨ v ∈ vmas := by
    intro vmas'' ok hview
    unfold Exec.doHeapVma at hview
    split at hview
    · cases hview
    · refine addNode_files ?_ hview
      rfl
  rw [Exec.heapAndStack] at h
  generalize Exec.doHeapVma s vmas = r at *
  obtain ⟨s₁,stage⟩ := r
  cases stage with
  | ok vmas'' =>
    have hstack := addNode_files rfl h
    intro v hv
    rcases hstack v hv with hnone | hv
    · exact Or.inl hnone
    · exact hheap vmas'' true rfl v hv
  | failed vmas'' => exact hheap vmas' ok h
  | wild => cases h

variable {files : KernelPtr → FileData}

theorem build_files (k : Kernel) (cr3 : Word) (file : KernelPtr) (args : ExecArgs)
    (hapart : ∀ phdrs, (readHeaders k.machine (files file)).2 = .read phdrs → SegmentsApart phdrs) :
    (buildStage files k cr3 file args).1.fRefcount = k.fRefcount ∧
    ∀ vmas ok, stageView (buildStage files k cr3 file args).2 = some (vmas,ok) →
      ∀ v ∈ vmas, v.file = none ∨ v.file = some file := by
  have hload : (Exec.loadElfBinary files k file).1.fRefcount = k.fRefcount ∧
      ∀ vmas ok, stageView (Exec.loadElfBinary files k file).2 = some (vmas,ok) →
        ∀ v ∈ vmas, v.file = some file := by
    rw [loadElfBinary_headers]
    generalize readHeaders k.machine (files file) = r at *
    obtain ⟨s,r⟩ := r
    cases r with
    | refused =>
      refine ⟨rfl,?_⟩
      intro vmas ok he
      obtain ⟨rfl,_⟩ : [] = vmas ∧ false = ok := by simpa [stageView] using he
      exact fun v hv => absurd hv List.not_mem_nil
    | unread => exact ⟨rfl,fun vmas ok he => by cases he⟩
    | read phdrs =>
      exact loadSegments_counts [] ⟨s,k.fRefcount⟩ []
        (fun v hv => absurd hv List.not_mem_nil) (hapart phdrs rfl)
  unfold buildStage
  generalize Exec.loadElfBinary files k file = loaded at *
  obtain ⟨k',stage⟩ := loaded
  obtain ⟨hcount,hfiles⟩ := hload
  cases stage with
  | ok vmas =>
    refine ⟨hcount,?_⟩
    intro vmas' ok he v hv
    rcases heapAndStack_files he v hv with hnone | hv
    · exact Or.inl hnone
    · exact Or.inr (hfiles vmas true rfl v hv)
  | failed vmas =>
    exact ⟨hcount,fun vmas' ok he v hv => Or.inr (hfiles vmas' ok he v hv)⟩
  | wild => exact ⟨hcount,fun vmas' ok he => by cases he⟩

def ClosesOnce (k : Kernel) (file : Option KernelPtr) (r : Result) : Prop :=
  (r.closes = [] ∧ r.kernel.fRefcount = k.fRefcount) ∨
    (r.closes = closeOf k file ∧ r.kernel.fRefcount = (closeFile k file).fRefcount)

variable {addr off : Word}

theorem region_closes (k : Kernel) (x : VmaList) (file : Option KernelPtr)
    {filesz memsz prot : Word} :
    ClosesOnce k file (NodeSpaces.mmapRegion k x file addr filesz memsz off prot) ∧
    ∀ x', (NodeSpaces.mmapRegion k x file addr filesz memsz off prot).space = some (x',true) →
      (NodeSpaces.mmapRegion k x file addr filesz memsz off prot).closes = [] ∧
      (NodeSpaces.mmapRegion k x file addr filesz memsz off prot).kernel.fRefcount = k.fRefcount := by
  unfold NodeSpaces.mmapRegion
  dsimp only
  split_ifs
  · exact ⟨Or.inl ⟨rfl,rfl⟩,fun x' _ => ⟨rfl,rfl⟩⟩
  · exact ⟨Or.inl ⟨rfl,rfl⟩,fun x' _ => ⟨rfl,rfl⟩⟩
  · exact ⟨Or.inl ⟨rfl,rfl⟩,fun x' _ => ⟨rfl,rfl⟩⟩
  · rcases addNew (object k.machine).1 x
      (regionVma (object k.machine).2 file addr filesz memsz off prot) with _ | ⟨x',_ | _⟩
    · exact ⟨Or.inl ⟨rfl,rfl⟩,fun x' _ => ⟨rfl,rfl⟩⟩
    · refine ⟨Or.inr ⟨?_,closeFile_counts k file⟩,fun x' he => by simp at he⟩
      cases file <;> rfl
    · exact ⟨Or.inl ⟨rfl,rfl⟩,fun x' _ => ⟨rfl,rfl⟩⟩

theorem loadSegments_closes (file : KernelPtr) (phdrs : List Elf64Phdr) (k : Kernel) (x : VmaList) :
    ClosesOnce k (some file) (NodeSpaces.loadSegments file phdrs k x) := by
  induction phdrs generalizing k x with
  | nil => exact Or.inl ⟨rfl,rfl⟩
  | cons phdr rest ih =>
    have hregion : ClosesOnce k (some file) (NodeSpaces.elfMap k x file phdr) ∧
        ∀ x', (NodeSpaces.elfMap k x file phdr).space = some (x',true) →
          (NodeSpaces.elfMap k x file phdr).closes = [] ∧
          (NodeSpaces.elfMap k x file phdr).kernel.fRefcount = k.fRefcount :=
      region_closes k x (some file)
    rw [NodeSpaces.loadSegments]
    by_cases hload : phdr.pType = 1
    · rw [if_pos hload]
      generalize NodeSpaces.elfMap k x file phdr = r at *
      obtain ⟨k',closes,space⟩ := r
      obtain ⟨honce,hnone⟩ := hregion
      rcases space with _ | ⟨x',_ | _⟩
      · exact honce
      · exact honce
      · obtain ⟨rfl,hcount⟩ : closes = [] ∧ k'.fRefcount = k.fRefcount := hnone x' rfl
        dsimp only
        by_cases hint : (phdr.pVaddr.setWidth 32).msb = true
        · rw [if_pos hint]
          exact honce
        · rw [if_neg hint]
          have hrest := ih k' x'
          generalize NodeSpaces.loadSegments file rest k' x' = r' at *
          simpa [ClosesOnce, closeOf, closeFile, tarfsClose, hcount] using hrest
    · rw [if_neg hload]
      exact ih k x

theorem buildSpace_closes (files : KernelPtr → FileData) (k : Kernel) (x : VmaList) (cr3 : Word)
    (file : KernelPtr) (args : ExecArgs) :
    ClosesOnce k (some file) (buildSpace files k x cr3 file args) := by
  have hload : ClosesOnce k (some file) (NodeSpaces.loadElfBinary files k x file) := by
    unfold NodeSpaces.loadElfBinary
    cases (readHeaders k.machine (files file)).2 with
    | refused => exact Or.inl ⟨rfl,rfl⟩
    | unread => exact Or.inl ⟨rfl,rfl⟩
    | read phdrs => exact loadSegments_closes file phdrs _ x
  unfold buildSpace
  generalize NodeSpaces.loadElfBinary files k x file = loaded at *
  obtain ⟨k',closes,space⟩ := loaded
  rcases space with _ | ⟨x',_ | _⟩ <;> exact hload

theorem beforeRoot_file (h : (beforeRoot k args).2 = some file) :
    ∃ s, Grows k.machine s ∧ file = (object s).2 ∧
      Grows (object s).1 (beforeRoot k args).1.machine ∧
      (beforeRoot k args).1.fRefcount = fun p => if p = file then 1 else k.fRefcount p := by
  have hname : Grows k.machine (if args.relative then (object (object (object k.machine).1).1).1
      else (zeroedObject (object (object k.machine).1).1).1) := by
    have htwice := grows_trans (grows_object k.machine) (grows_object _)
    split_ifs
    · exact grows_trans htwice (grows_object _)
    · exact grows_trans htwice (grows_zeroedObject _)
  have hclear := fun s => clearCommand_rest s args.command
  rw [beforeRoot, doOpenExec] at h ⊢
  dsimp only at h ⊢
  generalize (if args.relative then (object (object (object k.machine).1).1).1
    else (zeroedObject (object (object k.machine).1).1).1) = s at *
  cases hfound : args.found with
  | false => simp [hfound] at h
  | true =>
    simp only [hfound, if_true] at h ⊢
    obtain rfl := Option.some.inj h
    refine ⟨s,hname,rfl,?_,rfl⟩
    exact grows_trans (grows_clear) (grows_trans (grows_object _) (grows_trans (grows_object _)
      (grows_trans (grows_same (hclear _).1 (hclear _).2) (grows_zeroedObject _))))

variable {e : Execed} {n : Nodes} {p : Process} {fp : KernelPtr}

/-- An exec of an executable whose segments are apart sets up one new file and
closes none. -/
theorem exec_counts {img : Image} (hf : FramesOk k.machine.pages)
    (he : NodeSpaces.doExecve files k n args = some e)
    (himg : Exec.doExecve files k args = some img) (hd : Depicts k n img e)
    (hok : e.kernel.machine.shortages = k.machine.shortages)
    (hapart : ∀ file phdrs, (beforeRoot k args).2 = some file →
      (readHeaders (afterRoot k args).machine (files file)).2 = .read phdrs → SegmentsApart phdrs) :
    ∃ file, e.mm.file = some file ∧ NewFile k e.kernel file ∧ e.closes = [] ∧
      ∀ v ∈ img.mm.vma, v.file = none ∨ v.file = some file := by
  obtain ⟨file,hfile,hmm⟩ := exec_file he
  obtain ⟨s,hs,rfl,hs',hcounts⟩ := beforeRoot_file hfile
  have hroot := grows_copyPageTables (beforeRoot k args).1.machine
  have hheaders := fun phdrs => hapart _ phdrs hfile
  rw [execve_stages, hfile, Option.bind_some] at himg
  rw [NodeSpaces.doExecve] at he
  unfold afterRoot at hheaders
  dsimp only at he himg
  rw [hfile] at he
  dsimp only at he
  generalize copyPageTables (beforeRoot k args).1.machine (beforeRoot k args).1.machine.pml4 4 =
    root at *
  generalize (beforeRoot k args).1 = k₁ at *
  obtain ⟨hsame,hfiles⟩ := build_files { k₁ with machine := root.1 } root.2 (object s).2 args
    hheaders
  have honce := buildSpace_closes files { k₁ with machine := root.1 } ⟨n,none⟩ root.2 (object s).2
    args
  have hbuild := grows_buildStage files { k₁ with machine := root.1 } root.2 (object s).2 args
  have hkernel := hd.kernel
  generalize buildSpace files { k₁ with machine := root.1 } ⟨n,none⟩ root.2 (object s).2 args = r at *
  generalize buildStage files { k₁ with machine := root.1 } root.2 (object s).2 args = stage at *
  obtain ⟨y,hy,rfl⟩ := Option.map_eq_some_iff.mp he
  obtain ⟨k',stage⟩ := stage
  obtain ⟨rfl,hview⟩ : k' = img.kernel ∧ stageView stage = some (img.mm.vma,img.ok) := by
    cases stage with
    | ok vmas =>
      obtain rfl := Option.some.inj himg
      exact ⟨rfl,rfl⟩
    | failed vmas =>
      obtain rfl := Option.some.inj himg
      exact ⟨rfl,rfl⟩
    | wild => cases himg
  dsimp only at hkernel hsame hok
  refine ⟨(object s).2,rfl,?_,?_,hfiles _ _ hview⟩
  · dsimp only
    rw [hkernel] at hok ⊢
    have hnew := newFile_object hf hs (grows_trans hs' (grows_trans hroot hbuild)) hok
    exact ⟨hnew.fresh,hnew.held,by rw [hsame, hcounts]; exact hnew.one,
      fun q hq => by rw [hsame, hcounts]; exact hnew.others q hq⟩
  · rcases honce with ⟨hnone,_⟩ | ⟨_,hclosed⟩
    · exact hnone
    · -- a close would have left a count of zero
      have hzero : r.kernel.fRefcount (object s).2 = k₁.fRefcount (object s).2-1 := by
        rw [hclosed]
        exact if_pos rfl
      rw [hkernel, hsame, hcounts] at hzero
      simp at hzero

theorem sub_one_ne_zero {c : Word} (h : c ≠ 1) : c-1 ≠ 0 := fun he => h (by
  rw [← BitVec.sub_add_cancel c 1, he]
  rfl)

theorem fork_counts {r : Kernel × Nodes × Option Process} (h : doFork k n p = some r) :
    ∃ file, p.mm.file = some file ∧ Grows k.machine r.1.machine ∧
      r.1.fRefcount = (fun q => if q = file then k.fRefcount q+1 else k.fRefcount q) ∧
      ∀ child, r.2.2 = some child → child.fd = copyFds p.fd ∧ child.mm.file = some file := by
  obtain ⟨file,hfile,h⟩ := Option.bind_eq_some_iff.mp h
  obtain ⟨dup,hd,h⟩ := Option.bind_eq_some_iff.mp h
  obtain ⟨vmas,_,rfl⟩ := Option.map_eq_some_iff.mp h
  have hdup := grows_trans (grows_work (work_forkObjects k.machine))
    (grows_dupMmFrom _ _ _ _ _ hd)
  have hcopy := grows_trans (grows_copyVm dup.1 vmas p.mm.cr3) (grows_work (work_forkThread _))
  refine ⟨file,hfile,grows_trans hdup hcopy,rfl,?_⟩
  intro child hc
  dsimp only at hc
  split_ifs at hc
  obtain rfl := Option.some.inj hc
  exact ⟨rfl,rfl⟩

theorem copyFds_mem (h : some fp ∈ copyFds fd) : some fp ∈ fd := by
  induction fd with
  | nil => exact h
  | cons slot rest ih =>
    cases slot with
    | none => simp [copyFds] at h
    | some q =>
      rw [copyFds, List.mem_cons] at h
      rcases h with heq | h
      · rw [heq]
        exact List.mem_cons_self
      · exact List.mem_cons_of_mem _ (ih h)

theorem dupMm_files (s : Machine) (h : ∃ v ∈ (Fork.dupMm s vmas).2, v.file = some fp) :
    ∃ v ∈ vmas, v.file = some fp := by
  induction vmas generalizing s with
  | nil => exact h
  | cons vma vmas ih =>
    obtain ⟨v,hv,hfile⟩ := h
    rw [Fork.dupMm, List.mem_cons] at hv
    rcases hv with rfl | hv
    · exact ⟨vma,List.mem_cons_self,hfile⟩
    · obtain ⟨w,hw,hwf⟩ := ih (object s).1 ⟨v,hv,hfile⟩
      exact ⟨w,List.mem_cons_of_mem _ hw,hwf⟩

theorem mmap_closes (k : Kernel) (x : VmaList) (c : VmaRuns.MmapCall) :
    ClosesOnce k (c.source.map Prod.fst) (NodeSpaces.mmap k x c) := by
  unfold NodeSpaces.mmap
  dsimp only
  split_ifs
  · exact Or.inl ⟨rfl,rfl⟩
  · split
    · exact Or.inl ⟨rfl,rfl⟩
    · exact (region_closes k x _).1

variable {c : VmaRuns.MmapCall}

theorem mmap_files (h : regionView vmas (VmaRuns.mmap k vmas c).2 = some (vmas',ok)) :
    ∀ v ∈ vmas', v.file = c.source.map Prod.fst ∨ v ∈ vmas := by
  have hsame : ∀ ok', some (vmas,ok') = some (vmas',ok) →
      ∀ v ∈ vmas', v.file = c.source.map Prod.fst ∨ v ∈ vmas := by
    intro ok' he v hv
    obtain ⟨rfl,_⟩ := Prod.ext_iff.mp (Option.some.inj he)
    exact Or.inr hv
  unfold VmaRuns.mmap at h
  dsimp only at h
  split at h
  · exact hsame false h
  · split at h
    · cases h
    · rename_i area _
      have hends := region_ends k vmas (c.source.map Prod.fst) area (VmaRuns.fileSize c) c.len c.off
        c.prot
      generalize KernelObjects.mmapRegion k vmas (c.source.map Prod.fst) area (VmaRuns.fileSize c)
        c.len c.off c.prot = r at *
      obtain ⟨k',region⟩ := r
      rcases hends with ⟨_,rfl | rfl | ⟨vmas'',rfl,hadd⟩⟩ | ⟨_,rfl,_⟩
      · exact hsame false h
      · cases h
      · obtain ⟨rfl,_⟩ := Prod.ext_iff.mp (Option.some.inj h)
        intro v hv
        rcases addVma_added hadd v hv with rfl | hv
        · exact Or.inl rfl
        · exact Or.inr hv
      · exact hsame false h

theorem exitFiles_counted (h : ∀ fp, some fp ∈ fd → k.fRefcount fp ≠ 0) :
    exitFiles k fd = (k,[]) := by
  induction fd with
  | nil => rfl
  | cons slot rest ih =>
    cases slot with
    | none => rfl
    | some fp =>
      rw [exitFiles, if_neg (h fp List.mem_cons_self)]
      exact ih (fun q hq => h q (List.mem_cons_of_mem _ hq))

theorem mappings_cons (vma : Vma) (vmas : List Vma) (fp : KernelPtr) :
    mappings (vma::vmas) fp = mappings vmas fp+if vma.file = some fp then 1 else 0 := by
  simp [mappings, List.countP_cons]

theorem deallocateVma_counts (k : Kernel) (vma : Vma) (fp : KernelPtr) :
    (deallocateVma k vma).fRefcount fp =
      k.fRefcount fp-BitVec.ofNat 64 (if vma.file = some fp then 1 else 0) := by
  rw [deallocateVma]
  cases hfile : vma.file with
  | none => simp [closeFile]
  | some q =>
    by_cases hq : fp = q
    · subst hq
      simp [closeFile, tarfsClose]
    · have hne : some q ≠ some fp := fun he => hq (Option.some.inj he).symm
      simp [closeFile, tarfsClose, hq, hne]

theorem freeVmas_counts (vmas : List Vma) (k : Kernel) (fp : KernelPtr) :
    (FrameCounts.freeVmas k vmas).fRefcount fp =
      k.fRefcount fp-BitVec.ofNat 64 (mappings vmas fp) := by
  induction vmas generalizing k with
  | nil => simp [FrameCounts.freeVmas, mappings]
  | cons vma vmas ih =>
    have hrest := ih (deallocateVma k vma)
    rw [FrameCounts.freeVmas, List.foldl_cons]
    rw [FrameCounts.freeVmas] at hrest
    rw [hrest, deallocateVma_counts, mappings_cons, BitVec.ofNat_add]
    ring

theorem vmaCloses_counts (k : Kernel) {c : Close} (h : c ∈ vmaCloses k vmas) :
    ∃ j < mappings vmas c.file, c.count = k.fRefcount c.file-BitVec.ofNat 64 j := by
  induction vmas generalizing k with
  | nil => cases h
  | cons vma vmas ih =>
    rw [vmaCloses, List.mem_append] at h
    rw [mappings_cons]
    rcases h with h | h
    · cases hfile : vma.file with
      | none =>
        rw [hfile] at h
        cases h
      | some fp =>
        rw [hfile] at h
        obtain rfl : c = ⟨fp,k.fRefcount fp⟩ := by simpa [closeOf] using h
        exact ⟨0,by simp,by simp⟩
    · obtain ⟨j,hj,hcount⟩ := ih (deallocateVma k vma) h
      refine ⟨j+if vma.file = some c.file then 1 else 0,by omega,?_⟩
      rw [hcount, deallocateVma_counts, BitVec.ofNat_add]
      ring

theorem sub_ofNat_toNat (c : Word) (j : ℕ) (h : j ≤ c.toNat) :
    (c-BitVec.ofNat 64 j).toNat = c.toNat-j := by
  have hlt := c.isLt
  rw [BitVec.toNat_sub_of_le, BitVec.toNat_ofNat, Nat.mod_eq_of_lt (by omega)]
  rw [BitVec.le_def, BitVec.toNat_ofNat, Nat.mod_eq_of_lt (by omega)]
  exact h

def fileHeaders (file : FileData) : List Elf64Phdr :=
  (List.range (file.bytes 57 ++ file.bytes 56 : BitVec 16).toNat).map
    (fun i => phdrAt file.bytes ((load file.bytes 32).toNat+56*i))

theorem table_headers {file : FileData} (hwhole : 64 ≤ file.size.toInt)
    (hident : file.bytes 0 = 0x7f ∧ file.bytes 1 = 0x45 ∧ file.bytes 2 = 0x4c ∧
      file.bytes 3 = 0x46 ∧ file.bytes 4 = 2 ∧ file.bytes 5 = 1)
    (hfit : 56*(file.bytes 57 ++ file.bytes 56 : BitVec 16).toNat ≤ 4096)
    (hread : (tarfsReadSize file (56*(file.bytes 57 ++ file.bytes 56 : BitVec 16).setWidth 64)
      (load file.bytes 32)).setWidth 32 =
        BitVec.ofNat 32 (56*(file.bytes 57 ++ file.bytes 56 : BitVec 16).toNat))
    (s : Machine) (hs : Supplied 2 s s) :
    (readHeaders s file).2 = .read (fileHeaders file) := by
  have hsome := (ehdr_read file hwhole s).1
  obtain ⟨hphdr,hnum,hat⟩ := Supply.table_read hwhole rfl rfl hfit hread hs
  unfold readHeaders
  rw [hsome]
  dsimp only
  rw [if_pos (Supply.header_valid hwhole hident s), hphdr, hnum]
  refine congrArg Headers.read (List.map_congr_left ?_)
  intro i hi
  exact hat i (List.mem_range.mp hi)

theorem oneSegment_headers {file : FileData} {phdr : Elf64Phdr}
    (h : Supply.OneSegment file off phdr) (hs : Supplied 2 s s) :
    (readHeaders s file).2 = .read [phdr] := by
  have hone : fileHeaders file = [phdr] := by
    rw [fileHeaders, h.phnum, h.phoff, ← h.header]
    rfl
  rw [← hone]
  apply table_headers h.headers.whole h.ident
  · rw [h.phnum]
    decide
  · rw [h.phnum, h.phoff]
    exact h.size
  · exact hs

end PreemptiveOS.FileReferences
