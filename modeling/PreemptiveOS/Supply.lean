import PreemptiveOS.AddressSpaces
import PreemptiveOS.ExecLeaves

/-!
# Enough frames for an exec and a fork

Where the kernel root has no entries, copying it takes one frame, and the
frames that an exec or a fork takes are easily counted. With that many unused
frames no allocation fails, and an executable with one segment is loaded.
-/

set_option autoImplicit false

namespace PreemptiveOS.Supply
open ByteMemory PhysMmgr TableForest VirtMmgr PageTree PageRecords FreshFrames Ownership
open AddressSpaces Vmas KernelObjects Fork PageFaults Exec ExecLeaves

variable {is roots : List Word} {r : Word} {kernel : ℕ → Prop}

section
variable {n : ℕ} {s₀ s : Machine}

theorem supplied_less {m : ℕ} (hm : m ≤ n) (h : Supplied n s₀ s) : Supplied m s₀ s :=
  ⟨h.1,h.2.1,hm.trans h.2.2⟩

theorem supplied_mem {m : Mem} (h : Supplied n s₀ s) : Supplied n s₀ { s with mem := m } := h

theorem supplied_object (h : Supplied (n+1) s₀ s) : Supplied n s₀ (object s).1 :=
  (alloc_supplied h).1

theorem supplied_zeroedObject (h : Supplied (n+1) s₀ s) : Supplied n s₀ (zeroedObject s).1 :=
  (alloc_supplied h).1

theorem copyPageTables_empty (hroot : Aligned s.pml4) (hal : Aligned (alloc s).2)
    (hne : frameOf s.pml4 ≠ frameOf (alloc s).2)
    (hz : ∀ j, tables s.mem (frameOf s.pml4) j = 0) :
    ∃ m, (copyPageTables s s.pml4 4).1 = { (alloc s).1 with mem := m } := by
  obtain ⟨m,hm⟩ := copyEntries_empty (fun s t => (copyTable 2 s t).1) s.pml4 (alloc s).2 hroot hal
    hne (List.finRange 512) (alloc s).1 hz
  refine ⟨m,?_⟩
  rw [copyPageTables_four, copyLevel, hm]

theorem supplied_root (h : Coherent kernel 1 roots s)
    (hz : ∀ j, tables s.mem (frameOf s.pml4) j = 0) (hs : Supplied (n+1) s₀ s) :
    Supplied n s₀ (copyPageTables s s.pml4 4).1 := by
  obtain ⟨hsup,ha⟩ := alloc_supplied hs
  have hu : Unused s.pages (alloc s).2 := alloc_unused s.pages ha
  obtain ⟨m,hm⟩ := copyPageTables_empty h.aligned (alloc_aligned h.forest.frames)
    (kernel_used h _ hu) hz
  rw [hm]
  exact hsup

theorem freeCount_increment {a : Word} {pages : List Page} :
    freeCount (incrementReferenceCountOfPage a pages) = freeCount pages := by
  apply freeCount_map
  intro p
  split_ifs <;> rfl

theorem supplied_share (r c i : Word) (h : Supplied (n+3) s₀ s) :
    Supplied n s₀ (sharePage r c s i) := by
  simp only [sharePage]
  split_ifs
  · exact supplied_less (by omega) h
  · obtain ⟨hf,hsh,hn⟩ := map_supplied clearTable n s₀ s i (walkPml4 s.mem r i) shareFlags c false h
    refine ⟨framesOk_congr (addresses_increment _ _) hf,hsh,?_⟩
    exact hn.trans (freeCount_increment).ge

theorem supplied_protect (s : Machine) (h : Supplied n s₀ s) :
    Supplied n s₀ (is.foldl (protectPage r) s) := by
  induction is generalizing s with
  | nil => exact h
  | cons i is ih =>
    have hrest := PageFlags.changeFlags_rest s i r (shareFlags.setWidth 64)
    apply ih
    rw [protectPage, Supplied, hrest.1, hrest.2.2]
    exact h

end

variable {s₀ : Machine} {n : ℕ}

theorem supplied_shares {c : Word} (s : Machine) (h : Supplied (n+3*is.length) s₀ s) :
    Supplied n s₀ (is.foldl (sharePage r c) s) := by
  induction is generalizing s with
  | nil => exact h
  | cons i is ih =>
    apply ih
    apply supplied_share
    rw [List.length_cons] at h
    exact supplied_less (by omega) h

theorem supplied_dupMm (vmas : List Vma) (n : ℕ) (s : Machine) (h : Supplied (n+vmas.length) s₀ s) :
    Supplied n s₀ (dupMm s vmas).1 := by
  induction vmas generalizing s with
  | nil => exact h
  | cons vma vmas ih => exact ih _ (supplied_object h)

variable {s : Machine}

theorem supplied_fork (h : Coherent kernel 1 roots s)
    (hz : ∀ j, tables s.mem (frameOf s.pml4) j = 0) (parent : MmStruct) (n : ℕ)
    (hs : Supplied (n+3*(allSteps parent.vma).length+parent.vma.length+8) s s) :
    Supplied n s (doFork s parent).1 := by
  have hobj : Supplied (n+2+3*(allSteps parent.vma).length+1+parent.vma.length) s
      (forkObjects s) := by
    apply supplied_object
    apply supplied_zeroedObject
    apply supplied_zeroedObject
    apply supplied_object
    apply supplied_zeroedObject
    exact supplied_less (by omega) hs
  have hdup := supplied_dupMm parent.vma _ _ hobj
  have hwork := work_forkCopies s parent.vma
  have hfresh := hwork.fresh h.forest.frames hdup.2.1
  rw [doFork]
  generalize dupMm (forkObjects s) parent.vma = d at *
  obtain ⟨h₁,_⟩ := fresh_leaf h d.1 hfresh
  have hz₁ : ∀ j, tables d.1.mem (frameOf d.1.pml4) j = 0 := by
    intro j
    rw [hfresh.root, fresh_kernel h d.1 hfresh _ (h.tables _ ⟨_,[],⟨rfl,by simp⟩,rfl⟩) j]
    exact hz j
  have hroot := supplied_root h₁ hz₁ hdup
  have hcopy : Supplied (n+2) s (copyVm d.1 parent.vma parent.cr3).1 := by
    rw [copyVm]
    generalize copyPageTables d.1 d.1.pml4 4 = c at *
    exact supplied_shares _ (supplied_protect _ hroot)
  exact supplied_object (supplied_zeroedObject hcopy)

structure OneSegment (file : FileData) (off : Word) (phdr : Elf64Phdr) : Prop where
  headers : HeadersFit file
  ident : file.bytes 0 = 0x7f ∧ file.bytes 1 = 0x45 ∧ file.bytes 2 = 0x4c ∧ file.bytes 3 = 0x46 ∧
    file.bytes 4 = 2 ∧ file.bytes 5 = 1
  phnum : (file.bytes 57 ++ file.bytes 56 : BitVec 16) = 1
  phoff : load file.bytes 32 = off
  size : (tarfsReadSize file 56 off).setWidth 32 = 56
  header : phdrAt file.bytes off.toNat = phdr
  loadable : phdr.pType = 1

theorem phdrAt_shift (m m' : Mem) (a b : ℕ) (h : ∀ i < 56, m (a+i) = m' (b+i)) :
    phdrAt m a = phdrAt m' b := by
  have hload : ∀ k ≤ 48, load m (a+k) = load m' (b+k) := by
    intro k hk
    apply load_shift
    intro i hi
    rw [Nat.add_assoc, Nat.add_assoc, h (k+i) (by omega)]
  have h0 := hload 0 (by decide)
  simp only [Nat.add_zero] at h0
  simp only [phdrAt, h0, hload 4 (by decide), hload 8 (by decide), hload 16 (by decide),
    hload 32 (by decide), hload 40 (by decide)]

theorem allocs_apart (hs : Supplied 2 s s) :
    frameOf (alloc s).2 ≠ frameOf (alloc (alloc s).1).2 := by
  obtain ⟨h₁,ha⟩ := alloc_supplied hs
  obtain ⟨_,hb⟩ := alloc_supplied h₁
  have hu : Unused s.pages (alloc s).2 := alloc_unused _ ha
  have hu' : Unused (alloc s).1.pages (alloc (alloc s).1).2 := alloc_unused _ hb
  intro he
  apply alloc_taken hs.1 ha
  have hmem : (alloc s).2 ∈ addresses (alloc s).1.pages := by
    rw [show addresses (alloc s).1.pages = addresses s.pages from addresses_alloc s.pages]
    exact unused_address hu
  rw [unused_inj h₁.1 hmem (unused_address hu') he]
  exact hu'

variable {file : FileData}

theorem header_valid (hwhole : 64 ≤ file.size.toInt)
    (hident : file.bytes 0 = 0x7f ∧ file.bytes 1 = 0x45 ∧ file.bytes 2 = 0x4c ∧
      file.bytes 3 = 0x46 ∧ file.bytes 4 = 2 ∧ file.bytes 5 = 1) (s : Machine) :
    checkElfFileValidity (loadElfEhdr s file).1.mem (object s).2 = true := by
  have hread := (ehdr_read file hwhole s).2
  have h0 := hread 0 (by decide)
  rw [Nat.add_zero] at h0
  obtain ⟨i0,i1,i2,i3,i4,i5⟩ := hident
  simp only [checkElfFileValidity, checkElfMagic, h0, hread 1 (by decide), hread 2 (by decide),
    hread 3 (by decide), hread 4 (by decide), hread 5 (by decide), i0, i1, i2, i3, i4, i5]
  decide

theorem table_read (hwhole : 64 ≤ file.size.toInt) {n : BitVec 16} {off : Word}
    (hphnum : (file.bytes 57 ++ file.bytes 56 : BitVec 16) = n)
    (hphoff : load file.bytes 32 = off) (hfit : 56*n.toNat ≤ 4096)
    (hread : (tarfsReadSize file (56*n.setWidth 64) off).setWidth 32 = BitVec.ofNat 32 (56*n.toNat))
    (hs : Supplied 2 s s) :
    (loadElfPhdr (loadElfEhdr s file).1 (object s).2 file).2 =
      some (object (loadElfEhdr s file).1).2 ∧
    ePhnum (loadElfPhdr (loadElfEhdr s file).1 (object s).2 file).1.mem (object s).2 = n ∧
    ∀ i < n.toNat, phdrAt (loadElfPhdr (loadElfEhdr s file).1 (object s).2 file).1.mem
      ((object (loadElfEhdr s file).1).2.val.toNat+56*i) = phdrAt file.bytes (off.toNat+56*i) := by
  obtain ⟨hnum,hoff⟩ := ehdr_fields file hwhole s
  obtain ⟨he,_⟩ := header_read s (ehdr_size file hwhole) (by decide)
  have hsize : loadElfPhdr (loadElfEhdr s file).1 (object s).2 file =
      loadHeader (loadElfEhdr s file).1 file (56*n.setWidth 64) off := by
    rw [loadElfPhdr, hnum, hoff, hphnum, hphoff]
  have hint : (BitVec.ofNat 32 (56*n.toNat)).toInt = 56*n.toNat := by
    rw [BitVec.toInt_eq_toNat_cond, BitVec.toNat_ofNat, Nat.mod_eq_of_lt (by omega),
      if_pos (by omega)]
    rfl
  have hslt : (BitVec.ofNat 32 (56*n.toNat)).slt 0 = false := by
    rw [BitVec.slt, hint]
    simp
  obtain ⟨hp,hbytes⟩ := header_read (loadElfEhdr s file).1 hread hslt
  rw [hsize]
  have hpages : (loadElfEhdr s file).1.pages = (alloc s).1.pages := by
    rw [loadElfEhdr, he]
    rfl
  generalize loadElfEhdr s file = x at *
  have hsame : (alloc x.1).2 = (alloc (alloc s).1).2 := by
    simp only [alloc, hpages]
  have hfr₁ : FramesOk x.1.pages := by
    rw [hpages]
    exact framesOk_congr (addresses_alloc s.pages) hs.1
  have hpk : (object s).2.val.toNat = 4096*frameOf (alloc s).2 :=
    kernelAddr_aligned _ (alloc_aligned hs.1)
  have hqk : (object x.1).2.val.toNat = 4096*frameOf (alloc x.1).2 :=
    kernelAddr_aligned _ (alloc_aligned hfr₁)
  have hapart := allocs_apart hs
  rw [← hsame] at hapart
  have hwrites := vfsRead_written x.1.mem (frameOf (alloc x.1).2)
    (by rw [hread, hint]; exact_mod_cast hfit)
  refine ⟨congrArg Prod.snd hp,?_,?_⟩
  · refine Eq.trans ?_ (hnum.trans hphnum)
    rw [hp]
    simp only [ePhnum]
    rw [hqk, hpk, hwrites (4096*frameOf (alloc s).2+57) (by omega),
      hwrites (4096*frameOf (alloc s).2+56) (by omega)]
  · intro i hi
    apply phdrAt_shift
    intro j hj
    rw [Nat.add_assoc, hbytes (56*i+j) (by omega), Nat.add_assoc]

section
variable {file : FileData} {off : Word} {phdr : Elf64Phdr} (h : OneSegment file off phdr)
include h

theorem segment_supplied (hs : Supplied (n+2) s₀ s) :
    Supplied n s₀ (loadElfPhdr (loadElfEhdr s file).1 (object s).2 file).1 := by
  obtain ⟨hnum,hoff⟩ := ehdr_fields file h.headers.whole s
  obtain ⟨he,_⟩ := header_read s (ehdr_size file h.headers.whole) (by decide)
  have h₁ : Supplied (n+1) s₀ (loadElfEhdr s file).1 := by
    rw [loadElfEhdr, he]
    exact supplied_object hs
  rw [loadElfPhdr, hnum, hoff, h.phnum, h.phoff]
  generalize (loadElfEhdr s file).1 = s₁ at *
  obtain ⟨hp,_⟩ := header_read s₁ h.size (by decide)
  show Supplied n s₀ (loadHeader s₁ file 56 off).1
  rw [hp]
  exact supplied_object h₁

end

theorem loaded_one (files : KernelPtr → FileData) (k : Kernel) (fp : KernelPtr) (off : Word)
    (phdr : Elf64Phdr) (h : OneSegment (files fp) off phdr) (n : ℕ) (s₀ : Machine)
    (hs : Supplied (n+3) s₀ k.machine) (haddr : ¬ kernbase < phdr.pVaddr)
    (hsize : ¬ phdr.pMemsz < phdr.pFilesz) (hint : (phdr.pVaddr.setWidth 32).msb = false) :
    ∃ node k', loadElfBinary files k fp = (k',.ok [regionVma node (some fp) phdr.pVaddr phdr.pFilesz
      phdr.pMemsz phdr.pOffset (elfProt phdr.pFlags)]) ∧ Supplied n s₀ k'.machine := by
  have hs₂ : Supplied 2 k.machine k.machine := ⟨hs.1,rfl,by have := hs.2.2; omega⟩
  have hsome := (ehdr_read (files fp) h.headers.whole k.machine).1
  obtain ⟨hphdr,hnum,hat⟩ := table_read h.headers.whole h.phnum h.phoff (by decide) h.size hs₂
  have hat : phdrAt _ (object (loadElfEhdr k.machine (files fp)).1).2.val.toNat = phdr :=
    (hat 0 (by decide)).trans h.header
  have hsup := segment_supplied h hs
  have hvalid := header_valid h.headers.whole h.ident k.machine
  simp only [loadElfBinary, hsome, hvalid, hphdr, hnum, if_true]
  generalize (loadElfPhdr (loadElfEhdr k.machine (files fp)).1 (object k.machine).2 (files fp)).1 =
    s₂ at *
  obtain ⟨hsup',ha⟩ := alloc_supplied hsup
  refine ⟨(object s₂).2,⟨(object s₂).1,k.fRefcount⟩,?_,hsup'⟩
  have hone : (1 : BitVec 16).toNat = 1 := rfl
  rw [hone]
  simp only [List.range_one, List.map_cons, List.map_nil, Nat.mul_zero, Nat.add_zero, hat]
  simp only [loadSegments, h.loadable, if_true, elfMap, mmapRegion, haddr, ha, hsize, if_false,
    addVma, findVmaPrev, hint, Bool.false_eq_true]

def plainArgs : ExecArgs := ⟨none,false,true,[],[]⟩

variable {k : Kernel}

theorem before_supplied (h : Supplied (n+7) s₀ k.machine) :
    (∃ fp, (beforeRoot k plainArgs).2 = some fp) ∧
    Supplied n s₀ (beforeRoot k plainArgs).1.machine := by
  refine ⟨⟨_,rfl⟩,?_⟩
  show Supplied n s₀ (zeroedObject (object (object (zeroedObject (zeroedObject (object
    (object k.machine).1).1).1).1).1).1).1
  apply supplied_zeroedObject
  apply supplied_object
  apply supplied_object
  apply supplied_zeroedObject
  apply supplied_zeroedObject
  apply supplied_object
  exact supplied_object h

def tinyPhdr : Elf64Phdr := ⟨1,5,0,0x400000,0x1000,0x1000⟩

def tinySegment (node fp : KernelPtr) : Vma := regionVma node (some fp) 0x400000 0x1000 0x1000 0 1

def tinyHeap (node : KernelPtr) : Vma :=
  ⟨node,0x401000,0x401FFF,0,4096,0,protWrite,none,.doAnonFault⟩

theorem tiny_addStack (node fp node' : KernelPtr) :
    addVma [tinySegment node fp,tinyHeap node'] stackVma =
      .added [tinySegment node fp,tinyHeap node',stackVma] := by
  simp [addVma, findVmaPrev, findVmaPrevFrom, isOverlappingVma, tinySegment, regionVma, tinyHeap,
    stackVma, stackStart]

theorem tiny_heap (node fp : KernelPtr) (h : Supplied (n+1) s₀ s) :
    ∃ node', doHeapVma s [tinySegment node fp] =
      ((object s).1,.ok [tinySegment node fp,tinyHeap node']) ∧ Supplied n s₀ (object s).1 := by
  have hstart : pageRoundDown (tinySegment node fp).endAddr = 0x401000 := by
    rw [show (tinySegment node fp).endAddr = 0x400000+0x1000 from rfl]
    decide
  refine ⟨(object s).2,?_,supplied_object h⟩
  rw [doHeapVma]
  simp only [List.getLast?_singleton]
  rw [hstart]
  have hnode : addNode (object s).1 [tinySegment node fp] (tinyHeap (object s).2) =
      ((object s).1,.ok [tinySegment node fp,tinyHeap (object s).2]) := by
    simp [addNode, addVma, findVmaPrev, findVmaPrevFrom, isOverlappingVma, tinySegment, regionVma,
      tinyHeap]
  exact hnode

theorem supplied_stack (c : Word) (vmas : List Vma) (argv envp : List (List Byte))
    (h : Supplied (n+9) s₀ s) : Supplied n s₀ (doStackVma s c vmas argv envp).1 := by
  have hframes : Supplied (n+3+3) s₀ (stackFrames s argv envp) :=
    supplied_mem (supplied_zeroedObject (supplied_zeroedObject (supplied_object h)))
  rw [doStackVma]
  generalize stackFrames s argv envp = s₁ at *
  have h₁ := map_supplied clearTable (n+3) s₀ s₁ stackStart (physStrings s) userFlags c false hframes
  generalize mapVirtualAddressToPhysicalAddress clearTable s₁ stackStart (physStrings s) userFlags c
    false = s₂ at *
  have h₂ := map_supplied clearTable n s₀ s₂ (stackStart-2*4096) (physPointer s) userFlags c false h₁
  generalize mapVirtualAddressToPhysicalAddress clearTable s₂ (stackStart-2*4096) (physPointer s)
    userFlags c false = s₃ at *
  unfold addNode
  split
  · exact h₂
  · exact h₂
  · rw [release, free_alias _ h₂.1.window]
    exact h₂

theorem root_supplied (h : Coherent kernel 1 roots k.machine)
    (hz : ∀ j, tables k.machine.mem (frameOf k.machine.pml4) j = 0)
    (hs : Supplied (n+8) k.machine k.machine) :
    Supplied n k.machine (copyPageTables (beforeRoot k plainArgs).1.machine
      (beforeRoot k plainArgs).1.machine.pml4 4).1 := by
  obtain ⟨_,hbefore⟩ := before_supplied hs
  obtain ⟨_,hleaves⟩ := beforeRoot_leaves h plainArgs (fun c hc => by cases hc)
  obtain ⟨hco,_,_,hker⟩ := hleaves hbefore.2.1
  have hpml4 : (beforeRoot k plainArgs).1.machine.pml4 = k.machine.pml4 := rfl
  generalize (beforeRoot k plainArgs).1 = k₁ at *
  have hz₁ : ∀ j, tables k₁.machine.mem (frameOf k₁.machine.pml4) j = 0 := by
    intro j
    rw [hpml4, hker _ (h.tables _ ⟨_,[],⟨rfl,by simp⟩,rfl⟩) j]
    exact hz j
  exact supplied_root hco hz₁ hbefore

/-- On a kernel whose root has no entries and with twenty-one frames to spare,
the exec goes through and gives three VMAs. -/
theorem exec_tiny (h : Coherent kernel 1 roots k.machine)
    (hz : ∀ j, tables k.machine.mem (frameOf k.machine.pml4) j = 0) {files : KernelPtr → FileData}
    (hfiles : ∀ fp, OneSegment (files fp) 64 tinyPhdr) (hs : Supplied (n+21) k.machine k.machine) :
    ∃ img node fp node', doExecve files k plainArgs = some img ∧ img.ok = true ∧
      img.mm.vma = [tinySegment node fp,tinyHeap node',stackVma] ∧
      Supplied n k.machine img.kernel.machine := by
  obtain ⟨⟨fp,hfp⟩,_⟩ := before_supplied hs
  have hroot := root_supplied h hz hs
  rw [doExecve]
  dsimp only
  rw [hfp]
  generalize (beforeRoot k plainArgs).1 = k₁ at *
  generalize copyPageTables k₁.machine k₁.machine.pml4 4 = root at *
  obtain ⟨node,k₂,hload,hs₂⟩ := loaded_one files { k₁ with machine := root.1 } fp 64 tinyPhdr
    (hfiles fp) (n+10) k.machine hroot (by decide) (by decide) (by decide)
  have hseg : regionVma node (some fp) tinyPhdr.pVaddr tinyPhdr.pFilesz tinyPhdr.pMemsz
      tinyPhdr.pOffset (elfProt tinyPhdr.pFlags) = tinySegment node fp := rfl
  rw [hseg] at hload
  obtain ⟨node',hheap,hs₃⟩ := tiny_heap node fp hs₂
  refine ⟨⟨{ k₂ with machine := _ },⟨_,root.2,some fp⟩,true⟩,node,fp,node',?_,rfl,rfl,
    supplied_stack root.2 [tinySegment node fp,tinyHeap node'] [] [] hs₃⟩
  simp only [hload, heapAndStack, hheap]
  rw [show plainArgs.argv = [] from rfl, show plainArgs.envp = [] from rfl, doStackVma, addNode,
    tiny_addStack]
  rfl

def evenFrames (n : ℕ) : List Page :=
  (List.range n).map (fun i => ⟨BitVec.ofNat 64 (0x100000+4096*i),0,false⟩)

theorem evenFrames_address {i : ℕ} (hn : n ≤ 0x1000) (hi : i < n) :
    (BitVec.ofNat 64 (0x100000+4096*i)).toNat = 0x100000+4096*i := by
  rw [BitVec.toNat_ofNat]
  omega

theorem evenFrames_mem (n : ℕ) (hn : n ≤ 0x1000) (a : Word) (ha : a ∈ addresses (evenFrames n)) :
    ∃ i < n, a.toNat = 0x100000+4096*i := by
  simp only [addresses, evenFrames, List.map_map, List.mem_map, List.mem_range,
    Function.comp_apply] at ha
  obtain ⟨i,hi,rfl⟩ := ha
  exact ⟨i,hi,evenFrames_address hn hi⟩

theorem evenFrames_ok (n : ℕ) (hn : n ≤ 0x1000) : FramesOk (evenFrames n) := by
  constructor
  case ordered =>
    rw [addresses, evenFrames, List.map_map, List.pairwise_map]
    apply List.Pairwise.imp_of_mem _ List.pairwise_lt_range
    intro i j hi hj hlt
    simp only [Function.comp_apply]
    rw [evenFrames_address hn (List.mem_range.mp hi),
      evenFrames_address hn (List.mem_range.mp hj)]
    omega
  case aligned =>
    intro a ha
    obtain ⟨i,_,he⟩ := evenFrames_mem n hn a ha
    omega
  case window =>
    intro a ha
    obtain ⟨i,hi,he⟩ := evenFrames_mem n hn a ha
    omega

theorem evenFrames_free (n : ℕ) : freeCount (evenFrames n) = n := by
  simp [freeCount, evenFrames, List.countP_map, Function.comp_def]

def firstKernel : Kernel := ⟨⟨fun _ => 0,evenFrames 80,0x8000,0x8000,0⟩,0⟩

def rootFrame (u : ℕ) : Prop := u = frameOf 0x8000

theorem first_tables (u : ℕ) (j : Fin 512) : tables firstKernel.machine.mem u j = 0 :=
  blank_tables u j

def emptyMachine (n : ℕ) : Machine := ⟨fun _ => 0,evenFrames n,0x8000,0x8000,0⟩

theorem blank_coherent (margin : ℕ) (roots : List Word) (pages : List Page) (hf : FramesOk pages)
    (hroots : ∀ y ∈ roots, Aligned y ∧ y.toNat < 0x100000 ∧ frameOf y ≠ frameOf 0x8000)
    (hout : ∀ a, Unused pages a → 0x100000 ≤ a.toNat) :
    Coherent rootFrame margin roots ⟨fun _ => 0,pages,0x8000,0x8000,0⟩ := by
  have hdesc : ∀ r p t, descend child (tables (fun _ => 0)) r p = some t → p = [] ∧ t = r :=
    fun r p t ht => blank_descend ht
  have hlow : ∀ r p, owned rootFrame roots r p → r < kernbase.toNat/4096+0x100 := by
    rintro r p (⟨y,hy,rfl,_⟩ | ⟨rfl,_⟩)
    · have hy := (hroots y hy).2.1
      rw [frameOf_eq]
      omega
    · decide
  constructor
  case forest =>
    constructor
    case separate =>
      intro r p r' p' t _ _ ht ht'
      obtain ⟨rfl,rfl⟩ := hdesc r p t ht
      obtain ⟨rfl,rfl⟩ := hdesc r' p' t ht'
      exact ⟨rfl,rfl⟩
    case frames => exact hf
    case outside =>
      rintro a ha d hd ⟨r,p,hr,ht⟩
      obtain ⟨_,rfl⟩ := hdesc r p _ ht
      have hbelow := hlow _ p hr
      have habove := hout a ha
      have hwin := (hf.window a (unused_address ha)).2
      rw [frameOf_eq] at hbelow
      omega
  case tables =>
    rintro u ⟨r,p,⟨rfl,_⟩,ht⟩
    exact (hdesc _ p u ht).2
  case apart => exact fun y hy => (hroots y hy).2.2
  case window => exact fun y hy => ⟨(hroots y hy).1,lt_trans (hroots y hy).2.1 (by decide)⟩
  case aligned => exact (by decide : Aligned 0x8000)
  case shared => exact fun y _ => (first_tables _ 511).trans (first_tables _ 511).symm
  case empty => exact fun j _ => first_tables _ j

theorem empty_coherent (hn : n ≤ 0x1000) : Coherent rootFrame 1 [0x9000] (emptyMachine n) := by
  apply blank_coherent
  · exact evenFrames_ok n hn
  · intro y hy
    rw [List.mem_singleton.mp hy]
    decide
  · intro a ha
    obtain ⟨i,_,hi⟩ := evenFrames_mem n hn a (unused_address ha)
    omega

theorem first_coherent : Coherent rootFrame 1 [] firstKernel.machine :=
  coherent_subset (empty_coherent (by decide)) (fun y hy => absurd hy List.not_mem_nil)

def tinyBytes (i : ℕ) : Byte :=
  match i with
  | 0 => 0x7f
  | 1 => 0x45
  | 2 => 0x4c
  | 3 => 0x46
  | 4 => 2
  | 5 => 1
  | 32 => 64
  | 56 => 1
  | 64 => 1
  | 68 => 5
  | 82 => 0x40
  | 97 => 0x10
  | 105 => 0x10
  | _ => 0

def tinyElf : FileData := ⟨120,tinyBytes⟩

theorem tiny_oneSegment : OneSegment tinyElf 64 tinyPhdr := by
  constructor
  case headers => constructor <;> decide
  case ident => decide
  case phnum => decide
  case phoff => decide
  case size => decide
  case header => rfl
  case loadable => rfl

structure FirstImage (img : Image) (frames : ArgumentFrames) : Prop where
  made : doExecve (fun _ => tinyElf) firstKernel plainArgs = some img
  done : img.ok = true
  steps : allSteps img.mm.vma =
    [0x400000,0x401000,stackStart-3*4096,stackStart-2*4096,stackStart-4096]
  shortages : img.kernel.machine.shortages = firstKernel.machine.shortages
  executed : Executed rootFrame [] img.mm.cr3 (some frames) firstKernel.machine img.kernel.machine
  forks : ∀ mm : MmStruct, 3*(allSteps mm.vma).length+mm.vma.length ≤ 51 →
    (doFork img.kernel.machine mm).1.shortages = img.kernel.machine.shortages
  vmas : img.mm.vma.length = 3

theorem tiny_image (h : Coherent kernel 1 roots k.machine)
    (hz : ∀ u, kernel u → ∀ j, tables k.machine.mem u j = 0)
    (hs : Supplied (n+21) k.machine k.machine) :
    ∃ img frames node fp node', doExecve (fun _ => tinyElf) k plainArgs = some img ∧
      img.ok = true ∧ img.mm.vma = [tinySegment node fp,tinyHeap node',stackVma] ∧
      Supplied n k.machine img.kernel.machine ∧
      Executed kernel roots img.mm.cr3 (some frames) k.machine img.kernel.machine ∧
      ∀ u, kernel u → ∀ j, tables img.kernel.machine.mem u j = 0 := by
  obtain ⟨img,node,fp,node',himg,hok,hvma,hs'⟩ := exec_tiny h
    (hz _ (h.tables _ ⟨_,[],⟨rfl,by simp⟩,rfl⟩)) (fun _ => tiny_oneSegment) hs
  obtain ⟨frames,hex,hsome⟩ := execve_executed h (fun _ => tinyElf) plainArgs img himg
    (by rintro c ⟨⟩) (fun _ _ => tiny_oneSegment.headers) ⟨by decide,by decide⟩ hs'.2.1
  obtain ⟨a,rfl⟩ := Option.isSome_iff_exists.mp (hsome hok)
  refine ⟨img,a,node,fp,node',himg,hok,hvma,hs',hex,?_⟩
  intro u hu j
  rw [hex.kernelTables u hu j]
  exact hz u hu j

theorem first_supplied : Supplied 80 firstKernel.machine firstKernel.machine :=
  ⟨evenFrames_ok 80 (by decide),rfl,(evenFrames_free 80).ge⟩

theorem first_image : ∃ img frames, FirstImage img frames := by
  obtain ⟨img,a,node,fp,node',himg,hok,hvma,hs,hex,hz⟩ := tiny_image first_coherent
    (fun u _ => first_tables u) first_supplied
  refine ⟨img,a,himg,hok,?_,hs.2.1,hex,?_,?_⟩
  · rw [hvma]
    simp [allSteps, forkSteps, stepsFrom, upperBound, lowerBound, tinySegment, regionVma, tinyHeap,
      stackVma, stackStart]
  · intro mm hmm
    have hle := hs.2.2
    exact (supplied_fork hex.coherent (hz _ (hex.coherent.tables _ ⟨_,[],⟨rfl,by simp⟩,rfl⟩)) mm 0
      ⟨hs.1,rfl,by omega⟩).2.1
  · rw [hvma]
    rfl

section
variable {img : Image} {frames : ArgumentFrames} (h : FirstImage img frames)
include h

theorem first_user : ∀ i ∈ allSteps img.mm.vma, User i := by
  rw [h.steps]
  simp only [List.forall_mem_cons, List.not_mem_nil, false_imp_iff, implies_true, and_true]
  exact ⟨by decide,by decide,by decide,by decide,by decide⟩

theorem first_forked :
    Forked rootFrame [img.mm.cr3] (allSteps img.mm.vma) img.mm.cr3
      (doFork img.kernel.machine img.mm).2.cr3 img.kernel.machine
      (doFork img.kernel.machine img.mm).1 := by
  apply doFork_forked h.executed.coherent (by simp) (first_user h)
  apply h.forks
  rw [h.steps, h.vmas]
  decide

theorem first_arguments :
    pte img.kernel.machine.mem img.mm.cr3 (stackStart-2*4096) = frames.pointers ||| 7 ∧
    pte img.kernel.machine.mem img.mm.cr3 stackStart = frames.strings ||| 7 ∧
    frameAt img.kernel.machine.mem img.mm.cr3 (stackStart-2*4096) ≠ 0 ∧
    frameAt img.kernel.machine.mem img.mm.cr3 stackStart ≠ 0 := by
  have hpointers : pte img.kernel.machine.mem img.mm.cr3 (stackStart-2*4096) =
      frames.pointers ||| 7 := h.executed.own _ (by decide)
  have hstrings : pte img.kernel.machine.mem img.mm.cr3 stackStart = frames.strings ||| 7 :=
    h.executed.own _ (by decide)
  have hnonzero : ∀ a, TakenFrame firstKernel.machine img.kernel.machine a →
      (a ||| 7) &&& addressMask ≠ 0 := by
    intro a ha
    have hf := h.executed.framesOk
    have hw := hf.window a (unused_address ha.1)
    rw [BitFields.set_outside a (by decide),
      aligned_masked a (unused_window _ hf a ha.1).1 (by omega)]
    rintro rfl
    exact absurd hw.1 (by decide)
  obtain ⟨hs,hp,_⟩ := h.executed.taken frames rfl
  refine ⟨hpointers,hstrings,?_,?_⟩
  · rw [frameAt, hpointers]
    exact hnonzero _ hp
  · rw [frameAt, hstrings]
    exact hnonzero _ hs

end

end PreemptiveOS.Supply
