import PreemptiveOS.FrameGrowth
import PreemptiveOS.VmaNodes
import PreemptiveOS.VmaRuns

/-!
# Address spaces on their nodes

The functions that build, copy and take apart an address space, on the nodes in
memory and the head that the `mm_struct` has. A function without a result reads
or writes through a pointer that is null or was never set, or walks for ever.
Every close of a file is reported with the count it found.
-/

set_option autoImplicit false

namespace PreemptiveOS.NodeSpaces
open ByteMemory PhysMmgr VirtMmgr Vmas KernelObjects PageFaults Exec LinkedQueues VmaNodes

def rounds (s : Machine) : ℕ := s.pages.length+1

structure Close where
  file : KernelPtr
  count : Word

def closeOf (k : Kernel) (file : Option KernelPtr) : List Close :=
  (file.map (fun fp => ⟨fp,k.fRefcount fp⟩)).toList

structure Result where
  kernel : Kernel
  closes : List Close
  space : Option (VmaList × Bool)

def addNew (s : Machine) (x : VmaList) (vma : Vma) : Option (VmaList × Bool) :=
  (VmaNodes.addVma (rounds s) ⟨x.nodes.write vma.node vma,x.head⟩ vma.node).map
    (fun r => (r.1,decide (0 ≤ r.2)))

/-- A size that does not fit is found when only some of the fields are written. -/
def mmapRegion (k : Kernel) (x : VmaList) (file : Option KernelPtr)
    (addr filesz memsz off prot : Word) : Result :=
  if kernbase < addr then ⟨k,[],some (x,false)⟩
  else if (alloc k.machine).2 = 0 then
    ⟨{ k with machine := (alloc k.machine).1 },[],some (x,false)⟩
  else
    let vma := regionVma (object k.machine).2 file addr filesz memsz off prot
    let k₁ := { k with machine := (object k.machine).1 }
    if memsz < filesz then
      let part := { x.nodes.data vma.node with
        startAddr := addr, filesize := filesz, memsize := memsz, fileoffset := off,
        protection := vma.protection }
      ⟨k₁,[],some (⟨x.nodes.write vma.node part,x.head⟩,false)⟩
    else
      match addNew k₁.machine x vma with
      | none => ⟨k₁,[],none⟩
      | some (x',true) => ⟨k₁,[],some (x',true)⟩
      | some (x',false) => ⟨deallocateVma k₁ vma,closeOf k₁ file,some (x',false)⟩

def elfMap (k : Kernel) (x : VmaList) (file : KernelPtr) (phdr : Elf64Phdr) : Result :=
  mmapRegion k x (some file) phdr.pVaddr phdr.pFilesz phdr.pMemsz phdr.pOffset
    (elfProt phdr.pFlags)

def loadSegments (file : KernelPtr) : List Elf64Phdr → Kernel → VmaList → Result
  | [], k, x => ⟨k,[],some (x,true)⟩
  | phdr::rest, k, x =>
    if phdr.pType = 1 then
      let r := elfMap k x file phdr
      match r.space with
      | none => ⟨r.kernel,r.closes,none⟩
      | some (x',false) => ⟨r.kernel,r.closes,some (x',false)⟩
      | some (x',true) =>
        if (phdr.pVaddr.setWidth 32).msb then ⟨r.kernel,r.closes,some (x',false)⟩
        else
          let r' := loadSegments file rest r.kernel x'
          ⟨r'.kernel,r.closes++r'.closes,r'.space⟩
    else loadSegments file rest k x

inductive Headers where
  | refused
  | unread
  | read (phdrs : List Elf64Phdr)

def readHeaders (s : Machine) (file : FileData) : Machine × Headers :=
  let s₁ := (loadElfEhdr s file).1
  match (loadElfEhdr s file).2 with
  | none => (s₁,.refused)
  | some ehdr =>
    if checkElfFileValidity s₁.mem ehdr then
      let s₂ := (loadElfPhdr s₁ ehdr file).1
      let n := (ePhnum s₂.mem ehdr).toNat
      match (loadElfPhdr s₁ ehdr file).2 with
      | none => (s₂,if n = 0 then .read [] else .unread)
      | some phdr =>
        (s₂,.read ((List.range n).map (fun i => phdrAt s₂.mem (phdr.val.toNat+56*i))))
    else (s₁,.refused)

def loadElfBinary (files : KernelPtr → FileData) (k : Kernel) (x : VmaList) (file : KernelPtr) :
    Result :=
  let k₁ := { k with machine := (readHeaders k.machine (files file)).1 }
  match (readHeaders k.machine (files file)).2 with
  | .refused => ⟨k₁,[],some (x,false)⟩
  | .unread => ⟨k₁,[],none⟩
  | .read phdrs => loadSegments file phdrs k₁ x

def addNode (s : Machine) (x : VmaList) (vma : Vma) : Machine × Option (VmaList × Bool) :=
  match addNew s x vma with
  | none => (s,none)
  | some (x',true) => (s,some (x',true))
  | some (x',false) => (release s vma.node,some (x',false))

def doHeapVma (s : Machine) (x : VmaList) : Machine × Option (VmaList × Bool) :=
  match x.head.bind (lastFrom x.nodes.next (rounds s)) with
  | none => (s,none)
  | some last =>
    let start := pageRoundDown (x.nodes.data last).endAddr
    addNode (object s).1 x
      ⟨(object s).2,start,start+4095,0,4096,0,protWrite,none,.doAnonFault⟩

def doStackVma (s : Machine) (cr3 : Word) (x : VmaList) (argv envp : List (List Byte)) :
    Machine × Option (VmaList × Bool) :=
  let s₁ := mapVirtualAddressToPhysicalAddress clearTable (stackFrames s argv envp) stackStart
    (physStrings s) userFlags cr3 false
  let s₂ := mapVirtualAddressToPhysicalAddress clearTable s₁ (stackStart-2*4096) (physPointer s)
    userFlags cr3 false
  addNode s₂ x stackVma

def heapAndStack (s : Machine) (cr3 : Word) (x : VmaList) (args : ExecArgs) :
    Machine × Option (VmaList × Bool) :=
  let heap := doHeapVma s x
  match heap.2 with
  | some (x',true) => doStackVma heap.1 cr3 x' args.argv args.envp
  | r => (heap.1,r)

structure Mm where
  vma : Option KernelPtr
  cr3 : Word
  file : Option KernelPtr

def buildSpace (files : KernelPtr → FileData) (k : Kernel) (x : VmaList) (cr3 : Word)
    (file : KernelPtr) (args : ExecArgs) : Result :=
  let loaded := loadElfBinary files k x file
  match loaded.space with
  | some (x',true) =>
    let rest := heapAndStack loaded.kernel.machine cr3 x' args
    ⟨{ loaded.kernel with machine := rest.1 },loaded.closes,rest.2⟩
  | r => ⟨loaded.kernel,loaded.closes,r⟩

structure Execed where
  kernel : Kernel
  closes : List Close
  nodes : Nodes
  mm : Mm
  ok : Bool

def doExecve (files : KernelPtr → FileData) (k : Kernel) (n : Nodes) (args : ExecArgs) :
    Option Execed :=
  let k₁ := (beforeRoot k args).1
  let root := copyPageTables k₁.machine k₁.machine.pml4 4
  match (beforeRoot k args).2 with
  | none => none
  | some file =>
    let r := buildSpace files { k₁ with machine := root.1 } ⟨n,none⟩ root.2 file args
    r.space.map (fun y => ⟨r.kernel,r.closes,y.1.nodes,⟨y.1.head,root.2,some file⟩,y.2⟩)

def readVmas (n : Nodes) : ℕ → Option KernelPtr → Option (List Vma)
  | _, none => some []
  | 0, some _ => none
  | k+1, some p => (readVmas n k (n.next p)).map (fun vmas => { n.data p with node := p }::vmas)

def mmap (k : Kernel) (x : VmaList) (c : VmaRuns.MmapCall) : Result :=
  let ulen := pageRoundUp c.len
  if ulen = 0 ∨ c.off+(ulen >>> 12) < c.off ∨ kernbase < ulen ∨ c.privateAndShared then
    ⟨k,[],some (x,false)⟩
  else
    match (readVmas x.nodes (rounds k.machine) x.head).bind
        (fun vmas => getUnmappedArea vmas c.addr c.len) with
    | none => ⟨k,[],none⟩
    | some area =>
      mmapRegion k x (c.source.map Prod.fst) area (VmaRuns.fileSize c) c.len c.off c.prot

def doMunmap (k : Kernel) (x : VmaList) (addr size : Word) : Option (Kernel × List Close × VmaList) :=
  match findVmaRegionFrom x.nodes (pageRoundUp addr) (pageRoundDown size)
      (rounds k.machine) x.head with
  | none => none
  | some none => some (k,[],x)
  | some (some v) =>
    (removeVma (rounds k.machine) x v).map (fun x' =>
      let vma := { x'.nodes.data v with node := v }
      (deallocateVma k vma,closeOf k vma.file,x'))

def dupNode (n : Nodes) (old tmp : KernelPtr) (last : Option KernelPtr) : Nodes :=
  let n₁ := ((n.write tmp { n.data old with node := tmp }).setNext tmp none).setPrev tmp last
  last.elim n₁ (fun p => n₁.setNext p (some tmp))

def dupMmFrom : ℕ → Machine → Nodes → Option KernelPtr → Option KernelPtr → Option KernelPtr →
    Option (Machine × VmaList)
  | _, s, n, none, _, head => some (s,⟨n,head⟩)
  | 0, _, _, some _, _, _ => none
  | k+1, s, n, some old, last, head =>
    let tmp := (object s).2
    let n₁ := dupNode n old tmp last
    dupMmFrom k (object s).1 n₁ (n₁.next old) (some tmp) (last.elim (some tmp) (fun _ => head))

/-- The copied `mm_struct` has the old head until the first node is copied. -/
def dupMm (s : Machine) (x : VmaList) : Option (Machine × VmaList) :=
  dupMmFrom (rounds s) s x.nodes x.head none x.head

end PreemptiveOS.NodeSpaces
