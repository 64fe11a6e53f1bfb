import PreemptiveOS.PageFaults

/-!
# Building an address space

`do_execve` takes a copy of the kernel root, reads the headers of the
executable into frames of their own, adds one VMA for every loadable segment,
one for the heap and one for the stack, and maps two pages: the argument
strings at `STACK_START` and the pointers to them two pages below. Later an
anonymous `do_mmap` adds VMAs one by one.

The bytes that kernel objects are filled with are left out, apart from the
headers and the two argument pages, and so is the lookup of the path.
-/

set_option autoImplicit false

namespace PreemptiveOS.Exec
open ByteMemory PhysMmgr VirtMmgr Vmas KernelObjects PageFaults

def vfsRead (m : Mem) (buf : ℕ) (file : FileData) (size offset : Word) : Mem × BitVec 32 :=
  let n := (tarfsReadSize file size offset).setWidth 32
  (fun x => if buf ≤ x ∧ x < buf+n.toInt.toNat then file.bytes (offset.toNat+(x-buf)) else m x,n)

def loadHeader (s : Machine) (file : FileData) (size offset : Word) :
    Machine × Option KernelPtr :=
  let p := (object s).2
  let read := vfsRead s.mem p.val.toNat file size offset
  let s₁ := { (object s).1 with mem := read.1 }
  if read.2.slt 0 then (release s₁ p,none) else (s₁,some p)

def loadElfEhdr (s : Machine) (file : FileData) : Machine × Option KernelPtr :=
  loadHeader s file 64 0

def ePhoff (m : Mem) (ehdr : KernelPtr) : Word := load m (ehdr.val.toNat+32)

def ePhnum (m : Mem) (ehdr : KernelPtr) : BitVec 16 :=
  m (ehdr.val.toNat+57) ++ m (ehdr.val.toNat+56)

def loadElfPhdr (s : Machine) (ehdr : KernelPtr) (file : FileData) :
    Machine × Option KernelPtr :=
  loadHeader s file (56*(ePhnum s.mem ehdr).setWidth 64) (ePhoff s.mem ehdr)

def checkElfMagic (m : Mem) (ehdr : KernelPtr) : Bool :=
  m ehdr.val.toNat = 0x7f ∧ m (ehdr.val.toNat+1) = 0x45 ∧ m (ehdr.val.toNat+2) = 0x4c ∧
    m (ehdr.val.toNat+3) = 0x46

def checkElfFileValidity (m : Mem) (ehdr : KernelPtr) : Bool :=
  checkElfMagic m ehdr ∧ m (ehdr.val.toNat+4) = 2 ∧ m (ehdr.val.toNat+5) = 1

structure Elf64Phdr where
  pType : BitVec 32
  pFlags : BitVec 32
  pOffset : Word
  pVaddr : Word
  pFilesz : Word
  pMemsz : Word

def phdrAt (m : Mem) (a : ℕ) : Elf64Phdr where
  pType := (load m a).setWidth 32
  pFlags := (load m (a+4)).setWidth 32
  pOffset := load m (a+8)
  pVaddr := load m (a+16)
  pFilesz := load m (a+32)
  pMemsz := load m (a+40)

/-- The three tests are `PF_R`, `PF_R | PF_W` and `PF_R | PF_X`, in this
order: a readable segment is never writable. -/
def elfProt (flags : BitVec 32) : Word :=
  if flags &&& 4 ≠ 0 then 1
  else if flags &&& 6 ≠ 0 then 2
  else if flags &&& 5 ≠ 0 then 4
  else 0

def elfMap (k : Kernel) (vmas : List Vma) (file : KernelPtr) (phdr : Elf64Phdr) :
    Kernel × Region :=
  mmapRegion k vmas (some file) phdr.pVaddr phdr.pFilesz phdr.pMemsz phdr.pOffset
    (elfProt phdr.pFlags)

inductive Stage where
  | ok (vmas : List Vma)
  | failed (vmas : List Vma)
  | wild

/-- The address that a mapping returns is cut to an `int`, so one with bit 31
set counts as an error although its VMA is in place. -/
def loadSegments (file : KernelPtr) : List Elf64Phdr → Kernel → List Vma → Kernel × Stage
  | [], k, vmas => (k,.ok vmas)
  | phdr::rest, k, vmas =>
    if phdr.pType = 1 then
      match (elfMap k vmas file phdr).2 with
      | .failed => ((elfMap k vmas file phdr).1,.failed vmas)
      | .wild => ((elfMap k vmas file phdr).1,.wild)
      | .mapped vmas' _ =>
        if (phdr.pVaddr.setWidth 32).msb then ((elfMap k vmas file phdr).1,.failed vmas')
        else loadSegments file rest (elfMap k vmas file phdr).1 vmas'
    else loadSegments file rest k vmas

/-- Program headers that could not be read are looked for at address zero. -/
def loadElfBinary (files : KernelPtr → FileData) (k : Kernel) (file : KernelPtr) :
    Kernel × Stage :=
  let s₁ := (loadElfEhdr k.machine (files file)).1
  match (loadElfEhdr k.machine (files file)).2 with
  | none => ({ k with machine := s₁ },.failed [])
  | some ehdr =>
    if checkElfFileValidity s₁.mem ehdr then
      let s₂ := (loadElfPhdr s₁ ehdr (files file)).1
      let n := (ePhnum s₂.mem ehdr).toNat
      match (loadElfPhdr s₁ ehdr (files file)).2 with
      | none => ({ k with machine := s₂ },if n = 0 then .ok [] else .wild)
      | some phdr =>
        loadSegments file
          ((List.range n).map (fun i => phdrAt s₂.mem (phdr.val.toNat+56*i)))
          { k with machine := s₂ } []
    else ({ k with machine := s₁ },.failed [])

def addNode (s : Machine) (vmas : List Vma) (vma : Vma) : Machine × Stage :=
  match addVma vmas vma with
  | .added vmas' => (s,.ok vmas')
  | .wild => (s,.wild)
  | .failed => (release s vma.node,.failed vmas)

/-- The heap starts behind the last VMA, which is read without a check that
there is one. The source leaves the file offset unset; nothing reads it. -/
def doHeapVma (s : Machine) (vmas : List Vma) : Machine × Stage :=
  match vmas.getLast? with
  | none => (s,.wild)
  | some last =>
    let start := pageRoundDown last.endAddr
    addNode (object s).1 vmas
      ⟨(object s).2,start,start+4095,0,4096,0,protWrite,none,.doAnonFault⟩

/-- The node of the stack's VMA is made from a global null pointer, so it is
the same for every process; the frame taken for it is not used. -/
def stackVma : Vma :=
  ⟨kernelPtr 0,stackStart,stackStart-3*4096,0,3*4096,0,protWrite,none,.doAnonFault⟩

def putString (m : Mem) (dest : ℕ) (str : List Byte) : Mem := fun x =>
  if dest ≤ x ∧ x < dest+(str.length+1) then str.getD (x-dest) 0 else m x

def putPointer (m : Mem) (ptrs : ℕ) (i : ℤ) (w : Word) : Mem := store m (ptrs+8*i).toNat w

def copyStrings (ptrs : ℕ) : List (List Byte) → ℤ → Word → ℕ → Mem → Mem × ℕ
  | [], _, _, dest, m => (m,dest)
  | str::rest, i, userPtr, dest, m =>
    copyStrings ptrs rest (i-1) (userPtr+BitVec.ofNat 64 (str.length+1)) (dest+(str.length+1))
      (putString (putPointer m ptrs (i-1) userPtr) dest str)

def copyParamsToUserspace (m : Mem) (strs : List (List Byte)) (maxCopy : ℤ) (ptrs dest : ℕ) :
    Mem × ℕ :=
  copyStrings ptrs strs.reverse (maxCopy-1)
    (pageRoundUp stackStart+BitVec.ofNat 64 (dest%4096)) dest (putPointer m ptrs (maxCopy-1) 0)

def writeParams (m : Mem) (argv envp : List (List Byte)) (ptrs strings : ℕ) : Mem :=
  let env := copyParamsToUserspace m envp 512 ptrs strings
  let arg := copyParamsToUserspace env.1 argv (512-envp.length-1) ptrs env.2
  putPointer arg.1 ptrs (512-(envp.length+argv.length+2)-1) (BitVec.ofNat 64 argv.length)

def stackFrames (s : Machine) (argv envp : List (List Byte)) : Machine :=
  let s₁ := (object s).1
  let s₂ := (zeroedObject s₁).1
  let s₃ := (zeroedObject s₂).1
  let ptrs := (zeroedObject s₁).2.val.toNat
  let strings := (zeroedObject s₂).2.val.toNat
  { s₃ with mem := writeParams s₃.mem argv envp ptrs strings }

def physPointer (s : Machine) : Word := (alloc (object s).1).2

def physStrings (s : Machine) : Word := (alloc (zeroedObject (object s).1).1).2

def doStackVma (s : Machine) (cr3 : Word) (vmas : List Vma) (argv envp : List (List Byte)) :
    Machine × Stage :=
  let s₁ := mapVirtualAddressToPhysicalAddress clearTable (stackFrames s argv envp) stackStart
    (physStrings s) userFlags cr3 false
  let s₂ := mapVirtualAddressToPhysicalAddress clearTable s₁ (stackStart-2*4096) (physPointer s)
    userFlags cr3 false
  addNode s₂ vmas stackVma

/-- A path that does not start with a slash is joined to the working directory
in a frame that is not cleared. The lookup and the search for a descriptor
are inputs. -/
def doOpenExec (k : Kernel) (relative found : Bool) : Kernel × Option KernelPtr :=
  let name := object k.machine
  let s₁ := if relative then (object name.1).1 else (zeroedObject name.1).1
  if found then
    let fp := (zeroedObject s₁).2
    (⟨(object (zeroedObject s₁).1).1,fun p => if p = fp then 1 else k.fRefcount p⟩,some fp)
  else ({ k with machine := release s₁ name.2 },none)

structure ExecArgs where
  command : Option KernelPtr
  relative : Bool
  found : Bool
  argv : List (List Byte)
  envp : List (List Byte)

def clearCommand (s : Machine) : Option KernelPtr → Machine
  | none => s
  | some command => zeroed s command

def beforeRoot (k : Kernel) (args : ExecArgs) : Kernel × Option KernelPtr :=
  let opened := doOpenExec { k with machine := (object k.machine).1 } args.relative args.found
  let s := clearCommand (object opened.1.machine).1 args.command
  ({ opened.1 with machine := (zeroedObject s).1 },opened.2)

structure Image where
  kernel : Kernel
  mm : MmStruct
  ok : Bool

def image (x : Kernel × Stage) (cr3 : Word) (file : KernelPtr) : Option Image :=
  match x.2 with
  | .ok vmas => some ⟨x.1,⟨vmas,cr3,some file⟩,true⟩
  | .failed vmas => some ⟨x.1,⟨vmas,cr3,some file⟩,false⟩
  | .wild => none

def heapAndStack (s : Machine) (cr3 : Word) (vmas : List Vma) (args : ExecArgs) :
    Machine × Stage :=
  match (doHeapVma s vmas).2 with
  | .ok vmas' => doStackVma (doHeapVma s vmas).1 cr3 vmas' args.argv args.envp
  | .failed vmas' => ((doHeapVma s vmas).1,.failed vmas')
  | .wild => ((doHeapVma s vmas).1,.wild)

/-- A file that was not opened is read through a null pointer. An exec that
fails still leaves the process with the new address space. -/
def doExecve (files : KernelPtr → FileData) (k : Kernel) (args : ExecArgs) : Option Image :=
  let k₁ := (beforeRoot k args).1
  let root := copyPageTables k₁.machine k₁.machine.pml4 4
  match (beforeRoot k args).2 with
  | none => none
  | some file =>
    let loaded := loadElfBinary files { k₁ with machine := root.1 } file
    match loaded.2 with
    | .ok vmas =>
      let rest := heapAndStack loaded.1.machine root.2 vmas args
      image ({ loaded.1 with machine := rest.1 },rest.2) root.2 file
    | stage => image (loaded.1,stage) root.2 file

/-- An anonymous mapping. The `int` test on the address that was found is on an
unsigned word, so the search never fails. -/
def doMmap (k : Kernel) (vmas : List Vma) (addr len prot off : Word)
    (privateAndShared : Bool) : Kernel × Region :=
  let ulen := pageRoundUp len
  if ulen = 0 ∨ off+(ulen >>> 12) < off ∨ kernbase < ulen ∨ privateAndShared then (k,.failed)
  else
    match getUnmappedArea vmas addr len with
    | none => (k,.wild)
    | some area => mmapRegion k vmas none area 0 len off prot

end PreemptiveOS.Exec
