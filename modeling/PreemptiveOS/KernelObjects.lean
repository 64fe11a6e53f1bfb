import PreemptiveOS.PageTree
import PreemptiveOS.Vmas

/-!
# Kernel objects and their destructors

A kernel object is a frame reached through its alias above `KERNBASE`, and
its destructor hands that alias to `phys_mem_free`. The allocator knows
frames by their physical addresses, so the search for an alias finds no
record. What each constructor takes is therefore never given back.
-/

set_option autoImplicit false

namespace PreemptiveOS.KernelObjects
open ByteMemory PhysMmgr VirtMmgr PageTree Vmas

def object (s : Machine) : Machine × KernelPtr := ((alloc s).1, kernelPtr (alloc s).2)

def zeroed (s : Machine) (p : KernelPtr) : Machine :=
  { s with mem := clearTable s.mem p.val.toNat }

def zeroedObject (s : Machine) : Machine × KernelPtr :=
  (zeroed (object s).1 (object s).2,(object s).2)

def release (s : Machine) (p : KernelPtr) : Machine :=
  { s with pages := physMemFree p.val s.pages }

structure ProcList where
  node : KernelPtr
  process : Word
  deriving DecidableEq

def insertProcess (s : Machine) (list : List ProcList) (process : Word) :
    Machine × List ProcList × Bool :=
  if process = 0 then (s,list,false)
  else if (alloc s).2 = 0 then ((alloc s).1,list,false)
  else ((alloc s).1,list++[⟨(object s).2,process⟩],true)

def insertAllproc := insertProcess
def insertZombproc := insertProcess

/-- From the second node on, the first match is unlinked, and without one
the last node is. -/
def deleteRest (dead : ProcList → Bool) : ProcList → List ProcList → List ProcList × KernelPtr
  | last, [] => ([],last.node)
  | temp, next::rest =>
    if dead temp then (next::rest,temp.node)
    else (temp::(deleteRest dead next rest).1,(deleteRest dead next rest).2)

/-- A single node that does not match stays linked but is freed. -/
def deleteNode (dead : ProcList → Bool) : List ProcList → Option (List ProcList × KernelPtr)
  | [] => none
  | [first] => some (if dead first then [] else [first],first.node)
  | first::next::rest =>
    if dead first then some (next::rest,first.node)
    else some (first::(deleteRest dead next rest).1,(deleteRest dead next rest).2)

/-- Processes are compared by the pid stored in their process blocks. -/
def deleteProcess (pid : Word → BitVec 16) (s : Machine) (list : List ProcList)
    (process : Word) : Machine × List ProcList :=
  if process = 0 then (s,list)
  else
    match deleteNode (fun n => pid n.process = pid process) list with
    | none => (s,list)
    | some (rest,node) => (release s node,rest)

def deleteFromAllproc := deleteProcess
def deleteFromZombproc := deleteProcess

structure Task where
  pcb : KernelPtr
  kstack : KernelPtr

def newTask (s : Machine) : Machine × Task :=
  let s₁ := (zeroedObject s).1
  ((zeroedObject s₁).1,⟨(zeroedObject s).2,(zeroedObject s₁).2⟩)

def releaseTask (s : Machine) (task : Task) : Machine :=
  release (release s task.kstack) task.pcb

def myMemcmp (s t : List Byte) (n : ℕ) : ℤ :=
  ((List.range n).map (fun i => ((s.getD i 0).toNat : ℤ)-(t.getD i 0).toNat)).sum

def checkCorrectFile (dentryCache : List (List Byte)) (filename : List Byte) : Option ℕ :=
  dentryCache.findIdx? (fun name => myMemcmp name filename filename.length = 0)

def availableFd (fd : List (Option KernelPtr)) : Option ℕ := fd.findIdx? Option.isNone

structure Kernel where
  machine : Machine
  fRefcount : KernelPtr → Word

def startsWithDot (pathname : List Byte) : Bool := myMemcmp pathname [46] 1 = 0

def lookupName (pathname : List Byte) : List Byte :=
  if startsWithDot pathname then [98,105,110,47]++pathname.drop 5 else pathname

/-- A path that does not start with a dot is rebuilt in a frame of its own,
the lookup copies the path once more, and an open file has a frame for its
record and one for its operations. -/
def tarfsOpen (k : Kernel) (dentryCache : List (List Byte)) (fd : List (Option KernelPtr))
    (buffer : KernelPtr) (pathname : List Byte) : Kernel × Option (ℕ × KernelPtr) :=
  let s₁ := if startsWithDot pathname then k.machine
    else (zeroedObject k.machine).1
  match availableFd fd with
  | none => ({ k with machine := release s₁ buffer },none)
  | some i =>
    let s₂ := (zeroedObject s₁).1
    match checkCorrectFile dentryCache (lookupName pathname) with
    | none => ({ k with machine := release s₂ buffer },none)
    | some _ =>
      let fp := (zeroedObject s₂).2
      let s₃ := (zeroedObject s₂).1
      (⟨(object s₃).1,fun p => if p = fp then 1 else k.fRefcount p⟩,some (i,fp))

def tarfsClose (k : Kernel) (fp : KernelPtr) : Kernel :=
  let n := k.fRefcount fp-1
  { machine := if n = 0 then release k.machine fp else k.machine
    fRefcount := fun p => if p = fp then n else k.fRefcount p }

/-- The VMA that a mapping describes. An anonymous one ends 4095 bytes
further for every started 4097 bytes of its size. -/
def regionVma (node : KernelPtr) (file : Option KernelPtr) (addr filesz memsz off prot : Word) :
    Vma where
  node := node
  startAddr := addr
  endAddr := if file.isNone then addr+4095*(memsz/4097+1) else addr+filesz
  filesize := filesz
  memsize := memsz
  fileoffset := off
  protection := if file.isNone then prot &&& ~~~protExec else prot
  file := file
  fault := if file.isNone then .doAnonFault else .doFileFault

def closeFile (k : Kernel) : Option KernelPtr → Kernel
  | none => k
  | some fp => tarfsClose k fp

def deallocateVma (k : Kernel) (vma : Vma) : Kernel :=
  { closeFile k vma.file with machine := release (closeFile k vma.file).machine vma.node }

inductive Region where
  | failed
  | mapped (vmas : List Vma) (vma : Vma)
  | wild

def mmapRegion (k : Kernel) (vmas : List Vma) (file : Option KernelPtr)
    (addr filesz memsz off prot : Word) : Kernel × Region :=
  if kernbase < addr then (k,.failed)
  else if (alloc k.machine).2 = 0 then ({ k with machine := (alloc k.machine).1 },.failed)
  else
    let vma := regionVma (object k.machine).2 file addr filesz memsz off prot
    let k₁ := { k with machine := (object k.machine).1 }
    if memsz < filesz then (k₁,.failed)
    else
      match addVma vmas vma with
      | .added vmas' => (k₁,.mapped vmas' vma)
      | .wild => (k₁,.wild)
      | .failed => (deallocateVma k₁ vma,.failed)

def insertThenDelete (pid : Word → BitVec 16) (s : Machine) (allproc : List ProcList)
    (process : Word) : Machine :=
  let inserted := insertAllproc s allproc process
  (deleteFromAllproc pid inserted.1 inserted.2.1 process).1

def openThenClose (k : Kernel) (dentryCache : List (List Byte)) (fd : List (Option KernelPtr))
    (buffer : KernelPtr) (pathname : List Byte) : Kernel :=
  match tarfsOpen k dentryCache fd buffer pathname with
  | (k',none) => k'
  | (k',some (_,fp)) => tarfsClose k' fp

def mapThenDeallocate (k : Kernel) (vmas : List Vma) (file : Option KernelPtr)
    (addr filesz memsz off prot : Word) : Kernel :=
  match mmapRegion k vmas file addr filesz memsz off prot with
  | (k',.mapped _ vma) => deallocateVma k' vma
  | (k',.failed) => k'
  | (k',.wild) => k'

def Window (s : Machine) : Prop :=
  ∀ a ∈ addresses s.pages, 0 < a.toNat ∧ a.toNat < 2^31

theorem kernelPtr_above (p : KernelPtr) : 2^64-2^31 ≤ p.val.toNat := by
  have h := congrArg BitVec.toNat p.property
  rw [BitVec.toNat_and, show kernbase.toNat = 2^64-2^31 by decide] at h
  rw [← h]
  exact Nat.and_le_left

theorem kernelPtr_high (p : KernelPtr) : 2^31 ≤ p.val.toNat := by
  have h := kernelPtr_above p
  omega

theorem free_alias (p : KernelPtr) {pages : List Page}
    (hw : ∀ a ∈ addresses pages, 0 < a.toNat ∧ a.toNat < 2^31) :
    physMemFree p.val pages = pages := by
  induction pages with
  | nil => rfl
  | cons q pages ih =>
    have hq : q.physAddrOfPage ≠ p.val := by
      intro he
      have hlow := (hw q.physAddrOfPage (by simp [addresses])).2
      have hhigh := kernelPtr_high p
      rw [he] at hlow
      omega
    rw [physMemFree, if_neg hq, ih]
    intro a ha
    exact hw a (List.mem_cons_of_mem _ ha)

theorem freeCount_allocated (pages : List Page) :
    freeCount (physMemAlloc pages).1 = freeCount pages-1 := by
  rcases alloc_cases pages with ⟨hall,he⟩ | ⟨us,p,vs,rfl,hu,hp,he⟩
  · have hz : freeCount pages = 0 := by simpa [freeCount, List.countP_eq_zero] using hall
    rw [he, freeCount_map repaired_used, hz]
  · rw [he, freeCount_taken us vs hp]
    rfl

theorem freeCount_allocs (k : ℕ) (pages : List Page) :
    freeCount (allocs k pages) = freeCount pages-k := by
  induction k generalizing pages with
  | zero => rfl
  | succ k ih =>
    rw [allocs, ih, freeCount_allocated]
    omega

theorem addresses_allocs (k : ℕ) (pages : List Page) :
    addresses (allocs k pages) = addresses pages := by
  induction k generalizing pages with
  | zero => rfl
  | succ k ih => rw [allocs, ih, addresses_alloc]

theorem allocs_allocs (j k : ℕ) (pages : List Page) :
    allocs j (allocs k pages) = allocs (k+j) pages := by
  induction k generalizing pages with
  | zero => rw [allocs, Nat.zero_add]
  | succ k ih => rw [allocs, ih, Nat.succ_add, allocs]

def Takes (k : ℕ) (s s' : Machine) : Prop := s'.pages = allocs k s.pages

theorem takes_window (k : ℕ) (s s' : Machine) (h : Takes k s s') (hw : Window s) : Window s' := by
  intro a ha
  rw [h, addresses_allocs] at ha
  exact hw a ha

variable {s : Machine}

theorem takes_trans {j : ℕ} (k : ℕ) {s₁ s₂ : Machine} (h : Takes j s s₁) (h' : Takes k s₁ s₂) :
    Takes (j+k) s s₂ := by
  rw [Takes, h', h, allocs_allocs]

theorem takes_none (s : Machine) : Takes 0 s s := rfl

theorem takes_alloc (s : Machine) : Takes 1 s (alloc s).1 := rfl

theorem takes_release (p : KernelPtr) (hw : Window s) : Takes 0 s (release s p) :=
  free_alias p hw

theorem takes_count {k : ℕ} {s' : Machine} (h : Takes k s s') :
    freeCount s'.pages = freeCount s.pages ↔ k = 0 ∨ freeCount s.pages = 0 := by
  rw [h, freeCount_allocs]
  omega

section
variable (s : Machine) (hw : Window s)

theorem insert_takes (list : List ProcList) (process : Word) :
    Takes (if process = 0 then 0 else 1) s (insertAllproc s list process).1 := by
  simp only [insertAllproc, insertProcess]
  split_ifs
  · exact takes_none s
  · exact takes_alloc s
  · exact takes_alloc s

include hw

theorem delete_takes (pid : Word → BitVec 16) {list : List ProcList} (process : Word) :
    Takes 0 s (deleteFromAllproc pid s list process).1 := by
  simp only [deleteFromAllproc, deleteProcess]
  split_ifs
  · exact takes_none s
  · cases deleteNode (fun n => pid n.process = pid process) list with
    | none => exact takes_none s
    | some d => exact takes_release d.2 hw

theorem task_takes : Takes 2 s (releaseTask (newTask s).1 (newTask s).2) := by
  have hn : Takes 2 s (newTask s).1 := rfl
  have hk := takes_release (newTask s).2.kstack (takes_window _ _ _ hn hw)
  have hp := takes_release (newTask s).2.pcb (takes_window _ _ _ (takes_trans _ hn hk) hw)
  exact takes_trans _ (takes_trans _ hn hk) hp

end

section
variable (k : Kernel) (hw : Window k.machine)
include hw

theorem close_takes (fp : KernelPtr) : Takes 0 k.machine (tarfsClose k fp).machine := by
  simp only [tarfsClose]
  split_ifs
  · exact takes_release fp hw
  · exact takes_none k.machine

theorem deallocate_takes (vma : Vma) : Takes 0 k.machine (deallocateVma k vma).machine := by
  have hc : Takes 0 k.machine (closeFile k vma.file).machine := by
    cases vma.file with
    | none => exact takes_none k.machine
    | some fp => exact close_takes k hw fp
  exact takes_trans _ hc (takes_release vma.node (takes_window _ _ _ hc hw))

theorem region_takes (vmas : List Vma) (file : Option KernelPtr)
    (addr filesz memsz off prot : Word) :
    Takes (if kernbase < addr then 0 else 1) k.machine
      (mmapRegion k vmas file addr filesz memsz off prot).1.machine := by
  have ha := takes_alloc k.machine
  unfold mmapRegion
  dsimp only
  split_ifs
  · exact takes_none k.machine
  · exact ha
  · exact ha
  · cases addVma vmas (regionVma (object k.machine).2 file addr filesz memsz off prot) with
    | added vmas' => exact ha
    | wild => exact ha
    | failed =>
      exact takes_trans 0 ha
        (deallocate_takes ⟨(object k.machine).1,k.fRefcount⟩ (takes_window _ _ _ ha hw) _)

theorem mapThenDeallocate_takes (vmas : List Vma) (file : Option KernelPtr)
    (addr filesz memsz off prot : Word) :
    Takes (if kernbase < addr then 0 else 1) k.machine
      (mapThenDeallocate k vmas file addr filesz memsz off prot).machine := by
  have hr := region_takes k hw vmas file addr filesz memsz off prot
  unfold mapThenDeallocate
  generalize mmapRegion k vmas file addr filesz memsz off prot = r at *
  obtain ⟨k',o⟩ := r
  cases o with
  | failed => exact hr
  | wild => exact hr
  | mapped vmas' vma =>
    exact takes_trans 0 hr (deallocate_takes k' (takes_window _ _ _ hr hw) vma)

def openFrames (dentryCache : List (List Byte)) (fd : List (Option KernelPtr))
    (pathname : List Byte) : ℕ :=
  (if startsWithDot pathname then 0 else 1)+
    if (availableFd fd).isNone then 0
    else if (checkCorrectFile dentryCache (lookupName pathname)).isNone then 1 else 3

theorem open_takes (dentryCache : List (List Byte)) (fd : List (Option KernelPtr))
    (buffer : KernelPtr) (pathname : List Byte) :
    Takes (openFrames dentryCache fd pathname) k.machine
      (tarfsOpen k dentryCache fd buffer pathname).1.machine := by
  have h₁ : Takes (if startsWithDot pathname then 0 else 1) k.machine
      (if startsWithDot pathname then k.machine
        else (zeroedObject k.machine).1) := by
    split_ifs
    · exact takes_none k.machine
    · exact takes_alloc k.machine
  unfold tarfsOpen openFrames
  dsimp only
  generalize (if startsWithDot pathname then k.machine
    else (zeroedObject k.machine).1) = s₁ at *
  have hw₁ := takes_window _ _ _ h₁ hw
  have h₂ : Takes 1 s₁ (zeroedObject s₁).1 := rfl
  cases availableFd fd with
  | none => exact takes_trans 0 h₁ (takes_release buffer hw₁)
  | some i =>
    cases checkCorrectFile dentryCache (lookupName pathname) with
    | none =>
      exact takes_trans 1 h₁ (takes_trans 0 h₂ (takes_release buffer (takes_window _ _ _ h₂ hw₁)))
    | some d => exact takes_trans 3 h₁ (takes_trans 2 h₂ rfl)

theorem openThenClose_takes (dentryCache : List (List Byte)) (fd : List (Option KernelPtr))
    (buffer : KernelPtr) (pathname : List Byte) :
    Takes (openFrames dentryCache fd pathname) k.machine
      (openThenClose k dentryCache fd buffer pathname).machine := by
  have ho := open_takes k hw dentryCache fd buffer pathname
  unfold openThenClose
  generalize tarfsOpen k dentryCache fd buffer pathname = r at *
  obtain ⟨k',o⟩ := r
  cases o with
  | none => exact ho
  | some d => exact takes_trans 0 ho (close_takes k' (takes_window _ _ _ ho hw) d.2)

end

theorem alloc_null_iff (hw : Window s) : (alloc s).2 = 0 ↔ freeCount s.pages = 0 := by
  constructor
  · apply alloc_zero
    intro p hp hz
    have hpos := (hw p.physAddrOfPage (List.mem_map.mpr ⟨p,hp,rfl⟩)).1
    rw [hz] at hpos
    exact absurd hpos (by decide)
  · intro hz
    rcases alloc_cases s.pages with ⟨_,he⟩ | ⟨us,p,vs,hs,_,hp,_⟩
    · rw [alloc_frame, he]
    · rw [hs, freeCount, List.countP_eq_zero] at hz
      simpa [hp] using hz p (by simp)

theorem alloc_in_use (hd : (addresses s.pages).Nodup) (ha : (alloc s).2 ≠ 0) :
    ¬ Unused (alloc s).1.pages (alloc s).2 := by
  rintro ⟨q,hq,haddr,hfree⟩
  obtain ⟨⟨p,_,_,htaken⟩,_⟩ := pageOf_alloc hd ha
  have hd' : (addresses (alloc s).1.pages).Nodup := by
    rw [alloc_pages, addresses_alloc]
    exact hd
  have hq' := pageOf_some hd' hq
  rw [haddr, alloc_pages, alloc_frame, htaken] at hq'
  obtain rfl := Option.some.inj hq'
  exact absurd hfree (by simp [taken])

/-- Releasing an alias changes nothing: a frame is free afterwards only if it
was free before. An object's frames come back to the count of free frames
only where none was taken for it, which is when none was left or when the
constructor gave up before its first allocation. -/
theorem released_aliases_stay_in_use (k : Kernel) (hd : (addresses k.machine.pages).Nodup)
    (hw : Window k.machine) :
    (∀ f, Unused (release k.machine (kernelPtr f)).pages f ↔ Unused k.machine.pages f) ∧
    (((alloc k.machine).2 ≠ 0 →
        Unused (release (alloc k.machine).1 (kernelPtr (alloc k.machine).2)).pages
          (alloc k.machine).2) ↔ freeCount k.machine.pages = 0) ∧
    (∀ pid allproc process,
      freeCount (insertThenDelete pid k.machine allproc process).pages =
        freeCount k.machine.pages ↔ process = 0 ∨ freeCount k.machine.pages = 0) ∧
    (∀ dentryCache fd buffer pathname,
      freeCount (openThenClose k dentryCache fd buffer pathname).machine.pages =
        freeCount k.machine.pages ↔
      startsWithDot pathname = true ∧ availableFd fd = none ∨ freeCount k.machine.pages = 0) ∧
    (∀ vmas file addr filesz memsz off prot,
      freeCount (mapThenDeallocate k vmas file addr filesz memsz off prot).machine.pages =
        freeCount k.machine.pages ↔ kernbase < addr ∨ freeCount k.machine.pages = 0) ∧
    (freeCount (releaseTask (newTask k.machine).1 (newTask k.machine).2).pages =
      freeCount k.machine.pages ↔ freeCount k.machine.pages = 0) := by
  have hnull := alloc_null_iff hw
  refine ⟨?_,?_,?_,?_,?_,?_⟩
  · intro f
    rw [release, free_alias _ hw]
  · have hw' := takes_window _ _ _ (takes_alloc k.machine) hw
    rw [release, free_alias _ hw']
    constructor
    · intro h
      by_contra hne
      exact alloc_in_use hd (mt hnull.mp hne) (h (mt hnull.mp hne))
    · intro hz ha
      exact absurd (hnull.mpr hz) ha
  · intro pid allproc process
    have hi := insert_takes k.machine allproc process
    have hboth : Takes (if process = 0 then 0 else 1) k.machine
        (insertThenDelete pid k.machine allproc process) :=
      takes_trans 0 hi (delete_takes _ (takes_window _ _ _ hi hw) pid process)
    rw [takes_count hboth]
    split_ifs with hp
    · exact iff_of_true (Or.inl rfl) (Or.inl hp)
    · simp only [hp]
  · intro dentryCache fd buffer pathname
    rw [takes_count (openThenClose_takes k hw dentryCache fd buffer pathname), openFrames]
    have hn := Option.isNone_iff_eq_none (o := availableFd fd)
    split_ifs with hdot hfd hfile <;> simp_all
  · intro vmas file addr filesz memsz off prot
    rw [takes_count (mapThenDeallocate_takes k hw vmas file addr filesz memsz off prot)]
    split_ifs with hk <;> simp [hk]
  · rw [takes_count (task_takes k.machine hw)]
    simp

def smallKernel : Kernel :=
  ⟨⟨fun _ => 0,[⟨0x1000,0,false⟩,⟨0x2000,0,false⟩],0x8000,0x8000,0⟩,fun _ => 0⟩

theorem released_aliases_stay_in_use_small :
    freeCount (releaseTask (newTask smallKernel.machine).1 (newTask smallKernel.machine).2).pages ≠
      freeCount smallKernel.machine.pages := by
  have h := (released_aliases_stay_in_use smallKernel (by decide)
    (by simp [Window, smallKernel, addresses])).2.2.2.2.2
  rw [Ne, h]
  decide

/-- The node goes back under its alias, which no record has. -/
theorem allproc_node_lost :
    freeCount smallKernel.machine.pages = 2 ∧
    (alloc smallKernel.machine).2 = 0x1000 ∧
    ¬ Unused (release (alloc smallKernel.machine).1 (kernelPtr 0x1000)).pages 0x1000 ∧
    freeCount (insertThenDelete (fun _ => 7) smallKernel.machine []
      0xFFFFFFFF80009000).pages = 1 := by
  refine ⟨by decide,by decide,?_,by decide⟩
  unfold Unused
  decide

end PreemptiveOS.KernelObjects
