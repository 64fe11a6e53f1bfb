import PreemptiveOS.FrameCounts
import PreemptiveOS.SpaceCopies

/-!
# Nodes shared between address spaces

The processes with their descriptors and address spaces, on the nodes in
memory. They open and close files, exec, fork, map, unmap and exit in any order.

The stack of every exec is described by the node at `KERNBASE`. A second exec
writes its links again, and then one node is in two lists and points back into
the later one only. Apart from that, and from the removal of a first VMA, every
list has nodes of its own as long as no exec or fork lacks a frame.
-/

set_option autoImplicit false

namespace PreemptiveOS.VmaSharing
open ByteMemory PhysMmgr VirtMmgr PageTree Vmas KernelObjects PageFaults Exec LinkedQueues
open DoubleLinks VmaNodes Fork FrameGrowth ExecLeaves NodeSpaces SpaceRefinement
open SpaceCopies

structure Process where
  fd : List (Option KernelPtr)
  mm : Mm

structure System where
  kernel : Kernel
  nodes : Nodes
  processes : ℕ → Option Process
  closes : List Close

inductive Event where
  | openFile (i : ℕ) (pathname : List Byte)
  | openTerminal (i : ℕ)
  | close (i fd : ℕ)
  | exec (i : ℕ) (args : ExecArgs)
  | fork (i child : ℕ)
  | mmap (i : ℕ) (source : Option (ℕ × BitVec 32)) (addr len prot off : Word)
      (privateAndShared : Bool)
  | munmap (i : ℕ) (addr size : Word)
  | exit (i : ℕ)

def sysOpen (dentryCache : List (List Byte)) (k : Kernel) (fd : List (Option KernelPtr))
    (pathname : List Byte) : Kernel × Option (ℕ × KernelPtr) :=
  tarfsOpen { k with machine := (object k.machine).1 } dentryCache fd (object k.machine).2 pathname

/-- The terminal's file is set up before a descriptor is looked for. -/
def terminalOpen (k : Kernel) (fd : List (Option KernelPtr)) : Kernel × Option (ℕ × KernelPtr) :=
  let fp := (zeroedObject k.machine).2
  let s := (object (zeroedObject k.machine).1).1
  let count := fun p => if p = fp then 1 else k.fRefcount p
  match availableFd fd with
  | none => (⟨release s fp,count⟩,none)
  | some i => (⟨s,count⟩,some (i,fp))

def copyFds : List (Option KernelPtr) → List (Option KernelPtr)
  | [] => []
  | none::rest => none::rest.map (fun _ => none)
  | some fp::rest => some fp::copyFds rest

/-- The count of the executable goes up, and a null pointer is written through
where there is none. A child that gets into no list is no process. -/
def doFork (k : Kernel) (n : Nodes) (p : Process) : Option (Kernel × Nodes × Option Process) :=
  p.mm.file.bind (fun file =>
    (NodeSpaces.dupMm (forkObjects k.machine) ⟨n,p.mm.vma⟩).bind (fun dup =>
      (readVmas dup.2.nodes (rounds dup.1) p.mm.vma).map (fun vmas =>
        let copied := copyVm dup.1 vmas p.mm.cr3
        let child : Process := ⟨copyFds p.fd,⟨dup.2.head,copied.2,some file⟩⟩
        (⟨forkThread copied.1,fun q => if q = file then k.fRefcount q+1 else k.fRefcount q⟩,
          dup.2.nodes,if (alloc (zeroedObject copied.1).1).2 = 0 then none else some child))))

/-- Only the files whose count is zero are closed. -/
def exitFiles : Kernel → List (Option KernelPtr) → Kernel × List Close
  | k, [] => (k,[])
  | k, none::_ => (k,[])
  | k, some fp::rest =>
    if k.fRefcount fp = 0 then
      ((exitFiles (tarfsClose k fp) rest).1,⟨fp,0⟩::(exitFiles (tarfsClose k fp) rest).2)
    else exitFiles k rest

def vmaCloses : Kernel → List Vma → List Close
  | _, [] => []
  | k, vma::rest => closeOf k vma.file++vmaCloses (deallocateVma k vma) rest

def exitProcess (k : Kernel) (n : Nodes) (p : Process) : Option (Kernel × List Close) :=
  let files := exitFiles k p.fd
  (readVmas n (rounds k.machine) p.mm.vma).map (fun vmas =>
    (FrameCounts.exitVmmaps files.1 ⟨vmas,p.mm.cr3,p.mm.file⟩,files.2++vmaCloses files.1 vmas))

def opened (x : System) (i : ℕ) (p : Process) (r : Kernel × Option (ℕ × KernelPtr)) : System :=
  match r.2 with
  | none => { x with kernel := r.1 }
  | some (d,fp) =>
    { x with
      kernel := r.1
      processes := Function.update x.processes i (some { p with fd := p.fd.set d (some fp) }) }

/-- The executable gets a descriptor too, and without one it is not opened. -/
def execArgs (p : Process) (args : ExecArgs) : ExecArgs :=
  { args with found := args.found && (availableFd p.fd).isSome }

def execFds (fd : List (Option KernelPtr)) (file : Option KernelPtr) : List (Option KernelPtr) :=
  match availableFd fd with
  | none => fd
  | some d => fd.set d file

def fileAt (p : Process) (d : ℕ) : Option KernelPtr := (p.fd[d]?).join

def mmapCall (p : Process) (source : Option (ℕ × BitVec 32)) (addr len prot off : Word)
    (privateAndShared : Bool) : Option VmaRuns.MmapCall :=
  match source with
  | none => some ⟨none,addr,len,prot,off,privateAndShared⟩
  | some (d,size) =>
    (fileAt p d).map (fun fp => ⟨some (fp,size),addr,len,prot,off,privateAndShared⟩)

/-- A close leaves its slot as it is. -/
def step (files : KernelPtr → FileData) (dentryCache : List (List Byte)) (x : System) :
    Event → Option System
  | .openFile i pathname =>
    (x.processes i).map (fun p => opened x i p (sysOpen dentryCache x.kernel p.fd pathname))
  | .openTerminal i =>
    (x.processes i).map (fun p => opened x i p (terminalOpen x.kernel p.fd))
  | .close i d =>
    (x.processes i).bind (fun p =>
      (p.fd[d]?).map (fun slot =>
        { x with kernel := closeFile x.kernel slot, closes := closeOf x.kernel slot++x.closes }))
  | .exec i args =>
    (x.processes i).bind (fun p =>
      (NodeSpaces.doExecve files x.kernel x.nodes (execArgs p args)).map (fun e =>
        ⟨e.kernel,e.nodes,
          Function.update x.processes i (some ⟨execFds p.fd e.mm.file,e.mm⟩),e.closes++x.closes⟩))
  | .fork i child =>
    (x.processes i).bind (fun p =>
      if (x.processes child).isSome then none
      else
        (doFork x.kernel x.nodes p).map (fun r =>
          ⟨r.1,r.2.1,Function.update x.processes child r.2.2,x.closes⟩))
  | .mmap i source addr len prot off both =>
    (x.processes i).bind (fun p =>
      (mmapCall p source addr len prot off both).bind (fun c =>
        let r := NodeSpaces.mmap x.kernel ⟨x.nodes,p.mm.vma⟩ c
        r.space.map (fun y =>
          ⟨r.kernel,y.1.nodes,
            Function.update x.processes i (some { p with mm := { p.mm with vma := y.1.head } }),
            r.closes++x.closes⟩)))
  | .munmap i addr size =>
    (x.processes i).bind (fun p =>
      (doMunmap x.kernel ⟨x.nodes,p.mm.vma⟩ addr size).map (fun r =>
        ⟨r.1,r.2.2.nodes,
          Function.update x.processes i (some { p with mm := { p.mm with vma := r.2.2.head } }),
          r.2.1++x.closes⟩))
  | .exit i =>
    (x.processes i).bind (fun p =>
      (exitProcess x.kernel x.nodes p).map (fun r =>
        { x with
          kernel := r.1
          processes := Function.update x.processes i none
          closes := r.2++x.closes }))

inductive Reachable (n : Nodes) : Option KernelPtr → KernelPtr → Prop
  | here (v : KernelPtr) : Reachable n (some v) v
  | behind (v w : KernelPtr) : Reachable n (n.next v) w → Reachable n (some v) w

structure Separate (x : System) : Prop where
  inverse : ∀ i p, x.processes i = some p → ∃ l, VmaNodes.Linked ⟨x.nodes,p.mm.vma⟩ l
  apart : ∀ i j p q, i ≠ j → x.processes i = some p → x.processes j = some q → ∀ v,
    Reachable x.nodes p.mm.vma v → ¬ Reachable x.nodes q.mm.vma v

structure Booted (x : System) : Prop where
  frames : FramesOk x.kernel.machine.pages
  threads : ∀ i p, x.processes i = some p →
    p.fd = List.replicate 256 none ∧ p.mm.vma = none ∧ p.mm.file = none
  closes : x.closes = []

def KeepsApart (x y : System) : Event → Prop
  | .exec i _ => y.kernel.machine.shortages = x.kernel.machine.shortages ∧
    ∀ j q, j ≠ i → x.processes j = some q → ¬ Reachable x.nodes q.mm.vma (kernelPtr 0)
  | .fork _ _ => y.kernel.machine.shortages = x.kernel.machine.shortages
  | .munmap i addr size => ∀ p, x.processes i = some p → ∀ v,
    munmapRegion x.kernel ⟨x.nodes,p.mm.vma⟩ addr size = some (some v) → p.mm.vma ≠ some v
  | _ => True

inductive Reaches (files : KernelPtr → FileData) (dentryCache : List (List Byte))
    (allowed : System → System → Event → Prop) (x : System) : System → Prop
  | refl : Reaches files dentryCache allowed x x
  | step (y z : System) (e : Event) : Reaches files dentryCache allowed x y →
      step files dentryCache y e = some z → allowed y z e → Reaches files dentryCache allowed x z

variable {n : Nodes}

theorem reachable_chain (head : Option KernelPtr) {l : List KernelPtr} (v : KernelPtr)
    (h : Chain n.next head l) : Reachable n head v ↔ v ∈ l := by
  induction l generalizing head with
  | nil =>
    obtain rfl : head = none := h
    exact iff_of_false (fun hr => by cases hr) List.not_mem_nil
  | cons p l ih =>
    obtain ⟨rfl,hrest⟩ := h
    rw [List.mem_cons, ← ih _ hrest]
    constructor
    · intro hr
      cases hr with
      | here => exact Or.inl rfl
      | behind _ _ hr => exact Or.inr hr
    · rintro (rfl | hr)
      · exact .here v
      · exact .behind p v hr

structure Apart (x : System) (vs : ℕ → List Vma) : Prop where
  frames : FramesOk x.kernel.machine.pages
  shown : ∀ i p, x.processes i = some p → Shown ⟨x.nodes,p.mm.vma⟩ (vs i)
  kept : ∀ i p, x.processes i = some p → ∀ v ∈ vs i, KeptNode x.kernel.machine v.node
  apart : ∀ i j p q, i ≠ j → x.processes i = some p → x.processes j = some q →
    ∀ v ∈ vs i, ∀ w ∈ vs j, v.node ≠ w.node

variable {x : System} {vs : ℕ → List Vma}

theorem apart_separate (h : Apart x vs) : Separate x := by
  have hreach : ∀ i p, x.processes i = some p → ∀ v,
      Reachable x.nodes p.mm.vma v ↔ v ∈ (vs i).map Vma.node := fun i p hp v =>
    reachable_chain p.mm.vma v (doubly_chain _ _ (h.shown i p hp).linked)
  constructor
  case inverse => exact fun i p hp => ⟨_,(h.shown i p hp).linked⟩
  case apart =>
    intro i j p q hij hp hq v hv hw
    rw [hreach i p hp] at hv
    rw [hreach j q hq] at hw
    obtain ⟨a,ha,rfl⟩ := List.mem_map.mp hv
    obtain ⟨b,hb,he⟩ := List.mem_map.mp hw
    exact h.apart i j p q hij hp hq a ha b hb he.symm

variable {own : KernelPtr → Prop} {vmas : List Vma} {q : Process} {y : System} {i : ℕ}

section
variable {x : System} {vs : ℕ → List Vma} (h : Apart x vs)
include h

theorem apart_not_open {j : ℕ} (hq : x.processes j = some q) (hown : ∀ v ∈ vs j, ¬ own v.node) :
    ∀ v ∈ vs j, ¬ Open own x.kernel.machine v.node := by
  rintro v hv (ho | hfresh)
  · exact hown v hv ho
  · exact kept_not_fresh h.frames (h.kept j q hq v hv) hfresh

theorem apart_step (hgrow : Grows x.kernel.machine y.kernel.machine)
    (hothers : ∀ j, j ≠ i → y.processes j = x.processes j)
    (hown : ∀ j q, j ≠ i → x.processes j = some q → ∀ v ∈ vs j, ¬ own v.node)
    (hframe : Frame (Open own x.kernel.machine) x.nodes y.nodes)
    (hlaid : ∀ p, y.processes i = some p →
      Laid x.kernel.machine y.kernel.machine own x.nodes ⟨y.nodes,p.mm.vma⟩ vmas) :
    Apart y (Function.update vs i vmas) := by
  have hself : Function.update vs i vmas i = vmas := Function.update_self i vmas vs
  have hother : ∀ j, j ≠ i → Function.update vs i vmas j = vs j :=
    fun j hj => Function.update_of_ne hj vmas vs
  have hclosed : ∀ j q, j ≠ i → x.processes j = some q →
      ∀ v ∈ vs j, ¬ Open own x.kernel.machine v.node := fun j q hj hq =>
    apart_not_open h hq (hown j q hj hq)
  constructor
  case frames => exact grows_frames hgrow h.frames
  case shown =>
    intro j q hq
    by_cases hj : j = i
    · subst hj
      rw [hself]
      exact (hlaid q hq).shown
    · rw [hother j hj]
      rw [hothers j hj] at hq
      exact shown_frame hframe (hclosed j q hj hq) (h.shown j q hq)
  case kept =>
    intro j q hq
    by_cases hj : j = i
    · subst hj
      rw [hself]
      exact (hlaid q hq).kept
    · rw [hother j hj]
      rw [hothers j hj] at hq
      exact fun v hv => kept_after hgrow h.frames (h.kept j q hq v hv)
  case apart =>
    intro j l p q hjl hp hq v hv w hw he
    by_cases hj : j = i
    · subst hj
      have hl : l ≠ j := fun he => hjl he.symm
      rw [hself] at hv
      rw [hother l hl] at hw
      rw [hothers l hl] at hq
      exact hclosed l q hl hq w hw (he ▸ (hlaid p hp).within v hv)
    · rw [hother j hj] at hv
      rw [hothers j hj] at hp
      by_cases hl : l = i
      · subst hl
        rw [hself] at hw
        exact hclosed j p hj hp v hv (he ▸ (hlaid q hq).within w hw)
      · rw [hother l hl] at hw
        rw [hothers l hl] at hq
        exact h.apart j l p q hjl hp hq v hv w hw he

end

theorem grows_path (s : Machine) (pathname : List Byte) :
    Grows s (if startsWithDot pathname then (object s).1 else (zeroedObject (object s).1).1) := by
  split_ifs
  · exact grows_object _
  · exact grows_trans (grows_object _) (grows_zeroedObject _)

theorem grows_sysOpen (dentryCache : List (List Byte)) (k : Kernel) (fd : List (Option KernelPtr))
    (pathname : List Byte) : Grows k.machine (sysOpen dentryCache k fd pathname).1.machine := by
  have hpath := grows_path k.machine pathname
  rw [sysOpen, tarfsOpen]
  dsimp only
  generalize (if startsWithDot pathname then (object k.machine).1
    else (zeroedObject (object k.machine).1).1) = s at *
  have hlookup := grows_trans hpath (grows_zeroedObject s)
  cases availableFd fd with
  | none => exact grows_trans hpath (grows_work (work_release s _))
  | some i =>
    cases checkCorrectFile dentryCache (lookupName pathname) with
    | none => exact grows_trans hlookup (grows_work (work_release _ _))
    | some d => exact grows_trans hlookup (grows_trans (grows_zeroedObject _) (grows_object _))

theorem grows_terminalOpen (k : Kernel) (fd : List (Option KernelPtr)) :
    Grows k.machine (terminalOpen k fd).1.machine := by
  have hfile := grows_trans (grows_zeroedObject k.machine) (grows_object _)
  rw [terminalOpen]
  cases availableFd fd with
  | none => exact grows_trans hfile (grows_work (work_release _ _))
  | some i => exact hfile

theorem grows_mmap (k : Kernel) (vmas : List Vma) (c : VmaRuns.MmapCall) :
    Grows k.machine (VmaRuns.mmap k vmas c).1.machine := by
  unfold VmaRuns.mmap
  dsimp only
  split
  · exact grows_same rfl rfl
  · split
    · exact grows_same rfl rfl
    · exact grows_work (work_mmapRegion k vmas _ _ _ _ _)

theorem grows_exitFiles (fd : List (Option KernelPtr)) (k : Kernel) :
    Grows k.machine (exitFiles k fd).1.machine := by
  induction fd generalizing k with
  | nil => exact grows_same rfl rfl
  | cons slot rest ih =>
    cases slot with
    | none => exact grows_same rfl rfl
    | some fp =>
      rw [exitFiles]
      split_ifs
      · exact grows_trans (grows_work (work_closeFile k (some fp))) (ih _)
      · exact ih k

variable {args : ExecArgs} {e : Execed} {k : Kernel} {files : KernelPtr → FileData} {p : Process}

section
variable {x : System} {vs : ℕ → List Vma} (h : Apart x vs)
include h

theorem apart_same (y : System) (hgrow : Grows x.kernel.machine y.kernel.machine)
    (hnodes : y.nodes = x.nodes)
    (hsame : ∀ i p, y.processes i = some p → ∃ q, x.processes i = some q ∧ q.mm = p.mm) :
    Apart y vs := by
  constructor
  case frames => exact grows_frames hgrow h.frames
  case shown =>
    intro i p hp
    obtain ⟨q,hq,hmm⟩ := hsame i p hp
    rw [hnodes, ← hmm]
    exact h.shown i q hq
  case kept =>
    intro i p hp v hv
    obtain ⟨q,hq,_⟩ := hsame i p hp
    exact kept_after hgrow h.frames (h.kept i q hq v hv)
  case apart =>
    intro i j p q hij hp hq
    obtain ⟨p',hp',_⟩ := hsame i p hp
    obtain ⟨q',hq',_⟩ := hsame j q hq
    exact h.apart i j p' q' hij hp' hq'

theorem apart_opened (hp : x.processes i = some p) {r : Kernel × Option (ℕ × KernelPtr)}
    (hgrow : Grows x.kernel.machine r.1.machine) : Apart (opened x i p r) vs := by
  obtain ⟨k,r⟩ := r
  rcases r with _ | ⟨d,fp⟩
  · exact apart_same h _ hgrow rfl (fun j q hq => ⟨q,hq,rfl⟩)
  · apply apart_same h (opened x i p (k,some (d,fp))) hgrow rfl
    intro j q hq
    by_cases hj : j = i
    · subst hj
      obtain rfl : { p with fd := p.fd.set d (some fp) } = q := by simpa [opened] using hq
      exact ⟨p,hp,rfl⟩
    · have hq' : x.processes j = some q := by simpa [opened, Function.update_of_ne hj] using hq
      exact ⟨q,hq',rfl⟩

theorem apart_exec (fd : List (Option KernelPtr)) (closes : List Close)
    (he : NodeSpaces.doExecve files x.kernel x.nodes args = some e)
    (hok : e.kernel.machine.shortages = x.kernel.machine.shortages)
    (hbase : ∀ j q, j ≠ i → x.processes j = some q → ¬ Reachable x.nodes q.mm.vma (kernelPtr 0)) :
    ∃ img, Exec.doExecve files x.kernel args = some img ∧ Depicts x.kernel x.nodes img e ∧
      Apart ⟨e.kernel,e.nodes,Function.update x.processes i (some ⟨fd,e.mm⟩),closes⟩
        (Function.update vs i img.mm.vma) := by
  obtain ⟨img,himg,hd⟩ := exec_shown h.frames he hok
  have hgrow := grows_exec himg
  rw [← hd.kernel] at hgrow
  have hlaid := hd.laid
  rw [← hd.kernel] at hlaid
  refine ⟨img,himg,hd,apart_step h hgrow ?_ ?_ hlaid.frame ?_⟩
  · exact fun j hj => Function.update_of_ne hj _ _
  · intro j q hj hq v hv hat
    apply hbase j q hj hq
    rw [reachable_chain q.mm.vma _ (doubly_chain _ _ (h.shown j q hq).linked), ← hat]
    exact List.mem_map_of_mem hv
  · intro p hp
    obtain rfl : ⟨fd,e.mm⟩ = p := by simpa using hp
    exact hlaid

theorem apart_fork (child : ℕ) (hp : x.processes i = some p) {r : Kernel × Nodes × Option Process}
    (hr : doFork x.kernel x.nodes p = some r)
    (hok : r.1.machine.shortages = x.kernel.machine.shortages) (closes : List Close) :
    Apart ⟨r.1,r.2.1,Function.update x.processes child r.2.2,closes⟩
      (Function.update vs child (Fork.dupMm (forkObjects x.kernel.machine) (vs i)).2) := by
  have hobj := grows_work (work_forkObjects x.kernel.machine)
  obtain ⟨file,_,hr⟩ := Option.bind_eq_some_iff.mp hr
  obtain ⟨dup,hd,hr⟩ := Option.bind_eq_some_iff.mp hr
  obtain ⟨vmas,_,rfl⟩ := Option.map_eq_some_iff.mp hr
  have hcopy := grows_trans (grows_copyVm dup.1 vmas p.mm.cr3) (grows_work (work_forkThread _))
  dsimp only at hok ⊢
  have hdup := grows_dupMmFrom _ _ _ _ _ hd
  obtain ⟨hok₁,_⟩ := grows_supply (grows_trans hobj hdup) hcopy hok
  obtain ⟨_,hok₂⟩ := grows_supply hobj hdup hok₁
  obtain ⟨x',hx,hlaid⟩ := dupMm_laid h.frames hobj (h.shown i p hp) (h.kept i p hp)
    (Or.inr ⟨dup.1,dup.2,hd,hok₂⟩)
  obtain rfl : (_,x') = dup := Option.some.inj (hx.symm.trans hd)
  have hgrow := grows_trans (grows_trans hobj hdup) hcopy
  refine apart_step h hgrow ?_ ?_ hlaid.frame ?_
  · exact fun j hj => Function.update_of_ne hj _ _
  · exact fun j q hj hq v hv hno => hno
  · intro q hq
    have hq' : q.mm.vma = x'.head := by
      dsimp only at hq
      rw [Function.update_self] at hq
      split_ifs at hq
      obtain rfl := Option.some.inj hq
      rfl
    rw [hq']
    exact laid_grows (grows_frames (grows_trans hobj hdup) h.frames) hcopy hlaid

theorem apart_own (hp : x.processes i = some p) (closes : List Close)
    (hgrow : Grows x.kernel.machine k.machine)
    (hlaid : Laid x.kernel.machine k.machine (fun v => v ∈ (vs i).map Vma.node) x.nodes
      ⟨n,q.mm.vma⟩ vmas) :
    Apart ⟨k,n,Function.update x.processes i (some q),closes⟩ (Function.update vs i vmas) := by
  refine apart_step h hgrow ?_ ?_ hlaid.frame ?_
  · exact fun j hj => Function.update_of_ne hj _ _
  · intro j r hj hr v hv hm
    obtain ⟨w,hw,he⟩ := List.mem_map.mp hm
    exact h.apart i j p r hj.symm hp hr w hw v hv he
  · intro r hr
    obtain rfl : q = r := by simpa using hr
    exact hlaid

theorem apart_mmap (q : Process) (hp : x.processes i = some p) (c : VmaRuns.MmapCall)
    (y : VmaList × Bool) (closes : List Close) (hq : q.mm.vma = y.1.head)
    (hy : (NodeSpaces.mmap x.kernel ⟨x.nodes,p.mm.vma⟩ c).space = some y) :
    ∃ vmas, regionView (vs i) (VmaRuns.mmap x.kernel (vs i) c).2 = some (vmas,y.2) ∧
      (NodeSpaces.mmap x.kernel ⟨x.nodes,p.mm.vma⟩ c).kernel = (VmaRuns.mmap x.kernel (vs i) c).1 ∧
      Apart ⟨(NodeSpaces.mmap x.kernel ⟨x.nodes,p.mm.vma⟩ c).kernel,y.1.nodes,
        Function.update x.processes i (some q),closes⟩ (Function.update vs i vmas) := by
  obtain ⟨hkernel,hspace⟩ := mmap_renders h.frames x.kernel ⟨x.nodes,p.mm.vma⟩ (vs i) c
    (grows_same rfl rfl) (laid_start _ (vs i) (h.shown i p hp) (h.kept i p hp))
  rw [hy] at hspace
  obtain ⟨vmas,hview,hlaid⟩ := renders_some hspace
  refine ⟨vmas,hview,hkernel,?_⟩
  rw [hkernel]
  apply apart_own h hp closes (grows_mmap x.kernel (vs i) c)
  rw [hq]
  exact hlaid

theorem apart_munmap (q : Process) (hp : x.processes i = some p) (addr size : Word) (k : Kernel)
    (closes closes' : List Close) (x' : VmaList) (hq : q.mm.vma = x'.head)
    (hfirst : ∀ v, munmapRegion x.kernel ⟨x.nodes,p.mm.vma⟩ addr size = some (some v) →
      p.mm.vma ≠ some v)
    (hr : doMunmap x.kernel ⟨x.nodes,p.mm.vma⟩ addr size = some (k,closes',x')) :
    ∃ vmas, Apart ⟨k,x'.nodes,Function.update x.processes i (some q),closes⟩
        (Function.update vs i vmas) ∧
      ((k = x.kernel ∧ closes' = [] ∧ vmas = vs i) ∨ ∃ vmas₁ v vmas₂, vs i = vmas₁++v::vmas₂ ∧
        munmapRegion x.kernel ⟨x.nodes,p.mm.vma⟩ addr size = some (some v.node) ∧
        vmas = vmas₁++vmas₂ ∧ k = deallocateVma x.kernel v ∧
        closes' = closeOf x.kernel v.file) := by
  rcases munmap_laid (h.shown i p hp)
    (h.kept i p hp) hfirst hr with ⟨rfl,rfl,rfl⟩ | ⟨vmas₁,v,vmas₂,hsplit,hfind,rfl,rfl,hlaid⟩
  · refine ⟨vs i,?_,Or.inl ⟨rfl,rfl,rfl⟩⟩
    apply apart_own h hp closes (grows_same rfl rfl)
    rw [hq]
    exact laid_start _ (vs i) (h.shown i p hp) (h.kept i p hp)
  · refine ⟨vmas₁++vmas₂,?_,Or.inr ⟨vmas₁,v,vmas₂,hsplit,hfind,rfl,rfl,rfl⟩⟩
    apply apart_own h hp closes (grows_deallocateVma x.kernel v)
    rw [hq]
    exact laid_grows h.frames (grows_deallocateVma x.kernel v) hlaid

theorem apart_exit (i : ℕ) {r : Kernel × List Close} (closes : List Close)
    (hr : exitProcess x.kernel x.nodes p = some r) :
    Apart { x with
      kernel := r.1, processes := Function.update x.processes i none, closes := closes } vs := by
  obtain ⟨vmas,_,rfl⟩ := Option.map_eq_some_iff.mp hr
  have hfiles := grows_exitFiles p.fd x.kernel
  have hvmas := FrameCounts.exitVmmaps_machine
    ⟨vmas,p.mm.cr3,p.mm.file⟩ (grows_frames hfiles h.frames)
  refine apart_same h _ (grows_trans hfiles (grows_same (by rw [hvmas]) (by rw [hvmas]))) rfl ?_
  intro j q hq
  by_cases hj : j = i
  · subst hj
    simp at hq
  · exact ⟨q,by simpa [Function.update_of_ne hj] using hq,rfl⟩

end

variable {dentryCache : List (List Byte)}

theorem step_apart {e : Event} (h : Apart x vs) (hstep : step files dentryCache x e = some y)
    (hall : KeepsApart x y e) : ∃ vs', Apart y vs' := by
  cases e with
  | openFile i pathname =>
    obtain ⟨p,hp,rfl⟩ := Option.map_eq_some_iff.mp hstep
    exact ⟨vs,apart_opened h hp (grows_sysOpen dentryCache x.kernel p.fd pathname)⟩
  | openTerminal i =>
    obtain ⟨p,hp,rfl⟩ := Option.map_eq_some_iff.mp hstep
    exact ⟨vs,apart_opened h hp (grows_terminalOpen x.kernel p.fd)⟩
  | close i d =>
    obtain ⟨p,hp,hstep⟩ := Option.bind_eq_some_iff.mp hstep
    obtain ⟨slot,_,rfl⟩ := Option.map_eq_some_iff.mp hstep
    exact ⟨vs,apart_same h _ (grows_work (work_closeFile x.kernel slot)) rfl
      (fun j q hq => ⟨q,hq,rfl⟩)⟩
  | exec i args =>
    obtain ⟨p,hp,hstep⟩ := Option.bind_eq_some_iff.mp hstep
    obtain ⟨e,he,rfl⟩ := Option.map_eq_some_iff.mp hstep
    obtain ⟨img,_,_,hy⟩ := apart_exec h (execFds p.fd e.mm.file) _ he hall.1 hall.2
    exact ⟨_,hy⟩
  | fork i child =>
    obtain ⟨p,hp,hstep⟩ := Option.bind_eq_some_iff.mp hstep
    split_ifs at hstep
    obtain ⟨r,hr,rfl⟩ := Option.map_eq_some_iff.mp hstep
    exact ⟨_,apart_fork h child hp hr hall _⟩
  | mmap i source addr len prot off both =>
    obtain ⟨p,hp,hstep⟩ := Option.bind_eq_some_iff.mp hstep
    obtain ⟨c,_,hstep⟩ := Option.bind_eq_some_iff.mp hstep
    obtain ⟨r,hr,rfl⟩ := Option.map_eq_some_iff.mp hstep
    obtain ⟨vmas,_,_,hy⟩ := apart_mmap h { p with mm := { p.mm with vma := r.1.head } } hp c r
      ((NodeSpaces.mmap x.kernel ⟨x.nodes,p.mm.vma⟩ c).closes++x.closes) rfl hr
    exact ⟨_,hy⟩
  | munmap i addr size =>
    obtain ⟨p,hp,hstep⟩ := Option.bind_eq_some_iff.mp hstep
    obtain ⟨⟨k,closes,x'⟩,hr,rfl⟩ := Option.map_eq_some_iff.mp hstep
    obtain ⟨vmas,hy,_⟩ := apart_munmap h { p with mm := { p.mm with vma := x'.head } } hp addr
      size k (closes++x.closes) closes x' rfl (hall p hp) hr
    exact ⟨_,hy⟩
  | exit i =>
    obtain ⟨p,hp,hstep⟩ := Option.bind_eq_some_iff.mp hstep
    obtain ⟨r,hr,rfl⟩ := Option.map_eq_some_iff.mp hstep
    exact ⟨vs,apart_exit h i _ hr⟩

theorem booted_apart (h : Booted x) : Apart x (fun _ => []) := by
  constructor
  case frames => exact h.frames
  case shown =>
    intro i p hp
    rw [(h.threads i p hp).2.1]
    exact (laid_empty x.kernel.machine x.kernel.machine NoNode x.nodes).shown
  case kept => exact fun i p _ v hv => absurd hv List.not_mem_nil
  case apart => exact fun i j p q _ _ _ v hv => absurd hv List.not_mem_nil

theorem run_apart (hboot : Booted x) (hrun : Reaches files dentryCache KeepsApart x y) :
    ∃ vs, Apart y vs := by
  induction hrun with
  | refl => exact ⟨_,booted_apart hboot⟩
  | step y z e _ hstep hall ih =>
    obtain ⟨vs,h⟩ := ih
    exact step_apart h hstep hall

/-- Every list is linked both ways and has nodes of its own as long as the events keep to
`KeepsApart`. -/
theorem vma_nodes_separate (files : KernelPtr → FileData) (dentryCache : List (List Byte))
    (x : System) (hboot : Booted x) (y : System)
    (hrun : Reaches files dentryCache KeepsApart x y) : Separate y := by
  obtain ⟨vs,h⟩ := run_apart hboot hrun
  exact apart_separate h

theorem fork_agrees (h : Apart x vs) (i : ℕ) (p : Process) (file : KernelPtr)
    (hp : x.processes i = some p) (hfile : p.mm.file = some file)
    (hok : (Fork.doFork x.kernel.machine ⟨vs i,p.mm.cr3,p.mm.file⟩).1.shortages =
      x.kernel.machine.shortages) :
    ∃ r child, doFork x.kernel x.nodes p = some r ∧ r.2.2 = some child ∧
      r.1.machine = (Fork.doFork x.kernel.machine ⟨vs i,p.mm.cr3,p.mm.file⟩).1 ∧
      child.mm.cr3 = (Fork.doFork x.kernel.machine ⟨vs i,p.mm.cr3,p.mm.file⟩).2.cr3 := by
  have hobj := grows_work (work_forkObjects x.kernel.machine)
  have hdup := grows_work (work_dupMm (vs i) (forkObjects x.kernel.machine))
  rw [Fork.doFork] at hok ⊢
  dsimp only at hok ⊢
  have hcopy := grows_copyVm (Fork.dupMm (forkObjects x.kernel.machine) (vs i)).1 (vs i) p.mm.cr3
  have hthread := work_forkThread
    (copyVm (Fork.dupMm (forkObjects x.kernel.machine) (vs i)).1 (vs i) p.mm.cr3).1
  obtain ⟨hobjs,_⟩ := grows_supply hobj (grows_trans hdup (grows_trans hcopy (grows_work hthread)))
    hok
  obtain ⟨hdups,hrest⟩ := grows_supply (grows_trans hobj hdup)
    (grows_trans hcopy (grows_work hthread))
    hok
  obtain ⟨_,hlast⟩ := grows_supply hcopy (grows_work hthread) hrest
  obtain ⟨x',hx,hlaid⟩ := dupMm_laid h.frames hobj (h.shown i p hp) (h.kept i p hp)
    (Or.inl (by omega))
  -- the copies are in new nodes, so the next walk over the parent's list reads what the first did
  have hparent : Shown ⟨x'.nodes,p.mm.vma⟩ (vs i) :=
    shown_frame hlaid.frame (apart_not_open h hp (fun _ _ hno => hno)) (h.shown i p hp)
  have hread := readVmas_shown hparent (laid_rounds (laid_start _ (vs i) hparent
    (fun v hv => kept_after (grows_trans hobj hdup) h.frames (h.kept i p hp v hv))))
  have hnode : (alloc (zeroedObject (copyVm (Fork.dupMm (forkObjects x.kernel.machine) (vs i)).1
      (vs i) p.mm.cr3).1).1).2 ≠ 0 :=
    object_supplied (grows_zeroedObject _) (grows_same rfl rfl) hlast
  rw [doFork, hfile, Option.bind_some, hx, Option.bind_some]
  dsimp only at hread ⊢
  rw [hread, Option.map_some]
  exact ⟨_,_,rfl,if_neg hnode,rfl,rfl⟩

theorem reachable_frame {T : KernelPtr → Prop} {n' : Nodes} (h : Frame T n n')
    (head : Option KernelPtr) (l : List KernelPtr) (v : KernelPtr)
    (hc : Chain n.next head (l++[v])) (hl : ∀ p ∈ l, ¬ T p) : Reachable n' head v := by
  induction l generalizing head with
  | nil =>
    obtain ⟨rfl,_⟩ := hc
    exact .here v
  | cons p l ih =>
    obtain ⟨rfl,hrest⟩ := hc
    apply Reachable.behind
    rw [h.next p (hl p (by simp))]
    exact ih _ hrest (fun q hq => hl q (by simp [hq]))

def firstThread : Process := ⟨List.replicate 256 none,⟨none,0x8000,none⟩⟩

def twoThreads : System where
  kernel := Supply.firstKernel
  nodes := ⟨fun _ => stackVma,fun _ => none,fun _ => none⟩
  processes := fun i => if i < 2 then some firstThread else none
  closes := []

theorem twoThreads_booted : Booted twoThreads := by
  constructor
  case frames => exact Supply.first_supplied.1
  case threads =>
    intro i p hp
    have hthread : p = firstThread := by
      simp only [twoThreads] at hp
      split_ifs at hp
      exact (Option.some.inj hp).symm
    rw [hthread]
    exact ⟨rfl,rfl,rfl⟩
  case closes => rfl

def execSystem (x : System) (i : ℕ) (p : Process) (e : Execed) : System :=
  ⟨e.kernel,e.nodes,Function.update x.processes i (some ⟨execFds p.fd e.mm.file,e.mm⟩),
    e.closes++x.closes⟩

theorem step_exec (files : KernelPtr → FileData) (x : System) (i : ℕ) (p : Process)
    (args : ExecArgs) (e : Execed) (hp : x.processes i = some p)
    (he : NodeSpaces.doExecve files x.kernel x.nodes (execArgs p args) = some e) :
    step files [] x (.exec i args) = some (execSystem x i p e) := by
  rw [step, hp, Option.bind_some, he]
  rfl

theorem exec_file (he : NodeSpaces.doExecve files k n args = some e) :
    ∃ file, (beforeRoot k args).2 = some file ∧ e.mm.file = some file := by
  rw [NodeSpaces.doExecve] at he
  dsimp only at he
  cases hfile : (beforeRoot k args).2 with
  | none => simp [hfile] at he
  | some file =>
    rw [hfile] at he
    obtain ⟨y,_,rfl⟩ := Option.map_eq_some_iff.mp he
    exact ⟨file,rfl,rfl⟩

def forkSystem (x : System) (child : ℕ) (r : Kernel × Nodes × Option Process) : System :=
  ⟨r.1,r.2.1,Function.update x.processes child r.2.2,x.closes⟩

theorem step_fork (files : KernelPtr → FileData) (x : System) (i child : ℕ) (p : Process)
    (r : Kernel × Nodes × Option Process) (hp : x.processes i = some p)
    (hnone : x.processes child = none) (hr : doFork x.kernel x.nodes p = some r) :
    step files [] x (.fork i child) = some (forkSystem x child r) := by
  rw [step, hp, Option.bind_some, hnone, hr]
  rfl

theorem twoThreads_empty (v : KernelPtr) : ∀ j q, j ≠ 0 → twoThreads.processes j = some q →
    ¬ Reachable twoThreads.nodes q.mm.vma v := by
  intro j q _ hq hr
  rw [(twoThreads_booted.threads j q hq).2.1] at hr
  cases hr

theorem exec_then_fork : ∃ e r,
    NodeSpaces.doExecve (fun _ => Supply.tinyElf) Supply.firstKernel twoThreads.nodes
      Supply.plainArgs = some e ∧
    e.kernel.machine.shortages = Supply.firstKernel.machine.shortages ∧
    doFork e.kernel e.nodes ⟨execFds firstThread.fd e.mm.file,e.mm⟩ = some r ∧
    r.1.machine.shortages = e.kernel.machine.shortages ∧
    step (fun _ => Supply.tinyElf) [] twoThreads (.exec 0 Supply.plainArgs) =
      some (execSystem twoThreads 0 firstThread e) ∧
    step (fun _ => Supply.tinyElf) [] (execSystem twoThreads 0 firstThread e) (.fork 0 2) =
      some (forkSystem (execSystem twoThreads 0 firstThread e) 2 r) := by
  obtain ⟨img,frames,h⟩ := Supply.first_image
  obtain ⟨e,he,hd⟩ := exec_made twoThreads.nodes Supply.first_supplied.1 h.made h.shortages
  have hok : e.kernel.machine.shortages = Supply.firstKernel.machine.shortages := by
    rw [hd.kernel]
    exact h.shortages
  obtain ⟨img',himg,_,hx⟩ := apart_exec (booted_apart twoThreads_booted)
    (execFds firstThread.fd e.mm.file) [] he hok
    (twoThreads_empty (kernelPtr 0))
  obtain rfl : img = img' := Option.some.inj (h.made.symm.trans himg)
  obtain ⟨file,_,hfile⟩ := exec_file he
  have hsup : (Fork.doFork e.kernel.machine ⟨img.mm.vma,e.mm.cr3,e.mm.file⟩).1.shortages =
      e.kernel.machine.shortages := by
    rw [hd.kernel]
    apply h.forks
    dsimp only
    rw [h.steps, h.vmas]
    decide
  have hself : Function.update (fun _ => []) 0 img.mm.vma 0 = img.mm.vma :=
    Function.update_self 0 _ _
  obtain ⟨r,child,hr,_,hmachine,_⟩ := fork_agrees hx 0 ⟨execFds firstThread.fd e.mm.file,e.mm⟩ file
    (by simp) hfile (by rw [hself]; exact hsup)
  refine ⟨e,r,he,hok,hr,?_,step_exec _ twoThreads 0 firstThread Supply.plainArgs e rfl he,
    step_fork _ (execSystem twoThreads 0 firstThread e) 0 2 _ r rfl rfl hr⟩
  rw [hmachine, hself]
  exact hsup

/-- The first thread execs, and its child gets a list of its own. -/
theorem vma_nodes_separate_fork : ∃ x₁ x₂,
    step (fun _ => Supply.tinyElf) [] twoThreads (.exec 0 Supply.plainArgs) = some x₁ ∧
    step (fun _ => Supply.tinyElf) [] x₁ (.fork 0 2) = some x₂ ∧ Separate x₂ := by
  obtain ⟨e,r,_,hok,_,hok',hexec,hfork⟩ := exec_then_fork
  refine ⟨_,_,hexec,hfork,?_⟩
  apply vma_nodes_separate (fun _ => Supply.tinyElf) [] twoThreads twoThreads_booted
  apply Reaches.step _ _ (.fork 0 2) _ hfork hok'
  exact Reaches.step _ _ (.exec 0 Supply.plainArgs) .refl hexec
    ⟨hok,twoThreads_empty (kernelPtr 0)⟩

/-- Two threads exec one after the other, and the second exec takes the node of
the first one's stack. -/
theorem second_exec_shares_stack : ∃ x₁ x₂,
    step (fun _ => Supply.tinyElf) [] twoThreads (.exec 0 Supply.plainArgs) = some x₁ ∧
    step (fun _ => Supply.tinyElf) [] x₁ (.exec 1 Supply.plainArgs) = some x₂ ∧
    ¬ Separate x₂ := by
  obtain ⟨img,_,node,fp,node',himg,_,hvma,hs,hex,hz⟩ := Supply.tiny_image Supply.first_coherent
    (fun u _ => Supply.first_tables u) Supply.first_supplied
  obtain ⟨img',_,_,_,_,himg',_,hvma',hs',_,_⟩ := Supply.tiny_image hex.coherent hz ⟨hs.1,rfl,hs.2.2⟩
  obtain ⟨e,he,hd⟩ := exec_made twoThreads.nodes Supply.first_supplied.1 himg hs.2.1
  obtain ⟨e',he',hd'⟩ := exec_made e.nodes hs.1 himg' hs'.2.1
  rw [← hd.kernel] at he'
  have hfirst := step_exec (fun _ => Supply.tinyElf) twoThreads 0 firstThread Supply.plainArgs e
    rfl he
  have hsecond := step_exec (fun _ => Supply.tinyElf) (execSystem twoThreads 0 firstThread e) 1
    firstThread Supply.plainArgs e' rfl he'
  refine ⟨_,_,hfirst,hsecond,?_⟩
  intro hsep
  have hshown := hd.laid.shown
  have hshown' := hd'.laid.shown
  have hkept := hd.laid.kept
  rw [hvma] at hshown hkept
  rw [hvma'] at hshown'
  have hnodup := shown_nodup hshown
  have hleft : ∀ p ∈ [node,node'], ¬ Open AtBase img.kernel.machine p := by
    intro p hp hopen
    rcases hopen with rfl | hfresh
    · have hnode : kernelPtr 0 ∉ [node,node'] :=
        fun hm => (List.nodup_append.mp (show ([node,node']++[kernelPtr 0]).Nodup from hnodup)).2.2
          _ hm _ (by simp) rfl
      exact hnode hp
    · simp only [List.mem_cons, List.not_mem_nil, or_false] at hp
      rcases hp with rfl | rfl
      · exact kept_not_fresh hs.1 (hkept (Supply.tinySegment p fp) (by simp)) hfresh
      · exact kept_not_fresh hs.1 (hkept (Supply.tinyHeap p) (by simp)) hfresh
  have hreach : Reachable e'.nodes e.mm.vma (kernelPtr 0) :=
    reachable_frame hd'.laid.frame e.mm.vma [node,node'] (kernelPtr 0)
      (doubly_chain _ _ hshown.linked) hleft
  have hreach' : Reachable e'.nodes e'.mm.vma (kernelPtr 0) := by
    rw [reachable_chain e'.mm.vma _ (doubly_chain _ _ hshown'.linked)]
    simp [stackVma]
  exact hsep.apart 0 1 ⟨execFds firstThread.fd e.mm.file,e.mm⟩
    ⟨execFds firstThread.fd e'.mm.file,e'.mm⟩ (by decide) rfl rfl _ hreach hreach'

end PreemptiveOS.VmaSharing
