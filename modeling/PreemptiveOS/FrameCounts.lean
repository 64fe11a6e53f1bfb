import PreemptiveOS.ForkCounts
import PreemptiveOS.ForkMemory
import PreemptiveOS.FrameLedger

/-!
# Reference counts over whole runs

The system is the kernel with its live user processes. Processes fault, map
memory, fork, exec and exit in any order. An exit hands only aliases to
`phys_mem_free`, and an exec forgets the old tables, so neither takes a
reference away. The counts stay exact in runs where a process that goes shares
no frame with one that stays, and where no step miscounts on its own.
-/

set_option autoImplicit false

namespace PreemptiveOS.FrameCounts
open ByteMemory PhysMmgr VirtMmgr Ownership Vmas KernelObjects Fork PageFaults FaultLeaves Exec
open ExecLeaves Supply ForkMemory FrameLedger CellCounts EntryCounts ForkCounts

def visits (level : ℕ) (e : Word) : Bool :=
  e ≠ 0 ∧ (if 3 ≤ level then e &&& present = present else e &&& present ≠ present)

/-- One round of the loop over a table. The address of the last entry that was
visited stays, and its alias is freed again in every later round. -/
def freeRound (m : Mem) (next : Word → List Page → List Page) (level : ℕ) (table : Word)
    (st : Word × List Page) (i : Fin 512) : Word × List Page :=
  let e := entry m table i
  let st' :=
    if visits level e then
      let addr := e &&& addressMask
      if level = 1 then ((kernelPtr addr).val,physMemFree (kernelPtr addr).val st.2)
      else (addr,next addr st.2)
    else st
  if st'.1 = 0 then st' else (st'.1,physMemFree (kernelPtr st'.1).val st'.2)

def freePageRange (m : Mem) : ℕ → Word → List Page → List Page
  | 0, _, pages => pages
  | level+1, table, pages =>
    ((List.finRange 512).foldl (freeRound m (freePageRange m level) (level+1) table) (0,pages)).2

def freeVmas (k : Kernel) (vmas : List Vma) : Kernel := vmas.foldl deallocateVma k

def exitVmmaps (k : Kernel) (mm : MmStruct) : Kernel :=
  let k₁ := freeVmas k mm.vma
  { k₁ with machine := { k₁.machine with
      pages := freePageRange k₁.machine.mem 4 mm.cr3 k₁.machine.pages } }

variable {pages : List Page}

theorem freeRound_pages (m : Mem) {next : Word → List Page → List Page} (level : ℕ) (table : Word)
    (hf : FramesOk pages) (hnext : ∀ a, next a pages = pages) (addr : Word) (i : Fin 512) :
    (freeRound m next level table (addr,pages) i).2 = pages := by
  have hfree := fun p => free_alias p hf.window
  unfold freeRound
  dsimp only
  split_ifs <;> simp only [hfree, hnext]

variable {m : Mem}

theorem freePageRange_pages {level : ℕ} (table : Word) (hf : FramesOk pages) :
    freePageRange m level table pages = pages := by
  induction level generalizing table with
  | zero => rfl
  | succ level ih =>
    have hrounds : ∀ (is : List (Fin 512)) (addr : Word),
        (is.foldl (freeRound m (freePageRange m level) (level+1) table) (addr,pages)).2 = pages := by
      intro is
      induction is with
      | nil => exact fun _ => rfl
      | cons i is ihs =>
        intro addr
        have hround := freeRound_pages m (level+1) table hf ih addr i
        rw [List.foldl_cons]
        generalize freeRound m (freePageRange m level) (level+1) table (addr,pages) i = st at *
        obtain ⟨addr',pages'⟩ := st
        obtain rfl : pages' = pages := hround
        exact ihs addr'
    exact hrounds _ 0

variable {k : Kernel}

theorem deallocateVma_machine (vma : Vma) (hf : FramesOk k.machine.pages) :
    (deallocateVma k vma).machine = k.machine := by
  have hfree : ∀ p, release k.machine p = k.machine := by
    intro p
    rw [release, free_alias p hf.window]
  have hclose : (closeFile k vma.file).machine = k.machine := by
    cases vma.file with
    | none => rfl
    | some fp =>
      simp only [closeFile, tarfsClose]
      split_ifs
      · exact hfree fp
      · rfl
  rw [deallocateVma]
  dsimp only
  rw [hclose, hfree]

theorem exitVmmaps_machine (mm : MmStruct) (hf : FramesOk k.machine.pages) :
    (exitVmmaps k mm).machine = k.machine := by
  have hvmas : ∀ (vmas : List Vma) (k' : Kernel), k'.machine = k.machine →
      (freeVmas k' vmas).machine = k.machine := by
    intro vmas
    induction vmas with
    | nil => exact fun _ hk => hk
    | cons vma vmas ih =>
      intro k' hk
      apply ih
      rw [deallocateVma_machine vma (by rw [hk]; exact hf), hk]
  rw [exitVmmaps]
  dsimp only
  rw [hvmas mm.vma k rfl, freePageRange_pages _ hf]

structure System where
  kernel : Kernel
  processes : List Process

def rootsOf (processes : List Process) : List Word := processes.map (fun p => p.mm.cr3)

inductive Op where
  | fault (i : ℕ) (errorCode : BitVec 32) (address : Word)
  | mmap (i : ℕ) (addr len prot off : Word) (privateAndShared : Bool)
  | fork (i : ℕ) (pid : BitVec 16)
  | launch (pid : BitVec 16) (args : ExecArgs)
  | exec (i : ℕ) (args : ExecArgs)
  | exit (i : ℕ)

def act (files : KernelPtr → FileData) (atNull : Word) : Op → System → Option System
  | .fault i errorCode address, x =>
    x.processes[i]?.bind (fun p =>
      (doPageFault files atNull x.kernel.machine p errorCode address).map (fun h =>
        ⟨{ x.kernel with machine := h.machine },x.processes.set i h.process⟩))
  | .mmap i addr len prot off both, x =>
    x.processes[i]?.bind (fun p =>
      let region := doMmap x.kernel p.mm.vma addr len prot off both
      match region.2 with
      | .failed => some ⟨region.1,x.processes⟩
      | .mapped vmas _ =>
        some ⟨region.1,x.processes.set i { p with mm := { p.mm with vma := vmas } }⟩
      | .wild => none)
  | .fork i pid, x =>
    x.processes[i]?.map (fun p =>
      let forked := doFork x.kernel.machine p.mm
      ⟨{ x.kernel with machine := forked.1 },x.processes++[⟨pid,false,false,forked.2⟩]⟩)
  | .launch pid args, x =>
    (doExecve files x.kernel args).map (fun img =>
      ⟨img.kernel,x.processes++[⟨pid,false,false,img.mm⟩]⟩)
  | .exec i args, x =>
    x.processes[i]?.bind (fun p => (doExecve files x.kernel args).map (fun img =>
      ⟨img.kernel,x.processes.set i { p with mm := img.mm }⟩))
  | .exit i, x =>
    x.processes[i]?.map (fun p => ⟨exitVmmaps x.kernel p.mm,x.processes.eraseIdx i⟩)

def RefCounted (x : System) : Prop :=
  ∀ a ∈ addresses x.kernel.machine.pages,
    0 < entries x.kernel.machine.mem (rootsOf x.processes) a →
    countOf x.kernel.machine.pages a = entries x.kernel.machine.mem (rootsOf x.processes) a

structure Executable (files : KernelPtr → FileData) (kernel : ℕ → Prop) (x : System)
    (args : ExecArgs) : Prop where
  command : CommandApart kernel (rootsOf x.processes) x.kernel.machine.mem args.command
  headers : ∀ fp ∈ (beforeRoot x.kernel args).2, HeadersFit (files fp)
  params : ParamsFit args.argv args.envp

def Allowed (files : KernelPtr → FileData) (kernel : ℕ → Prop) : Op → System → Prop
  | .fault i errorCode address, x => User address ∧ 4096 ≤ address.toNat ∧
    ∀ p, x.processes[i]? = some p → ∀ vma, findVma p.mm.vma address = some vma →
      ¬ (isPresent errorCode ∧ isWrite errorCode) →
      Delivered files p.mm vma (pageRoundUp address) ∧
      (frameAt x.kernel.machine.mem p.mm.cr3 address = 0 ∨
        entries x.kernel.machine.mem (rootsOf x.processes)
          (frameAt x.kernel.machine.mem p.mm.cr3 address) = 1)
  | .mmap .., _ => True
  | .fork i _, x => ∀ p, x.processes[i]? = some p →
    (∀ j ∈ allSteps p.mm.vma, User j) ∧
    EvenSteps x.kernel.machine.mem p.mm.cr3 (allSteps p.mm.vma) ∧
    ∀ a, a ≠ 0 → entries x.kernel.machine.mem (rootsOf x.processes) a+
      hits x.kernel.machine.mem p.mm.cr3 (allSteps p.mm.vma) a < 2^32
  | .launch _ args, x => Executable files kernel x args
  | .exec i args, x => Executable files kernel x args ∧ ∀ p, x.processes[i]? = some p →
    Unshared x.kernel.machine.mem (rootsOf x.processes) p.mm.cr3
  | .exit i, x => ∀ p, x.processes[i]? = some p →
    Unshared x.kernel.machine.mem (rootsOf x.processes) p.mm.cr3

inductive Reaches (files : KernelPtr → FileData) (atNull : Word) (kernel : ℕ → Prop) (x : System) :
    System → Prop
  | refl : Reaches files atNull kernel x x
  | step (y z : System) (op : Op) : Reaches files atNull kernel x y → Allowed files kernel op y →
      act files atNull op y = some z →
      z.kernel.machine.shortages = y.kernel.machine.shortages →
      Reaches files atNull kernel x z

def Exact (kernel : ℕ → Prop) (x : System) : Prop :=
  Tallied kernel (rootsOf x.processes) x.kernel.machine

variable {x : System} {kernel : ℕ → Prop}

theorem exact_refCounted (h : Exact kernel x) : RefCounted x := by
  intro a ha hpos
  have hne : a ≠ 0 := by
    rintro rfl
    exact absurd (h.coherent.forest.frames.window 0 ha).1 (by decide)
  obtain ⟨p,hp,_,hcount⟩ := h.counted a hne hpos
  rw [countOf, hp, Option.map_some, Option.getD_some, hcount]

variable {processes : List Process} {p : Process} {i : ℕ}

theorem roots_mem (h : processes[i]? = some p) :
    p.mm.cr3 ∈ rootsOf processes := List.mem_map.mpr ⟨p,List.mem_of_getElem? h,rfl⟩

theorem roots_set (processes : List Process) (i : ℕ) (p q : Process)
    (h : processes[i]? = some p) (hcr3 : q.mm.cr3 = p.mm.cr3) :
    rootsOf (processes.set i q) = rootsOf processes := by
  obtain ⟨hlt,rfl⟩ := List.getElem?_eq_some_iff.mp h
  apply List.ext_getElem?
  intro j
  rw [rootsOf, rootsOf, List.getElem?_map, List.getElem?_map, List.getElem?_set]
  split_ifs with hj
  · rw [← hj, h, Option.map_some, Option.map_some, hcr3]
  · rfl

theorem entries_single (m : Mem) (p : Process) (a : Word) :
    entries m (rootsOf [p]) a = uses (entryFrame m p.mm.cr3) a :=
  (total_cons _ a p.mm.cr3 []).trans (Nat.add_zero _)

theorem entries_pair {q : Process} {a : Word} :
    entries m (rootsOf [p,q]) a = uses (entryFrame m p.mm.cr3) a+uses (entryFrame m q.mm.cr3) a := by
  rw [← entries_single m q a]
  exact total_cons _ a p.mm.cr3 _

theorem roots_split (h : processes[i]? = some p) :
    (rootsOf processes).Perm (p.mm.cr3::rootsOf (processes.eraseIdx i)) := by
  obtain ⟨hlt,rfl⟩ := List.getElem?_eq_some_iff.mp h
  exact (List.getElem_cons_eraseIdx_perm hlt).symm.map _

theorem roots_append (processes : List Process) (p : Process) :
    (p.mm.cr3::rootsOf processes).Perm (rootsOf (processes++[p])) := by
  rw [rootsOf, rootsOf, List.map_append, List.map_singleton]
  exact (List.perm_append_singleton _ _).symm

theorem roots_replace (q : Process) (h : processes[i]? = some p) :
    (q.mm.cr3::rootsOf (processes.eraseIdx i)).Perm (rootsOf (processes.set i q)) := by
  have hlt := (List.getElem?_eq_some_iff.mp h).1
  have hset : (processes.set i q)[i]? = some q := by
    rw [List.getElem?_set_self hlt]
  have hsplit := roots_split hset
  rw [List.eraseIdx_set_eq] at hsplit
  exact hsplit.symm

variable {args : ExecArgs} {img : Image}

theorem execve_file {files : KernelPtr → FileData} (himg : doExecve files k args = some img) :
    img.mm.file = (beforeRoot k args).2 := by
  rw [doExecve] at himg
  dsimp only at himg
  cases hfile : (beforeRoot k args).2 with
  | none =>
    rw [hfile] at himg
    cases himg
  | some file =>
    rw [hfile] at himg
    dsimp only at himg
    split at himg
    · exact (image_eq himg).2.2.1
    · exact (image_eq himg).2.2.1

variable {roots : List Word}

theorem commandApart_subset {roots' : List Word} {command : Option KernelPtr}
    (hsub : ∀ y ∈ roots', y ∈ roots) (h : CommandApart kernel roots m command) :
    CommandApart kernel roots' m command := by
  rintro c hc d hd ⟨r,p,hp,ht⟩
  refine h c hc d hd ⟨r,p,?_,ht⟩
  rcases hp with ⟨y,hy,hr,hu⟩ | hk
  · exact Or.inl ⟨y,hsub y hy,hr,hu⟩
  · exact Or.inr hk

section
variable (files : KernelPtr → FileData) (atNull : Word) {kernel : ℕ → Prop} {x y : System}

theorem exec_tallied (hexe : Executable files kernel x args)
    (hsub : ∀ r ∈ roots, r ∈ rootsOf x.processes) (h : Tallied kernel roots x.kernel.machine)
    (himg : doExecve files x.kernel args = some img)
    (hok : img.kernel.machine.shortages = x.kernel.machine.shortages) :
    Tallied kernel (img.mm.cr3::roots) img.kernel.machine := by
  have hheaders : ∀ fp ∈ img.mm.file, HeadersFit (files fp) := by
    rw [execve_file himg]
    exact hexe.headers
  obtain ⟨frames,hx,_⟩ := execve_executed h.coherent files args img himg
    (commandApart_subset hsub hexe.command) hheaders hexe.params hok
  exact tallied_exec h hx

theorem gone_tallied (h : Exact kernel x) (hp : x.processes[i]? = some p)
    (halone : Unshared x.kernel.machine.mem (rootsOf x.processes) p.mm.cr3) :
    Tallied kernel (rootsOf (x.processes.eraseIdx i)) x.kernel.machine := by
  have hsplit := roots_split hp
  apply tallied_drop (tallied_perm h hsplit)
  exact fun y hy => halone y (hsplit.mem_iff.mpr hy)

theorem act_exact {op : Op} (h : Exact kernel x) (hop : Allowed files kernel op x)
    (hact : act files atNull op x = some y)
    (hok : y.kernel.machine.shortages = x.kernel.machine.shortages) : Exact kernel y := by
  cases op with
  | fault i errorCode address =>
    obtain ⟨p,hp,hy⟩ := Option.bind_eq_some_iff.mp hact
    obtain ⟨handled,hx,rfl⟩ := Option.map_eq_some_iff.mp hy
    obtain ⟨hv,ha,hdemand⟩ := hop
    obtain ⟨htally,hcr3⟩ := tallied_fault h (roots_mem hp) hv ha (hdemand p hp) hx hok
    rw [Exact, roots_set _ i p _ hp hcr3]
    exact htally
  | mmap i addr len prot off both =>
    obtain ⟨p,hp,hy⟩ := Option.bind_eq_some_iff.mp hact
    have hwork := work_doMmap x.kernel p.mm.vma addr len prot off both
    dsimp only at hy
    generalize doMmap x.kernel p.mm.vma addr len prot off both = region at *
    obtain ⟨k,region⟩ := region
    cases region with
    | failed =>
      obtain rfl := Option.some.inj hy
      exact tallied_work h hwork hok
    | mapped vmas vma =>
      obtain rfl := Option.some.inj hy
      rw [Exact, roots_set _ i p { p with mm := { p.mm with vma := vmas } } hp rfl]
      exact tallied_work h hwork hok
    | wild => cases hy
  | fork i pid =>
    obtain ⟨p,hp,rfl⟩ := Option.map_eq_some_iff.mp hact
    obtain ⟨hu,heven,hbound⟩ := hop p hp
    exact tallied_perm (tallied_fork h (roots_mem hp) hu heven hbound hok)
      (roots_append x.processes ⟨pid,false,false,(doFork x.kernel.machine p.mm).2⟩)
  | launch pid args =>
    obtain ⟨img,himg,rfl⟩ := Option.map_eq_some_iff.mp hact
    exact tallied_perm (exec_tallied files hop (fun _ hr => hr) h himg hok)
      (roots_append x.processes ⟨pid,false,false,img.mm⟩)
  | exec i args =>
    obtain ⟨p,hp,hy⟩ := Option.bind_eq_some_iff.mp hact
    obtain ⟨img,himg,rfl⟩ := Option.map_eq_some_iff.mp hy
    have hsplit := roots_split hp
    exact tallied_perm (exec_tallied files hop.1
      (fun r hr => hsplit.mem_iff.mpr (List.mem_cons_of_mem _ hr))
      (gone_tallied h hp (hop.2 p hp)) himg hok)
      (roots_replace { p with mm := img.mm } hp)
  | exit i =>
    obtain ⟨p,hp,rfl⟩ := Option.map_eq_some_iff.mp hact
    rw [Exact, exitVmmaps_machine _ h.coherent.forest.frames]
    exact gone_tallied h hp (hop p hp)

theorem reaches_exact (h : Exact kernel x) (hrun : Reaches files atNull kernel x y) :
    Exact kernel y := by
  induction hrun with
  | refl => exact h
  | step y z op _ hop hact hok ih => exact act_exact files atNull ih hop hact hok

end

structure Booted (kernel : ℕ → Prop) (x : System) : Prop where
  coherent : Coherent kernel 1 [] x.kernel.machine
  idle : Idle x.kernel.machine.pages
  none : x.processes = []

theorem booted_exact (h : Booted kernel x) : Exact kernel x := by
  rw [Exact, h.none]
  constructor
  case coherent => exact h.coherent
  case distinct => exact List.nodup_nil
  case idle => exact h.idle
  case present => exact fun r hr => absurd hr List.not_mem_nil
  case counted => exact fun a _ hpos => absurd hpos (lt_irrefl 0)

/-- As long as the steps keep to what `Reaches` asks, every count is the number of entries. -/
theorem frame_counts_exact (files : KernelPtr → FileData) (atNull : Word) (kernel : ℕ → Prop)
    (x : System) (hboot : Booted kernel x) (y : System) (hrun : Reaches files atNull kernel x y) :
    RefCounted y :=
  exact_refCounted (reaches_exact files atNull (booted_exact hboot) hrun)

def firstSystem : System := ⟨firstKernel,[]⟩

theorem first_booted : Booted rootFrame firstSystem := by
  constructor
  case coherent => exact first_coherent
  case idle =>
    intro a p hp _
    obtain ⟨i,_,rfl⟩ := List.mem_map.mp (pageOf_mem _ a p hp)
    rfl
  case none => rfl

theorem first_executable : Executable (fun _ => tinyElf) rootFrame firstSystem plainArgs := by
  constructor
  case command => rintro c ⟨⟩
  case headers => exact fun _ _ => tiny_oneSegment.headers
  case params => exact ⟨by decide,by decide⟩

def launched (img : Image) : System := ⟨img.kernel,[⟨2,false,false,img.mm⟩]⟩

def forkedOnce (img : Image) : System :=
  ⟨{ img.kernel with machine := (doFork img.kernel.machine img.mm).1 },
    [⟨2,false,false,img.mm⟩,⟨3,false,false,(doFork img.kernel.machine img.mm).2⟩]⟩

def exitedChild (img : Image) : System :=
  ⟨exitVmmaps (forkedOnce img).kernel (doFork img.kernel.machine img.mm).2,
    [⟨2,false,false,img.mm⟩]⟩

section
variable {img : Image} {frames : ArgumentFrames} (h : FirstImage img frames)
include h

theorem act_launch :
    act (fun _ => tinyElf) 0 (.launch 2 plainArgs) firstSystem = some (launched img) := by
  have hmade : doExecve (fun _ => tinyElf) firstSystem.kernel plainArgs = some img := h.made
  rw [act, hmade]
  rfl

omit h in
theorem act_forkOnce :
    act (fun _ => tinyElf) 0 (.fork 0 3) (launched img) = some (forkedOnce img) := rfl

omit h in
theorem act_exitOnce :
    act (fun _ => tinyElf) 0 (.exit 1) (forkedOnce img) = some (exitedChild img) := by
  have hchild : (forkedOnce img).processes[1]? =
      some ⟨3,false,false,(doFork img.kernel.machine img.mm).2⟩ := rfl
  rw [act, hchild, Option.map_some]
  rfl

theorem fork_supplied : (forkedOnce img).kernel.machine.shortages =
    (launched img).kernel.machine.shortages := by
  apply h.forks
  rw [h.steps, h.vmas]
  decide

theorem launched_forks : Allowed (fun _ => tinyElf) rootFrame (.fork 0 3) (launched img) := by
  intro p hp
  obtain rfl : ⟨2,false,false,img.mm⟩ = p := Option.some.inj hp
  have hal : ∀ i ∈ ([0x400000,0x401000,stackStart-3*4096,stackStart-2*4096,stackStart-4096] :
      List Word), Aligned i := by
    simp only [List.forall_mem_cons, List.not_mem_nil, false_imp_iff, implies_true, and_true]
    exact ⟨by decide,by decide,by decide,by decide,by decide⟩
  have honce : ([0x400000,0x401000,stackStart-3*4096,stackStart-2*4096,stackStart-4096] :
      List Word).Pairwise (fun i j => pageNumber i ≠ pageNumber j) := by decide
  rw [← h.steps] at hal honce
  have heven : EvenSteps (launched img).kernel.machine.mem img.mm.cr3 (allSteps img.mm.vma) := by
    constructor
    case aligned => exact fun i hi _ => hal i hi
    case once =>
      apply honce.imp
      intro i j hne _
      exact hne
  refine ⟨first_user h,heven,?_⟩
  intro a ha
  have hhits : hits (launched img).kernel.machine.mem img.mm.cr3 (allSteps img.mm.vma) a ≤ 5 := by
    rw [hits, h.steps]
    exact List.countP_le_length
  have huses := executed_uses h.executed.framesOk h.executed ha
  have hentries : entries (launched img).kernel.machine.mem (rootsOf (launched img).processes) a =
      uses (entryFrame img.kernel.machine.mem img.mm.cr3) a := entries_single _ _ _
  rw [hentries]
  dsimp only
  omega

theorem forkedOnce_reached :
    Reaches (fun _ => tinyElf) 0 rootFrame firstSystem (forkedOnce img) := by
  apply Reaches.step (launched img) _ (.fork 0 3) _ (launched_forks h) act_forkOnce
    (fork_supplied h)
  exact Reaches.step firstSystem _ (.launch 2 plainArgs) .refl first_executable (act_launch h)
    h.shortages

end

theorem frame_counts_exact_fork : ∃ img frames, FirstImage img frames ∧
    RefCounted (forkedOnce img) := by
  obtain ⟨img,frames,h⟩ := first_image
  have hrun := forkedOnce_reached h
  exact ⟨img,frames,h,
    frame_counts_exact (fun _ => tinyElf) 0 rootFrame firstSystem first_booted (forkedOnce img) hrun⟩

/-- The child exits, and the frames it shared with its parent keep both references. -/
theorem exit_keeps_references : ∃ img frames z, FirstImage img frames ∧
    act (fun _ => tinyElf) 0 (.launch 2 plainArgs) firstSystem = some (launched img) ∧
    act (fun _ => tinyElf) 0 (.fork 0 3) (launched img) = some (forkedOnce img) ∧
    act (fun _ => tinyElf) 0 (.exit 1) (forkedOnce img) = some z ∧ ¬ RefCounted z := by
  obtain ⟨img,frames,h⟩ := first_image
  obtain ⟨_,_,hne,_⟩ := first_arguments h
  have hrun := forkedOnce_reached h
  have hexact : Exact rootFrame (forkedOnce img) :=
    reaches_exact (fun _ => tinyElf) 0 (booted_exact first_booted) hrun
  refine ⟨img,frames,exitedChild img,h,act_launch h,act_forkOnce,act_exitOnce,?_⟩
  have hs : Stepped img.mm.vma (stackStart-2*4096) := by
    refine ⟨stackStart-2*4096,?_,rfl,by decide⟩
    rw [h.steps]
    simp
  have hu : User (stackStart-2*4096) := by decide
  obtain ⟨hparent,hchild⟩ := both_map (first_forked h) hu hs hne
  generalize frameAt img.kernel.machine.mem img.mm.cr3 (stackStart-2*4096) = a at *
  have hmaps : ∀ r ∈ rootsOf (forkedOnce img).processes,
      MapsPage (forkedOnce img).kernel.machine.mem r (stackStart-2*4096) a →
      0 < uses (entryFrame (forkedOnce img).kernel.machine.mem r) a := by
    intro r hr hm
    exact (uses_pos_iff).mpr
      ⟨_,(entryFrame_page (hexact.present r hr) hu hne).mpr hm.2⟩
  have hfirst := hmaps _ (by simp [rootsOf, forkedOnce]) hparent
  have hsecond := hmaps _ (by simp [rootsOf, forkedOnce]) hchild
  have htotal : entries (forkedOnce img).kernel.machine.mem (rootsOf (forkedOnce img).processes) a =
      uses (entryFrame (forkedOnce img).kernel.machine.mem img.mm.cr3) a+
        uses (entryFrame (forkedOnce img).kernel.machine.mem
          (doFork img.kernel.machine img.mm).2.cr3) a := entries_pair
  have hpos : 0 < entries (forkedOnce img).kernel.machine.mem
      (rootsOf (forkedOnce img).processes) a := by omega
  obtain ⟨q,hq,_,hn⟩ := hexact.counted a hne hpos
  have hmem : a ∈ addresses (forkedOnce img).kernel.machine.pages := by
    rw [← pageOf_address _ a q hq]
    exact List.mem_map.mpr ⟨q,pageOf_mem _ a q hq,rfl⟩
  intro hcounted
  have hbad := hcounted a
  rw [exitedChild, exitVmmaps_machine _ hexact.coherent.forest.frames] at hbad
  have hleft : entries (forkedOnce img).kernel.machine.mem
      (rootsOf [⟨2,false,false,img.mm⟩]) a =
      uses (entryFrame (forkedOnce img).kernel.machine.mem img.mm.cr3) a := entries_single _ _ _
  dsimp only at hbad
  have hcount := hbad hmem (by omega)
  rw [countOf, hq, Option.map_some, Option.getD_some, hn] at hcount
  omega

end PreemptiveOS.FrameCounts
