import PreemptiveOS.ForkFrames
import PreemptiveOS.ProcessTree

/-!
# A fork without memory

A fork asks for frames one after the other, and only the last request, for the
node of `allproc`, is looked at. Frames are never given back on the way, so
that once a request is refused all later ones are, and the fork returns an
error. By then the parent's list of children has been replaced.
-/

set_option autoImplicit false

namespace PreemptiveOS.ForkFailure
open ByteMemory PhysMmgr VirtMmgr TableForest PageRecords FreshFrames Ownership Vmas KernelObjects
open LinkedQueues FrameGrowth TableFrames Supply ForkFrames
open Scheduler (System enlist adopt addProcessToQueue Pcb)
open Fork (dupMm copyVm forkObjects forkThread allSteps sharePage protectPage)

structure Caller where
  machine : Machine
  system : System
  mm : Option (KernelPtr × MmStruct)

structure Child where
  pcb : KernelPtr
  mm : Option (KernelPtr × MmStruct)
  kstack : KernelPtr

structure Outcome where
  machine : Machine
  system : System
  child : Child
  result : ℤ

/-- The count of the executable goes up, through a null pointer where there is none. -/
def copyMm (cloneVm : Bool) (s : Machine) :
    Option (KernelPtr × MmStruct) → Option (Machine × Option (KernelPtr × MmStruct))
  | none => some (s,none)
  | some (p,mm) =>
    if cloneVm then some (s,some (p,mm))
    else
      mm.file.map (fun file =>
        ((dupMm (object s).1 mm.vma).1,
          some ((object s).2,⟨(dupMm (object s).1 mm.vma).2,mm.cr3,some file⟩)))

def shareVm (parent : Option (KernelPtr × MmStruct))
    (copied : Machine × Option (KernelPtr × MmStruct)) :
    Option (Machine × Option (KernelPtr × MmStruct)) :=
  match parent, copied.2 with
  | some (_,old), some (p,mm) =>
    some ((copyVm copied.1 old.vma old.cr3).1,
      some (p,{ mm with cr3 := (copyVm copied.1 old.vma old.cr3).2 }))
  | _, _ => none

def copySpace (cloneVm : Bool) (x : Caller) : Option (Machine × Option (KernelPtr × MmStruct)) :=
  (copyMm cloneVm (forkRecords x.machine) x.mm).bind (fun copied =>
    if cloneVm then some copied else shareVm x.mm copied)

/-- Without a frame for the process block, the block and the records behind it are
all at `KERNBASE`: clearing the command line clears the pointer to it, and the
copy goes through a null pointer. -/
def doFork (cloneVm : Bool) (x : Caller) : Option Outcome :=
  if (alloc x.machine).2 = 0 then none
  else
    (copySpace cloneVm x).bind (fun space =>
      let s := (zeroedObject space.1).1
      let node := if (alloc s).2 = 0 then none else some (object s).2
      (Scheduler.doFork (object x.machine).2.val node x.system).map (fun system =>
        ⟨(alloc s).1,system,⟨(object x.machine).2,space.2,(object space.1).2⟩,
          if node.isNone then -1 else (((x.system.lastPid+1).setWidth 16).toNat : ℤ)⟩))

def TakenNode (s s' : Machine) (q : KernelPtr) : Prop := ∃ f, TakenFrame s s' f ∧ q = kernelPtr f

structure Placed (cloneVm : Bool) (x : Caller) (r : Outcome) : Prop where
  pcb : TakenNode x.machine r.machine r.child.pcb
  kstack : TakenNode x.machine r.machine r.child.kstack
  shared : cloneVm = true → r.child.mm = x.mm
  space : cloneVm = false → ∃ p mm, r.child.mm = some (p,mm) ∧
    TakenNode x.machine r.machine p ∧ (∀ v ∈ mm.vma, TakenNode x.machine r.machine v.node) ∧
    Homed x.machine r.machine mm.cr3

structure Untouched (x : Caller) (r : Outcome) : Prop where
  allproc : r.system.allproc = x.system.allproc
  runQueue : ∀ l, Chain r.system.next (r.system.processes .run) l ↔
    Chain x.system.next (x.system.processes .run) l
  children : (r.system.pcbs x.system.current).cptr = (x.system.pcbs x.system.current).cptr
  tables : ∀ p mm, x.mm = some (p,mm) → ∀ q j, q.length ≤ 3 →
    entryAt child (tables r.machine.mem) (frameOf mm.cr3) q j =
      entryAt child (tables x.machine.mem) (frameOf mm.cr3) q j

def Clean (cloneVm : Bool) (x : Caller) : Prop :=
  ∃ r, doFork cloneVm x = some r ∧
    ((0 ≤ r.result ∧ Placed cloneVm x r) ∨ (r.result = -1 ∧ Untouched x r))

def asking (cloneVm : Bool) (x : Caller) : Machine :=
  if cloneVm then forkThread (forkRecords x.machine)
  else x.mm.elim (forkThread (forkRecords x.machine)) (fun mm => (Fork.doFork x.machine mm.2).1)

def framesNeeded (cloneVm : Bool) (x : Caller) : ℕ :=
  if cloneVm then 6
  else x.mm.elim 6 (fun mm => 7+mm.2.vma.length+copiedTables x.machine.mem 3 x.machine.pml4+
    (sharedPaths x.machine.mem mm.2.cr3 (allSteps mm.2.vma)).card)

def Occupied (s : Machine) (p : Word) : Prop := ∀ f, Unused s.pages f → p ≠ (kernelPtr f).val

structure Forkable (kernel : ℕ → Prop) (roots : List Word) (cloneVm : Bool) (x : Caller) :
    Prop where
  coherent : Coherent kernel 1 roots x.machine
  upper : UpperPresent x.machine
  current : Occupied x.machine x.system.current
  children : ∀ p ∈ (x.system.pcbs x.system.current).cptr, Occupied x.machine p
  queue : ∃ l, Chain x.system.next (x.system.processes .run) l ∧
    l.length ≤ x.system.made.length ∧ ∀ p ∈ l, Occupied x.machine p
  space : cloneVm = false → ∃ p mm, x.mm = some (p,mm) ∧ mm.file.isSome ∧ mm.cr3 ∈ roots ∧
    ∀ i ∈ allSteps mm.vma, User i

structure Spends (s s' : Machine) : Prop where
  grows : Grows s s'
  count : freeCount s'.pages ≤ freeCount s.pages
  drained : FramesOk s.pages → s'.shortages ≠ s.shortages → freeCount s'.pages = 0

variable {s : Machine}

theorem spends_same {s' : Machine} (hp : s'.pages = s.pages) (hsh : s'.shortages = s.shortages) :
    Spends s s' := by
  constructor
  case grows => exact grows_same hp hsh
  case count => rw [hp]
  case drained => exact fun _ hne => absurd hsh hne

theorem spends_trans {s₁ s₂ : Machine} (h : Spends s s₁) (h' : Spends s₁ s₂) : Spends s s₂ := by
  constructor
  case grows => exact grows_trans h.grows h'.grows
  case count => exact h'.count.trans h.count
  case drained =>
    intro hf hne
    by_cases hfirst : s₁.shortages = s.shortages
    · exact h'.drained (grows_frames h.grows hf) (by rwa [hfirst])
    · have hnone := h.drained hf hfirst
      have hle := h'.count
      omega

theorem spends_object (s : Machine) : Spends s (object s).1 := by
  have hcount : freeCount (object s).1.pages = freeCount s.pages-1 := freeCount_allocated s.pages
  constructor
  case grows => exact grows_object s
  case count => omega
  case drained =>
    intro hf hne
    have ha : (alloc s).2 = 0 := by
      by_contra ha
      exact hne (if_neg ha)
    have hnone := alloc_none hf ha
    omega

theorem spends_zeroed (s : Machine) : Spends (object s).1 (zeroedObject s).1 := spends_same rfl rfl

theorem spends_zeroedObject (s : Machine) : Spends s (zeroedObject s).1 :=
  spends_trans (spends_object s) (spends_zeroed s)

theorem spends_steady : Steady Spends := by
  constructor
  case same => exact fun s s' => spends_same
  case trans => exact fun s s₁ s₂ => spends_trans
  case alloc => exact spends_object

theorem spends_shares (r c : Word) {is : List Word} (s : Machine) :
    Spends s (is.foldl (sharePage r c) s) := by
  induction is generalizing s with
  | nil => exact spends_same rfl rfl
  | cons i is ih =>
    have hshare : Spends s (sharePage r c s i) := by
      have hgrow := grows_shares r c [i] s
      have hmap := steady_map spends_steady clearTable s i (walkPml4 s.mem r i) Fork.shareFlags c
        false
      rw [List.foldl_cons, List.foldl_nil] at hgrow
      rw [sharePage] at hgrow ⊢
      dsimp only at hgrow ⊢
      split_ifs at hgrow ⊢
      · exact spends_same rfl rfl
      · constructor
        case grows => exact hgrow
        case count =>
          dsimp only
          rw [freeCount_increment]
          exact hmap.count
        case drained =>
          intro hf hne
          dsimp only
          rw [freeCount_increment]
          exact hmap.drained hf hne
    exact spends_trans hshare (ih _)

theorem spends_copyVm (s : Machine) (vmas : List Vma) (r : Word) : Spends s (copyVm s vmas r).1 := by
  have hroot := steady_copyPageTables spends_steady s s.pml4
  rw [copyVm]
  generalize copyPageTables s s.pml4 4 = c at *
  exact spends_trans hroot (spends_trans
    (spends_same (Fork.protect_pages r _ _) (Fork.protect_shortages r _)) (spends_shares r c.2 _))

theorem spends_dupMm (vmas : List Vma) (s : Machine) : Spends s (dupMm s vmas).1 := by
  induction vmas generalizing s with
  | nil => exact spends_same rfl rfl
  | cons vma vmas ih => exact spends_trans (spends_object s) (ih _)

theorem spends_records (s : Machine) : Spends (object s).1 (forkRecords s) :=
  spends_trans (spends_zeroed s) (spends_trans (spends_object _)
    (spends_trans (spends_zeroedObject _) (spends_zeroedObject _)))

def ownSpace (x : Caller) (old : MmStruct) : Machine × Option (KernelPtr × MmStruct) :=
  ((copyVm (dupMm (forkObjects x.machine) old.vma).1 old.vma old.cr3).1,
    some ((object (forkRecords x.machine)).2,(Fork.doFork x.machine old).2))

theorem copySpace_clone (x : Caller) : copySpace true x = some (forkRecords x.machine,x.mm) := by
  rw [copySpace]
  cases x.mm <;> rfl

variable {x : Caller} {p : KernelPtr} {old : MmStruct}

theorem copySpace_own (hmm : x.mm = some (p,old)) (hfile : old.file.isSome) :
    copySpace false x = some (ownSpace x old) := by
  obtain ⟨file,hfile⟩ := Option.isSome_iff_exists.mp hfile
  have hobjects : forkObjects x.machine = (object (forkRecords x.machine)).1 := rfl
  rw [copySpace, hmm, copyMm, if_neg (by decide), hfile, Option.map_some, Option.bind_some,
    if_neg (by decide), ownSpace, Fork.doFork, hobjects, hfile]
  rfl

theorem spends_own (x : Caller) (old : MmStruct) :
    Spends (object x.machine).1 (ownSpace x old).1 := by
  have hdup := spends_trans (spends_trans (spends_records x.machine) (spends_object _))
    (spends_dupMm old.vma _)
  exact spends_trans hdup (spends_copyVm _ old.vma old.cr3)

theorem spends_forkThread (s : Machine) : Spends s (forkThread s) :=
  spends_trans (spends_zeroedObject s) (spends_object _)

variable {space : Machine × Option (KernelPtr × MmStruct)}

section
variable {kernel : ℕ → Prop} {roots : List Word} {cloneVm : Bool} {x : Caller}
  (h : Forkable kernel roots cloneVm x)
include h

theorem needed_iff : framesNeeded cloneVm x ≤ freeCount x.machine.pages ↔
    (asking cloneVm x).shortages = x.machine.shortages := by
  have hf := h.coherent.forest.frames
  cases cloneVm with
  | true =>
    exact asks_iff (asks_trans (asks_forkRecords hf) (spends_forkThread _).grows.shortages
      (fun _ => asks_forkThread (forkRecords_frames hf)))
  | false =>
    obtain ⟨p,old,hmm,_,hr,hu⟩ := h.space rfl
    rw [framesNeeded, asking, if_neg (by decide), if_neg (by decide), hmm]
    exact asks_iff (asks_doFork h.coherent h.upper hr hu)

theorem copySpace_found : ∃ space, copySpace cloneVm x = some space ∧
    Spends (object x.machine).1 space.1 ∧ asking cloneVm x = forkThread space.1 := by
  cases cloneVm with
  | true => exact ⟨_,copySpace_clone x,spends_records x.machine,if_pos rfl⟩
  | false =>
    obtain ⟨p,old,hmm,hfile,_⟩ := h.space rfl
    exact ⟨_,copySpace_own hmm hfile,spends_own x old,
      by rw [asking, if_neg (by decide), hmm, Option.elim_some, Fork.doFork, ownSpace]⟩

variable (hne : (asking cloneVm x).shortages ≠ x.machine.shortages)
include hne

theorem last_refused (hspends : Spends (object x.machine).1 space.1)
    (hasking : asking cloneVm x = forkThread space.1) : (alloc (zeroedObject space.1).1).2 = 0 := by
  have hs := spends_trans (spends_object x.machine)
    (spends_trans hspends (spends_zeroedObject space.1))
  by_contra ha
  have hfirst : (zeroedObject space.1).1.shortages ≠ x.machine.shortages := by
    intro hsh
    have hlast : (asking cloneVm x).shortages = (zeroedObject space.1).1.shortages :=
      hasking ▸ if_neg ha
    exact hne (hlast.trans hsh)
  exact ha (alloc_refused (hs.drained h.coherent.forest.frames hfirst))

theorem refused_outcome (ha : (alloc x.machine).2 ≠ 0) : ∃ r, doFork cloneVm x = some r ∧
    r.result = -1 ∧ (r.system.pcbs x.system.current).cptr = [(object x.machine).2.val] := by
  obtain ⟨space,hspace,hspends,hasking⟩ := copySpace_found h
  have hlast := last_refused h hne hspends hasking
  have hchild : x.system.current ≠ (object x.machine).2.val :=
    h.current _ (alloc_unused x.machine.pages ha)
  have hfork : doFork cloneVm x = some ⟨asking cloneVm x,
      enlist (object x.machine).2.val none (adopt x.system.current (object x.machine).2.val x.system),
      ⟨(object x.machine).2,space.2,(object space.1).2⟩,-1⟩ := by
    rw [doFork, if_neg ha, hspace, Option.bind_some, hasking]
    dsimp only
    rw [if_pos hlast]
    rfl
  refine ⟨_,hfork,rfl,?_⟩
  show ((adopt x.system.current (object x.machine).2.val x.system).pcbs x.system.current).cptr = _
  rw [ProcessTree.adopt_old _ _ _ _ hchild, if_pos rfl]

theorem refused_unclean : ¬ Clean cloneVm x := by
  rintro ⟨r,hr,hends⟩
  have ha : (alloc x.machine).2 ≠ 0 := by
    intro h0
    rw [doFork, if_pos h0] at hr
    cases hr
  obtain ⟨r',hr',hresult,hcptr⟩ := refused_outcome h hne ha
  obtain rfl := Option.some.inj (hr.symm.trans hr')
  rcases hends with ⟨hpos,_⟩ | ⟨_,huntouched⟩
  · omega
  · have hmem : (object x.machine).2.val ∈ (x.system.pcbs x.system.current).cptr := by
      rw [← huntouched.children, hcptr]
      exact List.mem_singleton_self _
    exact h.children _ hmem _ (alloc_unused x.machine.pages ha) rfl

end

theorem queue_takes {s : System} (p : Word) {l : List Word}
    (hc : Chain s.next (s.processes .run) l) (hl : l.length ≤ s.made.length) :
    ∃ s', addProcessToQueue .run p s = some s' := by
  rw [addProcessToQueue]
  cases hq : s.processes .run with
  | none => exact ⟨_,rfl⟩
  | some first =>
    rw [hq] at hc
    rcases List.eq_nil_or_concat l with rfl | ⟨l',last,rfl⟩
    · cases hc
    · rw [List.concat_eq_append] at hc hl
      rw [List.length_append, List.length_singleton] at hl
      simp only [lastFrom_chain first s.made.length hc (by omega)]
      exact ⟨_,rfl⟩

theorem doFork_queues (s : System) (child : Word) (node : KernelPtr) (l : List Word)
    (hc : Chain s.next (s.processes .run) l) (hl : l.length ≤ s.made.length) (hnew : child ∉ l) :
    ∃ s', Scheduler.doFork child (some node) s = some s' := by
  have hchain : Chain (enlist child (some node) (adopt s.current child s)).next
      ((enlist child (some node) (adopt s.current child s)).processes .run) l := by
    apply chain_congr s.next _ _ l _ hc
    intro p hp
    have hne : p ≠ child := fun he => hnew (he ▸ hp)
    exact ProcessTree.adopt_field Pcb.nextInQueue (fun _ _ => rfl) s.current s hne
  have hlen : l.length ≤ (enlist child (some node) (adopt s.current child s)).made.length := by
    show l.length ≤ s.made.length+1
    omega
  obtain ⟨s',hs'⟩ := queue_takes child hchain hlen
  refine ⟨s'.set child (Pcb.onQueue true),?_⟩
  rw [Scheduler.doFork, if_neg (by simp), hs', Option.map_some]

section
variable {s₀ s s' : Machine} (hf : FramesOk s₀.pages) (hg : Grows s₀ s)
  (hok : s'.shortages = s₀.shortages)
include hf hg hok

theorem taken_object (hg' : Grows (object s).1 s') : TakenNode s₀ s' (object s).2 := by
  have ha := object_supplied hg hg' hok
  have hfs := grows_frames hg hf
  refine ⟨(alloc s).2,taken_before hf hg ?_,rfl⟩
  exact taken_after hfs (grows_object s) hg' ⟨alloc_unused s.pages ha,alloc_taken hfs ha⟩

theorem taken_dupMm {vmas : List Vma} (hg' : Grows (dupMm s vmas).1 s') :
    ∀ v ∈ (dupMm s vmas).2, TakenNode s₀ s' v.node := by
  induction vmas generalizing s with
  | nil => exact fun v hv => absurd hv List.not_mem_nil
  | cons vma vmas ih =>
    intro v hv
    rcases List.mem_cons.mp hv with rfl | hv
    · exact taken_object hf hg hok (grows_trans (spends_dupMm vmas _).grows hg')
    · exact ih (grows_trans hg (grows_object s)) hg' v hv

end

variable {roots : List Word} {kernel : ℕ → Prop}

theorem own_placed (h : Coherent kernel 1 roots x.machine) (hr : old.cr3 ∈ roots)
    (hu : ∀ i ∈ allSteps old.vma, User i)
    (hok : (Fork.doFork x.machine old).1.shortages = x.machine.shortages) :
    TakenNode x.machine (Fork.doFork x.machine old).1 (object (forkRecords x.machine)).2 ∧
    (∀ v ∈ (Fork.doFork x.machine old).2.vma,
      TakenNode x.machine (Fork.doFork x.machine old).1 v.node) ∧
    Homed x.machine (Fork.doFork x.machine old).1 (Fork.doFork x.machine old).2.cr3 := by
  have hhome := doFork_homed h hr hu hok
  have hrecords := grows_trans (grows_object x.machine) (spends_records x.machine).grows
  have hobjects := grows_trans hrecords (grows_object (forkRecords x.machine))
  have hcopy := spends_copyVm (dupMm (forkObjects x.machine) old.vma).1 old.vma old.cr3
  refine ⟨?_,?_,hhome⟩
  · rw [Fork.doFork] at hok ⊢
    dsimp only at hok ⊢
    generalize copyVm (dupMm (forkObjects x.machine) old.vma).1 old.vma old.cr3 = c at *
    exact taken_object h.forest.frames hrecords hok (grows_trans (spends_dupMm old.vma _).grows
      (grows_trans hcopy.grows (spends_forkThread c.1).grows))
  · rw [Fork.doFork] at hok ⊢
    dsimp only at hok ⊢
    generalize copyVm (dupMm (forkObjects x.machine) old.vma).1 old.vma old.cr3 = c at *
    exact taken_dupMm h.forest.frames hobjects hok
      (grows_trans hcopy.grows (spends_forkThread c.1).grows)

variable {cloneVm : Bool}

theorem space_placed (h : Forkable kernel roots cloneVm x)
    (hok : (asking cloneVm x).shortages = x.machine.shortages)
    (hspace : copySpace cloneVm x = some space) :
    (cloneVm = true → space.2 = x.mm) ∧
    (cloneVm = false → ∃ p mm, space.2 = some (p,mm) ∧
      TakenNode x.machine (asking cloneVm x) p ∧
      (∀ v ∈ mm.vma, TakenNode x.machine (asking cloneVm x) v.node) ∧
      Homed x.machine (asking cloneVm x) mm.cr3) := by
  cases cloneVm with
  | true =>
    rw [copySpace_clone] at hspace
    obtain rfl := Option.some.inj hspace
    exact ⟨fun _ => rfl,fun hc => absurd hc (by decide)⟩
  | false =>
    obtain ⟨p,old,hmm,hfile,hr,hu⟩ := h.space rfl
    have hasking : asking false x = (Fork.doFork x.machine old).1 := by
      rw [asking, if_neg (by decide), hmm, Option.elim_some]
    rw [copySpace_own hmm hfile] at hspace
    obtain rfl := Option.some.inj hspace
    rw [hasking] at hok ⊢
    exact ⟨fun hc => absurd hc (by decide),
      fun _ => ⟨_,_,rfl,own_placed h.coherent hr hu hok⟩⟩

theorem supplied_clean (h : Forkable kernel roots cloneVm x)
    (hok : (asking cloneVm x).shortages = x.machine.shortages) : Clean cloneVm x := by
  obtain ⟨space,hspace,hspends,hasking⟩ := copySpace_found h
  obtain ⟨hshared,hown⟩ := space_placed h hok hspace
  have hf := h.coherent.forest.frames
  have hstart : Grows x.machine x.machine := grows_same rfl rfl
  have hbefore := grows_trans (grows_object x.machine) hspends.grows
  have hkstack := (spends_zeroedObject space.1).grows
  have hthread : Grows (object space.1).1 (asking cloneVm x) :=
    hasking ▸ grows_trans (spends_zeroed space.1).grows (grows_object (zeroedObject space.1).1)
  have hpcb : Grows (object x.machine).1 (asking cloneVm x) :=
    grows_trans hspends.grows (grows_trans (grows_object space.1) hthread)
  have ha := object_supplied hstart hpcb hok
  have hlast : (alloc (zeroedObject space.1).1).2 ≠ 0 :=
    object_supplied (grows_trans hbefore hkstack) (hasking ▸ grows_same rfl rfl) hok
  obtain ⟨l,hc,hl,hold⟩ := h.queue
  obtain ⟨system,hsystem⟩ := doFork_queues x.system (object x.machine).2.val
    (object (zeroedObject space.1).1).2 l hc hl
    (fun hmem => hold _ hmem _ (alloc_unused x.machine.pages ha) rfl)
  have hfork : doFork cloneVm x = some ⟨asking cloneVm x,system,
      ⟨(object x.machine).2,space.2,(object space.1).2⟩,
      ((x.system.lastPid+1).setWidth 16).toNat⟩ := by
    rw [doFork, if_neg ha, hspace, Option.bind_some, hasking]
    dsimp only
    rw [if_neg hlast, hsystem]
    rfl
  refine ⟨_,hfork,Or.inl ⟨Int.natCast_nonneg _,?_⟩⟩
  constructor
  case pcb => exact taken_object hf hstart hok hpcb
  case kstack => exact taken_object hf hbefore hok hthread
  case shared => exact hshared
  case space => exact hown

/-- A fork is clean exactly with the frames it needs. -/
theorem fork_clean_iff {kernel : ℕ → Prop} {roots : List Word} (cloneVm : Bool) (x : Caller)
    (h : Forkable kernel roots cloneVm x) :
    Clean cloneVm x ↔ framesNeeded cloneVm x ≤ freeCount x.machine.pages := by
  rw [needed_iff h]
  constructor
  · intro hclean
    by_contra hne
    exact refused_unclean h hne hclean
  · exact supplied_clean h

def emptyCaller (n : ℕ) : Caller where
  machine := emptyMachine n
  system := Scheduler.schedulerInit (fun _ => Scheduler.childPcb 0 0) (kernelPtr 0xa000).val
  mm := some (kernelPtr 0xb000,⟨[tinyHeap (kernelPtr 0xc000)],0x9000,some (kernelPtr 0xd000)⟩)

theorem emptyCaller_steps : allSteps [tinyHeap (kernelPtr 0xc000)] = [0x401000] := by
  simp [allSteps, Fork.forkSteps, Fork.stepsFrom, upperBound, lowerBound, tinyHeap]

theorem emptyCaller_forkable (n : ℕ) (hn : n ≤ 0x1000) :
    Forkable rootFrame [0x9000] false (emptyCaller n) := by
  constructor
  case coherent => exact empty_coherent hn
  case upper => exact fun _ u _ _ j hj => absurd (first_tables u j) hj
  case current =>
    intro f hf he
    obtain ⟨i,hi,hf'⟩ := evenFrames_mem n hn f (unused_address hf)
    have hsame := kernelPtr_inj (by decide) (by omega) (Subtype.ext he)
    rw [← hsame] at hf'
    have hlow : (0xa000 : Word).toNat = 0xa000 := rfl
    omega
  case children =>
    intro p hp
    simp [emptyCaller, Scheduler.schedulerInit, Scheduler.idlePcb, Scheduler.childPcb] at hp
  case queue => exact ⟨[],rfl,by simp,by simp⟩
  case space =>
    intro _
    refine ⟨_,_,rfl,rfl,List.mem_singleton_self _,?_⟩
    dsimp only
    rw [emptyCaller_steps, List.forall_mem_singleton]
    decide

theorem emptyCaller_needed (n : ℕ) : framesNeeded false (emptyCaller n) = 9 := by
  have hentry : ∀ i, entry (emptyMachine n).mem 0x8000 i = 0 := by
    intro i
    rw [entry_eq _ _ (by decide)]
    exact first_tables _ i
  have hcopied : copiedTables (emptyMachine n).mem 3 0x8000 = 1 := by
    rw [copiedTables]
    simp only [hentry, if_pos, List.map_const', List.sum_replicate, smul_zero, Nat.add_zero]
  have hleaf : leaf (emptyMachine n).mem 0x9000 0x401000 = none := by
    rw [leaf, entryAt, upperPath, descend]
    rw [show tables (emptyMachine n).mem _ _ = 0 from first_tables _ _, child_absent (by decide)]
    rfl
  have hframe : Fork.frameAt (emptyMachine n).mem 0x9000 0x401000 = 0 := by
    rw [Fork.frameAt, pte, hleaf]
    rfl
  have hpaths : sharedPaths (emptyMachine n).mem 0x9000
      (allSteps [tinyHeap (kernelPtr 0xc000)]) = ∅ := by
    rw [emptyCaller_steps, sharedPaths_one, if_neg (fun hcond => hcond.1 hframe)]
  show 7+1+copiedTables (emptyMachine n).mem 3 0x8000+(sharedPaths (emptyMachine n).mem 0x9000
    (allSteps [tinyHeap (kernelPtr 0xc000)])).card = 9
  rw [hcopied, hpaths, Finset.card_empty]

theorem fork_clean_iff_nine : Forkable rootFrame [0x9000] false (emptyCaller 9) ∧
    framesNeeded false (emptyCaller 9) = 9 ∧ Clean false (emptyCaller 9) := by
  have h := emptyCaller_forkable 9 (by decide)
  refine ⟨h,emptyCaller_needed 9,(fork_clean_iff false (emptyCaller 9) h).mpr ?_⟩
  rw [emptyCaller_needed]
  exact (evenFrames_free 9).ge

/-- Every frame but the one for the node of `allproc` is there. The fork fails, and
the child stays on its parent's list. -/
theorem fork_short_of_last_frame : Forkable rootFrame [0x9000] false (emptyCaller 8) ∧
    ¬ Clean false (emptyCaller 8) ∧
    ((emptyCaller 8).system.pcbs (emptyCaller 8).system.current).cptr = [] ∧
    ∃ r, doFork false (emptyCaller 8) = some r ∧ r.result = -1 ∧
      (r.system.pcbs (emptyCaller 8).system.current).cptr =
        [(object (emptyCaller 8).machine).2.val] := by
  have h := emptyCaller_forkable 8 (by decide)
  have hfree : freeCount (emptyCaller 8).machine.pages = 8 := evenFrames_free 8
  have ha : (alloc (emptyCaller 8).machine).2 ≠ 0 := by
    intro h0
    have hnone := alloc_none h.coherent.forest.frames h0
    omega
  have hne : (asking false (emptyCaller 8)).shortages ≠ (emptyCaller 8).machine.shortages := by
    rw [ne_eq, ← needed_iff h, emptyCaller_needed, hfree]
    decide
  refine ⟨h,refused_unclean h hne,?_,refused_outcome h hne ha⟩
  simp [emptyCaller, Scheduler.schedulerInit, Scheduler.idlePcb, Scheduler.childPcb]

end PreemptiveOS.ForkFailure
