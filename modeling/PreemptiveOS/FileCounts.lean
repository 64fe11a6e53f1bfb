import PreemptiveOS.FileReferences

/-!
# Files that are closed while in use

A `struct file` is referenced by slots of descriptor tables, by the `mm_struct`
of the processes that were loaded from it and by their VMAs, and its count says
little about them. It is enough that a close, an unmapping and an exit leave a
file in use with something to count, and that no segment of an executable is
refused.
-/

set_option autoImplicit false

namespace PreemptiveOS.FileCounts
open ByteMemory PhysMmgr VirtMmgr Vmas KernelObjects Exec
open PageFaults (FileData tarfsReadSize)
open DoubleLinks VmaNodes Fork FrameGrowth ExecLeaves
open NodeSpaces SpaceRefinement SpaceCopies VmaSharing FileReferences

def Uses (x : System) (i : ℕ) (fp : KernelPtr) : Prop :=
  ∃ p, x.processes i = some p ∧ (some fp ∈ p.fd ∨ p.mm.file = some fp ∨
    ∃ v, Reachable x.nodes p.mm.vma v ∧ (x.nodes.data v).file = some fp)

structure Sound (x : System) : Prop where
  counted : ∀ c ∈ x.closes, c.count ≠ 0
  dropped : ∀ c ∈ x.closes, c.count = 1 → ∀ i, ¬ Uses x i c.file

def KeepsFiles (files : KernelPtr → FileData) (x y : System) (e : Event) : Prop :=
  KeepsApart x y e ∧
  match e with
  | .openFile _ _ => y.kernel.machine.shortages = x.kernel.machine.shortages
  | .openTerminal _ => y.kernel.machine.shortages = x.kernel.machine.shortages
  | .close i d => ∀ p fp, x.processes i = some p → fileAt p d = some fp →
    x.kernel.fRefcount fp ≠ 1
  | .exec i args => ∀ p file phdrs, x.processes i = some p →
    (beforeRoot x.kernel (execArgs p args)).2 = some file →
    (readHeaders (afterRoot x.kernel (execArgs p args)).machine (files file)).2 = .read phdrs →
    SegmentsApart phdrs
  | .fork i _ => ∀ p fp, x.processes i = some p → p.mm.file = some fp →
    x.kernel.fRefcount fp ≠ -1
  | .mmap i source _ _ _ _ _ => ∀ p d size fp, x.processes i = some p → source = some (d,size) →
    fileAt p d = some fp → x.kernel.fRefcount fp ≠ 1
  | .munmap i addr size => ∀ p v fp, x.processes i = some p →
    munmapRegion x.kernel ⟨x.nodes,p.mm.vma⟩ addr size = some (some v) →
    (x.nodes.data v).file = some fp → x.kernel.fRefcount fp ≠ 1
  | .exit i => ∀ p vmas fp, x.processes i = some p →
    readVmas x.nodes (rounds x.kernel.machine) p.mm.vma = some vmas → 0 < mappings vmas fp →
    mappings vmas fp < (x.kernel.fRefcount fp).toNat ∨
      (mappings vmas fp = (x.kernel.fRefcount fp).toNat ∧ ∀ j, j ≠ i → ¬ Uses x j fp)

def RefersTo (p : Process) (vmas : List Vma) (fp : KernelPtr) : Prop :=
  some fp ∈ p.fd ∨ p.mm.file = some fp ∨ ∃ v ∈ vmas, v.file = some fp

def Refers (x : System) (vs : ℕ → List Vma) (fp : KernelPtr) : Prop :=
  ∃ i p, x.processes i = some p ∧ RefersTo p (vs i) fp

variable {x : System} {vs : ℕ → List Vma}

theorem uses_iff (h : Apart x vs) (i : ℕ) (fp : KernelPtr) :
    Uses x i fp ↔ ∃ p, x.processes i = some p ∧ RefersTo p (vs i) fp := by
  have hvmas : ∀ p, x.processes i = some p →
      ((∃ v, Reachable x.nodes p.mm.vma v ∧ (x.nodes.data v).file = some fp) ↔
        ∃ v ∈ vs i, v.file = some fp) := by
    intro p hp
    have hshown := h.shown i p hp
    have hreach := fun v => reachable_chain p.mm.vma v (doubly_chain _ _ hshown.linked)
    constructor
    · rintro ⟨v,hv,hfile⟩
      obtain ⟨w,hw,rfl⟩ := List.mem_map.mp ((hreach v).mp hv)
      exact ⟨w,hw,by rwa [hshown.records w hw] at hfile⟩
    · rintro ⟨w,hw,hfile⟩
      refine ⟨w.node,(hreach _).mpr (List.mem_map_of_mem hw),?_⟩
      rwa [hshown.records w hw]
  unfold Uses RefersTo
  constructor
  · rintro ⟨p,hp,href⟩
    rw [hvmas p hp] at href
    exact ⟨p,hp,href⟩
  · rintro ⟨p,hp,href⟩
    rw [← hvmas p hp] at href
    exact ⟨p,hp,href⟩

structure Counted (x : System) (vs : ℕ → List Vma) : Prop where
  apart : Apart x vs
  live : ∀ fp, Refers x vs fp → HeldNode x.kernel.machine fp ∧ x.kernel.fRefcount fp ≠ 0
  past : ∀ c ∈ x.closes, HeldNode x.kernel.machine c.file ∧ c.count ≠ 0 ∧
    (c.count = 1 → ¬ Refers x vs c.file)

theorem counted_sound (h : Counted x vs) : Sound x := by
  constructor
  case counted => exact fun c hc => (h.past c hc).2.1
  case dropped =>
    intro c hc hone i huse
    obtain ⟨p,hp,href⟩ := (uses_iff h.apart i c.file).mp huse
    exact (h.past c hc).2.2 hone ⟨i,p,hp,href⟩

variable {fp : KernelPtr} {y : System} {vs' : ℕ → List Vma} {p : Process} {i : ℕ} {k : Kernel}
  {r : Kernel × Option (ℕ × KernelPtr)} {e : Execed} {args : ExecArgs} {c : VmaRuns.MmapCall}
  {addr : Word} {files : KernelPtr → FileData} {dentryCache : List (List Byte)} {vmas : List Vma}

section
variable {x : System} {vs : ℕ → List Vma} (h : Counted x vs)
include h

theorem counted_step (hy : Apart y vs') (hgrow : Grows x.kernel.machine y.kernel.machine)
    (new : List Close) (hcloses : y.closes = new++x.closes)
    (hrefs : ∀ fp, Refers y vs' fp → Refers x vs fp ∨
      (FreshNode x.kernel.machine fp ∧ HeldNode y.kernel.machine fp))
    (hcount : ∀ fp, Refers y vs' fp → y.kernel.fRefcount fp ≠ 0)
    (hnew : ∀ c ∈ new, Refers x vs c.file ∧ c.count ≠ 0 ∧ (c.count = 1 → ¬ Refers y vs' c.file)) :
    Counted y vs' := by
  have hheld : ∀ fp, HeldNode x.kernel.machine fp → HeldNode y.kernel.machine fp :=
    fun fp hfp => held_after hgrow h.apart.frames hfp
  constructor
  case apart => exact hy
  case live =>
    intro fp hr
    refine ⟨?_,hcount fp hr⟩
    rcases hrefs fp hr with hold | ⟨_,hfp⟩
    · exact hheld fp (h.live fp hold).1
    · exact hfp
  case past =>
    intro c hc
    rw [hcloses, List.mem_append] at hc
    rcases hc with hc | hc
    · obtain ⟨hr,hne,hone⟩ := hnew c hc
      exact ⟨hheld _ (h.live _ hr).1,hne,hone⟩
    · obtain ⟨hfp,hne,hone⟩ := h.past c hc
      refine ⟨hheld _ hfp,hne,?_⟩
      intro hc1 hr
      rcases hrefs _ hr with hold | ⟨hfresh,_⟩
      · exact hone hc1 hold
      · exact held_not_fresh h.apart.frames hfp hfresh

theorem counted_new (hy : Apart y vs') (hgrow : Grows x.kernel.machine y.kernel.machine)
    (hcloses : y.closes = x.closes) (hnew : NewFile x.kernel y.kernel fp)
    (hrefs : ∀ q, Refers y vs' q → Refers x vs q ∨ q = fp) : Counted y vs' := by
  apply counted_step h hy hgrow [] hcloses
  · intro q hq
    rcases hrefs q hq with hold | rfl
    · exact Or.inl hold
    · exact Or.inr ⟨hnew.fresh,hnew.held⟩
  · intro q hq
    rcases hrefs q hq with hold | rfl
    · have hne : q ≠ fp := fun he =>
        held_not_fresh h.apart.frames (h.live q hold).1 (he ▸ hnew.fresh)
      rw [hnew.others q hne]
      exact (h.live q hold).2
    · rw [hnew.one]
      decide
  · exact fun c hc => absurd hc List.not_mem_nil

theorem counted_once (y : System) (vs' : ℕ → List Vma) (file : Option KernelPtr)
    (new : List Close) (hy : Apart y vs') (hgrow : Grows x.kernel.machine y.kernel.machine)
    (hcloses : y.closes = new++x.closes)
    (honce : ClosesOnce x.kernel file ⟨y.kernel,new,none⟩)
    (hfile : ∀ fp, file = some fp → Refers x vs fp ∧ x.kernel.fRefcount fp ≠ 1)
    (hrefs : ∀ q, Refers y vs' q → Refers x vs q) : Counted y vs' := by
  apply counted_step h hy hgrow new hcloses (fun q hq => Or.inl (hrefs q hq))
  · intro q hq
    have hq0 := (h.live q (hrefs q hq)).2
    rcases honce with ⟨_,hsame⟩ | ⟨_,hclosed⟩
    · dsimp only at hsame
      rwa [hsame]
    · dsimp only at hclosed
      rw [hclosed]
      cases file with
      | none => exact hq0
      | some fp =>
        simp only [closeFile, tarfsClose]
        split_ifs with hfp
        · rw [← hfp]
          exact sub_one_ne_zero (hfp ▸ (hfile fp rfl).2)
        · exact hq0
  · intro c hc
    rcases honce with ⟨hnone,_⟩ | ⟨hone,_⟩
    · dsimp only at hnone
      rw [hnone] at hc
      exact absurd hc List.not_mem_nil
    · dsimp only at hone
      rw [hone] at hc
      cases file with
      | none => exact absurd hc List.not_mem_nil
      | some fp =>
        obtain rfl : c = ⟨fp,x.kernel.fRefcount fp⟩ := by simpa [closeOf] using hc
        obtain ⟨href,hne⟩ := hfile fp rfl
        exact ⟨href,(h.live fp href).2,fun hone => absurd hone hne⟩

omit h in
theorem refers_update (y : System) (vs' : ℕ → List Vma) (i : ℕ) (q : Process) (fp : KernelPtr)
    (hproc : y.processes = Function.update x.processes i (some q))
    (hvs : ∀ j, j ≠ i → vs' j = vs j) (hr : Refers y vs' fp) :
    RefersTo q (vs' i) fp ∨ ∃ j p, j ≠ i ∧ x.processes j = some p ∧ RefersTo p (vs j) fp := by
  obtain ⟨j,p,hp,href⟩ := hr
  rw [hproc] at hp
  by_cases hj : j = i
  · subst hj
    rw [Function.update_self] at hp
    obtain rfl := Option.some.inj hp
    exact Or.inl href
  · rw [Function.update_of_ne hj] at hp
    rw [hvs j hj] at href
    exact Or.inr ⟨j,p,hj,hp,href⟩

variable (hp : x.processes i = some p)
include hp

theorem counted_opened (hgrow : Grows x.kernel.machine r.1.machine) (hopen : Opened x.kernel r) :
    Counted (opened x i p r) vs := by
  have hy := apart_opened h.apart hp hgrow
  obtain ⟨k,r⟩ := r
  rcases hopen with ⟨hnone,hsame⟩ | ⟨fp,hnew,hfp⟩
  · obtain rfl : r = none := hnone
    exact counted_once h _ vs none [] hy hgrow rfl (Or.inl ⟨rfl,hsame⟩) (fun fp he => by cases he)
      (fun q hq => hq)
  · rcases r with _ | ⟨d,fp'⟩
    · exact counted_new h hy hgrow rfl hnew (fun q hq => Or.inl hq)
    · obtain rfl := hfp d fp' rfl
      apply counted_new h hy hgrow rfl hnew
      intro q hq
      rcases refers_update _ vs i { p with fd := p.fd.set d (some fp') } q rfl (fun _ _ => rfl) hq
        with href | ⟨j,p',_,hp',href⟩
      · rcases href with hfd | hrest
        · rcases List.mem_or_eq_of_mem_set hfd with hfd | heq
          · exact Or.inl ⟨i,p,hp,Or.inl hfd⟩
          · exact Or.inr (Option.some.inj heq)
        · exact Or.inl ⟨i,p,hp,Or.inr hrest⟩
      · exact Or.inl ⟨j,p',hp',href⟩

theorem counted_exec (he : NodeSpaces.doExecve files x.kernel x.nodes args = some e)
    (hok : e.kernel.machine.shortages = x.kernel.machine.shortages)
    (hbase : ∀ j q, j ≠ i → x.processes j = some q → ¬ Reachable x.nodes q.mm.vma (kernelPtr 0))
    (hapart : ∀ file phdrs, (beforeRoot x.kernel args).2 = some file →
      (readHeaders (afterRoot x.kernel args).machine (files file)).2 = .read phdrs →
      SegmentsApart phdrs) : ∃ vs', Counted (execSystem x i p e) vs' := by
  obtain ⟨img,himg,hd,hy⟩ := apart_exec h.apart (execFds p.fd e.mm.file)
    (e.closes++x.closes) he hok hbase
  obtain ⟨file,hfile,hnew,hcloses,hvmas⟩ := exec_counts h.apart.frames he himg hd hok hapart
  have hgrow := grows_exec himg
  rw [← hd.kernel] at hgrow
  refine ⟨_,counted_new h hy hgrow (by
    show e.closes++x.closes = x.closes
    rw [hcloses, List.nil_append]) hnew ?_⟩
  intro q hq
  rcases refers_update _ _ i ⟨execFds p.fd e.mm.file,e.mm⟩ q rfl
    (fun j hj => Function.update_of_ne hj _ _) hq with href | ⟨j,p',_,hp',href⟩
  · rw [Function.update_self] at href
    rcases href with hfd | hmm | ⟨v,hv,hvf⟩
    · rw [hfile, execFds] at hfd
      cases havail : availableFd p.fd with
      | none =>
        simp only [havail] at hfd
        exact Or.inl ⟨i,p,hp,Or.inl hfd⟩
      | some d =>
        simp only [havail] at hfd
        rcases List.mem_or_eq_of_mem_set hfd with hfd | heq
        · exact Or.inl ⟨i,p,hp,Or.inl hfd⟩
        · exact Or.inr (Option.some.inj heq)
    · rw [hfile] at hmm
      exact Or.inr (Option.some.inj hmm).symm
    · rcases hvmas v hv with hnone | hsome
      · rw [hnone] at hvf
        cases hvf
      · rw [hsome] at hvf
        exact Or.inr (Option.some.inj hvf).symm
  · exact Or.inl ⟨j,p',hp',href⟩

theorem counted_close {d : ℕ} {slot : Option KernelPtr} (hslot : p.fd[d]? = some slot)
    (hne : ∀ fp, slot = some fp → x.kernel.fRefcount fp ≠ 1) :
    Counted { x with
      kernel := closeFile x.kernel slot, closes := closeOf x.kernel slot++x.closes } vs := by
  have hgrow := grows_work (work_closeFile x.kernel slot)
  have hy := apart_same h.apart { x with
    kernel := closeFile x.kernel slot, closes := closeOf x.kernel slot++x.closes } hgrow rfl
    (fun j q hq => ⟨q,hq,rfl⟩)
  apply counted_once h _ vs slot _ hy hgrow rfl (Or.inr ⟨rfl,rfl⟩)
  · intro fp he
    subst he
    exact ⟨⟨i,p,hp,Or.inl (List.mem_of_getElem? hslot)⟩,hne fp rfl⟩
  · exact fun q hq => hq

omit h in
theorem refers_vmas {head : Option KernelPtr}
    (hproc : y.processes =
      Function.update x.processes i (some { p with mm := { p.mm with vma := head } }))
    (hvmas : ∀ v ∈ vmas, ∀ fp, v.file = some fp → RefersTo p (vs i) fp) (fp : KernelPtr)
    (hr : Refers y (Function.update vs i vmas) fp) : Refers x vs fp := by
  rcases refers_update y _ i _ fp hproc (fun j hj => Function.update_of_ne hj _ _) hr with
    href | ⟨j,q,_,hq,href⟩
  · rw [Function.update_self] at href
    rcases href with hfd | hmm | ⟨v,hv,hvf⟩
    · exact ⟨i,p,hp,Or.inl hfd⟩
    · exact ⟨i,p,hp,Or.inr (Or.inl hmm)⟩
    · exact ⟨i,p,hp,hvmas v hv fp hvf⟩
  · exact ⟨j,q,hq,href⟩

theorem counted_fork (child : ℕ) {r : Kernel × Nodes × Option Process}
    (hr : doFork x.kernel x.nodes p = some r)
    (hok : r.1.machine.shortages = x.kernel.machine.shortages)
    (hmax : ∀ fp, p.mm.file = some fp → x.kernel.fRefcount fp ≠ -1) :
    ∃ vs', Counted ⟨r.1,r.2.1,Function.update x.processes child r.2.2,x.closes⟩ vs' := by
  have hy := apart_fork h.apart child hp hr hok x.closes
  obtain ⟨file,hfile,hgrow,hcounts,hchild⟩ := fork_counts hr
  have hrefs : ∀ fp, Refers ⟨r.1,r.2.1,Function.update x.processes child r.2.2,x.closes⟩
      (Function.update vs child (Fork.dupMm (forkObjects x.kernel.machine) (vs i)).2) fp →
      Refers x vs fp := by
    rintro fp ⟨j,q,hq,href⟩
    dsimp only at hq
    by_cases hj : j = child
    · -- what the child refers to, its parent refers to as well
      subst hj
      rw [Function.update_self] at hq href
      obtain ⟨hfd,hmm⟩ := hchild q hq
      refine ⟨i,p,hp,?_⟩
      rcases href with hslot | hmm' | hvma
      · rw [hfd] at hslot
        exact Or.inl (copyFds_mem hslot)
      · exact Or.inr (Or.inl (by rw [hfile, ← hmm, hmm']))
      · exact Or.inr (Or.inr (dupMm_files _ hvma))
    · rw [Function.update_of_ne hj] at hq href
      exact ⟨j,q,hq,href⟩
  refine ⟨_,counted_step h hy hgrow [] rfl (fun fp hfp => Or.inl (hrefs fp hfp)) ?_
    (fun c hc => absurd hc List.not_mem_nil)⟩
  intro fp hfp
  dsimp only
  rw [hcounts]
  dsimp only
  split_ifs with heq
  · subst heq
    intro hzero
    exact hmax fp hfile (eq_neg_of_add_eq_zero_left hzero)
  · exact (h.live fp (hrefs fp hfp)).2

theorem counted_mmap {y : VmaList × Bool}
    (hy : (NodeSpaces.mmap x.kernel ⟨x.nodes,p.mm.vma⟩ c).space = some y)
    (hfile : ∀ fp, c.source.map Prod.fst = some fp → some fp ∈ p.fd ∧ x.kernel.fRefcount fp ≠ 1) :
    ∃ vs', Counted ⟨(NodeSpaces.mmap x.kernel ⟨x.nodes,p.mm.vma⟩ c).kernel,y.1.nodes,
      Function.update x.processes i (some { p with mm := { p.mm with vma := y.1.head } }),
      (NodeSpaces.mmap x.kernel ⟨x.nodes,p.mm.vma⟩ c).closes++x.closes⟩ vs' := by
  have honce := mmap_closes x.kernel ⟨x.nodes,p.mm.vma⟩ c
  obtain ⟨vmas,hview,hkernel,hapart⟩ := apart_mmap h.apart
    { p with mm := { p.mm with vma := y.1.head } } hp c y
    ((NodeSpaces.mmap x.kernel ⟨x.nodes,p.mm.vma⟩ c).closes++x.closes) rfl hy
  have hgrow := grows_mmap x.kernel (vs i) c
  rw [← hkernel] at hgrow
  refine ⟨_,counted_once h _ _ (c.source.map Prod.fst) _ hapart hgrow rfl honce ?_
    (refers_vmas hp rfl ?_)⟩
  · exact fun fp he => ⟨⟨i,p,hp,Or.inl (hfile fp he).1⟩,(hfile fp he).2⟩
  · intro v hv fp hvf
    rcases mmap_files hview v hv with hnew | hold
    · exact Or.inl (hfile fp (by rw [← hnew, hvf])).1
    · exact Or.inr (Or.inr ⟨v,hold,hvf⟩)

theorem counted_munmap {size : Word} {closes : List Close} {x' : VmaList}
    (hfirst : ∀ v, munmapRegion x.kernel ⟨x.nodes,p.mm.vma⟩ addr size = some (some v) →
      p.mm.vma ≠ some v)
    (hr : doMunmap x.kernel ⟨x.nodes,p.mm.vma⟩ addr size = some (k,closes,x'))
    (hne : ∀ v fp, munmapRegion x.kernel ⟨x.nodes,p.mm.vma⟩ addr size = some (some v) →
      (x.nodes.data v).file = some fp → x.kernel.fRefcount fp ≠ 1) :
    ∃ vs', Counted ⟨k,x'.nodes,
      Function.update x.processes i (some { p with mm := { p.mm with vma := x'.head } }),
      closes++x.closes⟩ vs' := by
  obtain ⟨vmas,hapart,hends⟩ := apart_munmap h.apart
    { p with mm := { p.mm with vma := x'.head } } hp addr size k (closes++x.closes) closes x' rfl
    hfirst hr
  rcases hends with ⟨rfl,rfl,rfl⟩ | ⟨vmas₁,v,vmas₂,hsplit,hfind,rfl,rfl,rfl⟩
  · refine ⟨_,counted_once h _ _ none [] hapart (grows_same rfl rfl) rfl (Or.inl ⟨rfl,rfl⟩)
      (fun fp he => by cases he) (refers_vmas hp rfl ?_)⟩
    exact fun w hw fp hwf => Or.inr (Or.inr ⟨w,hw,hwf⟩)
  · have hv : v ∈ vs i := by simp [hsplit]
    refine ⟨_,counted_once h _ _ v.file _ hapart (grows_deallocateVma x.kernel v) rfl
      (Or.inr ⟨rfl,rfl⟩) ?_ (refers_vmas hp rfl ?_)⟩
    · intro fp hvf
      refine ⟨⟨i,p,hp,Or.inr (Or.inr ⟨v,hv,hvf⟩)⟩,hne v.node fp hfind ?_⟩
      rw [(h.apart.shown i p hp).records v hv]
      exact hvf
    · intro w hw fp hwf
      have hw' : w ∈ vs i := by
        rw [hsplit]
        simp only [List.mem_append, List.mem_cons] at hw ⊢
        tauto
      exact Or.inr (Or.inr ⟨w,hw',hwf⟩)

/-- The files of the VMAs are closed one by one; those of the descriptors are not,
since none of them has a count of zero. -/
theorem counted_exit {r : Kernel × List Close}
    (hr : exitProcess x.kernel x.nodes p = some r)
    (hleft : ∀ vmas fp, readVmas x.nodes (rounds x.kernel.machine) p.mm.vma = some vmas →
      0 < mappings vmas fp → mappings vmas fp < (x.kernel.fRefcount fp).toNat ∨
        (mappings vmas fp = (x.kernel.fRefcount fp).toNat ∧ ∀ j, j ≠ i → ¬ Uses x j fp)) :
    Counted { x with
      kernel := r.1, processes := Function.update x.processes i none, closes := r.2++x.closes }
      vs := by
  have hy := apart_exit h.apart i (r.2++x.closes) hr
  have hread := readVmas_shown (h.apart.shown i p hp)
    (laid_rounds (laid_start _ (vs i) (h.apart.shown i p hp) (h.apart.kept i p hp)))
  have hfd := exitFiles_counted (fun fp hfp => (h.live fp ⟨i,p,hp,Or.inl hfp⟩).2)
  rw [exitProcess] at hr
  dsimp only at hr hread
  rw [hread, hfd, Option.map_some] at hr
  dsimp only at hr
  rw [List.nil_append] at hr
  obtain rfl := Option.some.inj hr
  have hleft := fun fp => hleft (vs i) fp hread
  have hmachine := FrameCounts.exitVmmaps_machine ⟨vs i,p.mm.cr3,p.mm.file⟩ h.apart.frames
  have hothers : ∀ fp, Refers { x with
      kernel := FrameCounts.exitVmmaps x.kernel ⟨vs i,p.mm.cr3,p.mm.file⟩
      processes := Function.update x.processes i none
      closes := vmaCloses x.kernel (vs i)++x.closes } vs fp →
      Refers x vs fp ∧ ∃ j, j ≠ i ∧ Uses x j fp := by
    rintro fp ⟨j,q,hq,href⟩
    dsimp only at hq
    by_cases hj : j = i
    · subst hj
      rw [Function.update_self] at hq
      cases hq
    · rw [Function.update_of_ne hj] at hq
      exact ⟨⟨j,q,hq,href⟩,j,hj,(uses_iff h.apart j fp).mpr ⟨q,hq,href⟩⟩
  apply counted_step h hy (grows_same (by dsimp only; rw [hmachine])
    (by dsimp only; rw [hmachine])) (vmaCloses x.kernel (vs i)) rfl
    (fun fp hfp => Or.inl (hothers fp hfp).1)
  · intro fp hfp
    obtain ⟨hold,j,hj,huse⟩ := hothers fp hfp
    have hcount : (FrameCounts.exitVmmaps x.kernel ⟨vs i,p.mm.cr3,p.mm.file⟩).fRefcount fp =
        x.kernel.fRefcount fp-BitVec.ofNat 64 (mappings (vs i) fp) := by
      rw [FrameCounts.exitVmmaps]
      exact freeVmas_counts (vs i) x.kernel fp
    dsimp only
    rw [hcount]
    rcases Nat.eq_zero_or_pos (mappings (vs i) fp) with hzero | hpos
    · simpa [hzero] using (h.live fp hold).2
    · rcases hleft fp hpos with hlt | ⟨_,hnone⟩
      · intro he
        have hnat := sub_ofNat_toNat _ _ hlt.le
        rw [he] at hnat
        simp at hnat
        omega
      · exact absurd huse (hnone j hj)
  · intro c hc
    obtain ⟨j,hj,hcount⟩ := vmaCloses_counts x.kernel hc
    have hpos : 0 < mappings (vs i) c.file := by omega
    obtain ⟨v,hv,hvf⟩ := List.countP_pos_iff.mp hpos
    have hcase := hleft c.file hpos
    have hnat := sub_ofNat_toNat (x.kernel.fRefcount c.file) j (by omega)
    rw [← hcount] at hnat
    refine ⟨⟨i,p,hp,Or.inr (Or.inr ⟨v,hv,by simpa using hvf⟩)⟩,?_,?_⟩
    · intro he
      rw [he] at hnat
      simp at hnat
      omega
    · intro hone hr
      obtain ⟨_,l,hl,huse⟩ := hothers c.file hr
      rw [hone] at hnat
      simp at hnat
      rcases hcase with hlt | ⟨_,hnone⟩
      · omega
      · exact hnone l hl huse

end

theorem opened_kernel (x : System) (i : ℕ) (p : Process) : (opened x i p r).kernel = r.1 := by
  obtain ⟨k,_ | _⟩ := r <;> rfl

theorem step_counted {e : Event} (h : Counted x vs) (hstep : step files dentryCache x e = some y)
    (hall : KeepsFiles files x y e) : ∃ vs', Counted y vs' := by
  obtain ⟨hkeeps,hall⟩ := hall
  cases e with
  | openFile i pathname =>
    obtain ⟨p,hp,rfl⟩ := Option.map_eq_some_iff.mp hstep
    rw [opened_kernel] at hall
    exact ⟨vs,counted_opened h hp (grows_sysOpen dentryCache x.kernel p.fd pathname)
      (sysOpen_opened h.apart.frames hall)⟩
  | openTerminal i =>
    obtain ⟨p,hp,rfl⟩ := Option.map_eq_some_iff.mp hstep
    rw [opened_kernel] at hall
    exact ⟨vs,counted_opened h hp (grows_terminalOpen x.kernel p.fd)
      (terminalOpen_opened h.apart.frames hall)⟩
  | close i d =>
    obtain ⟨p,hp,hstep⟩ := Option.bind_eq_some_iff.mp hstep
    obtain ⟨slot,hslot,rfl⟩ := Option.map_eq_some_iff.mp hstep
    refine ⟨vs,counted_close h hp hslot ?_⟩
    intro fp he
    exact hall p fp hp (by rw [fileAt, hslot, he, Option.join_some])
  | exec i args =>
    obtain ⟨p,hp,hstep⟩ := Option.bind_eq_some_iff.mp hstep
    obtain ⟨e,he,rfl⟩ := Option.map_eq_some_iff.mp hstep
    exact counted_exec h hp he hkeeps.1 hkeeps.2 (fun file phdrs => hall p file phdrs hp)
  | fork i child =>
    obtain ⟨p,hp,hstep⟩ := Option.bind_eq_some_iff.mp hstep
    split_ifs at hstep
    obtain ⟨r,hr,rfl⟩ := Option.map_eq_some_iff.mp hstep
    exact counted_fork h hp child hr hkeeps (fun fp => hall p fp hp)
  | mmap i source addr len prot off both =>
    obtain ⟨p,hp,hstep⟩ := Option.bind_eq_some_iff.mp hstep
    obtain ⟨c,hc,hstep⟩ := Option.bind_eq_some_iff.mp hstep
    obtain ⟨r,hr,rfl⟩ := Option.map_eq_some_iff.mp hstep
    apply counted_mmap h hp hr
    intro fp hfp
    rcases source with _ | ⟨d,size⟩
    · obtain rfl := Option.some.inj hc
      cases hfp
    · obtain ⟨q,hq,rfl⟩ := Option.map_eq_some_iff.mp hc
      obtain rfl := Option.some.inj hfp
      obtain ⟨slot,hslot,rfl⟩ : ∃ slot, p.fd[d]? = some slot ∧ slot = some q := by
        simpa [fileAt, Option.join_eq_some_iff] using hq
      exact ⟨List.mem_of_getElem? hslot,hall p d size q hp rfl hq⟩
  | munmap i addr size =>
    obtain ⟨p,hp,hstep⟩ := Option.bind_eq_some_iff.mp hstep
    obtain ⟨⟨k,closes,x'⟩,hr,rfl⟩ := Option.map_eq_some_iff.mp hstep
    exact counted_munmap h hp (hkeeps p hp) hr (fun v fp => hall p v fp hp)
  | exit i =>
    obtain ⟨p,hp,hstep⟩ := Option.bind_eq_some_iff.mp hstep
    obtain ⟨r,hr,rfl⟩ := Option.map_eq_some_iff.mp hstep
    exact ⟨vs,counted_exit h hp hr (fun vmas fp => hall p vmas fp hp)⟩

theorem booted_counted (h : Booted x) : Counted x (fun _ => []) := by
  constructor
  case apart => exact booted_apart h
  case live =>
    rintro fp ⟨i,p,hp,href⟩
    obtain ⟨hfd,_,hfile⟩ := h.threads i p hp
    rcases href with hslot | hmm | ⟨v,hv,_⟩
    · rw [hfd] at hslot
      exact absurd (List.eq_of_mem_replicate hslot) (by simp)
    · rw [hfile] at hmm
      cases hmm
    · exact absurd hv List.not_mem_nil
  case past =>
    intro c hc
    rw [h.closes] at hc
    exact absurd hc List.not_mem_nil

/-- No file in use is closed as long as the events keep to `KeepsFiles`. -/
theorem closed_files_unused (files : KernelPtr → FileData) (dentryCache : List (List Byte))
    (x : System) (hboot : Booted x) (y : System)
    (hrun : Reaches files dentryCache (KeepsFiles files) x y) : Sound y := by
  have hcounted : ∃ vs, Counted y vs := by
    induction hrun with
    | refl => exact ⟨_,booted_counted hboot⟩
    | step y z e _ hstep hall ih =>
      obtain ⟨vs,h⟩ := ih
      exact step_counted h hstep hall
  obtain ⟨vs,h⟩ := hcounted
  exact counted_sound h

/-- The first thread execs and forks, and then closes its executable, which its
child still counts. -/
theorem closed_files_unused_fork : ∃ x₁ x₂ x₃,
    step (fun _ => Supply.tinyElf) [] twoThreads (.exec 0 Supply.plainArgs) = some x₁ ∧
    step (fun _ => Supply.tinyElf) [] x₁ (.fork 0 2) = some x₂ ∧
    step (fun _ => Supply.tinyElf) [] x₂ (.close 0 0) = some x₃ ∧ x₃.closes ≠ [] ∧ Sound x₃ := by
  obtain ⟨e,r,he,hok,hr,hok',hexec,hfork⟩ := exec_then_fork
  have hsegments : ∀ file phdrs, (beforeRoot Supply.firstKernel Supply.plainArgs).2 = some file →
      (readHeaders (afterRoot Supply.firstKernel Supply.plainArgs).machine Supply.tinyElf).2 =
        .read phdrs → SegmentsApart phdrs := by
    intro file phdrs _ hread
    have hs := Supply.root_supplied Supply.first_coherent (Supply.first_tables _)
      Supply.first_supplied
    rw [afterRoot] at hread
    dsimp only at hread
    rw [oneSegment_headers Supply.tiny_oneSegment ⟨hs.1,rfl,by have := hs.2.2; omega⟩] at hread
    obtain rfl := Headers.read.inj hread
    exact List.pairwise_singleton _ _
  -- the exec counts its file once and the fork once more
  obtain ⟨img,himg,hd⟩ := exec_shown Supply.first_supplied.1 he hok
  obtain ⟨file,hfile,hnew,_,_⟩ := exec_counts Supply.first_supplied.1 he himg hd hok hsegments
  obtain ⟨file',hfile',_,hcounts,_⟩ := fork_counts hr
  obtain rfl : file = file' := Option.some.inj (hfile.symm.trans hfile')
  have htwo : r.1.fRefcount file = 2 := by
    rw [hcounts]
    dsimp only
    rw [if_pos rfl, hnew.one]
    rfl
  have hslot : (execFds firstThread.fd e.mm.file)[0]? = some (some file) := by
    rw [hfile]
    rfl
  have hclose : step (fun _ => Supply.tinyElf) []
      (forkSystem (execSystem twoThreads 0 firstThread e) 2 r) (.close 0 0) =
      some { forkSystem (execSystem twoThreads 0 firstThread e) 2 r with
        kernel := closeFile r.1 (some file)
        closes := closeOf r.1 (some file)++(e.closes++twoThreads.closes) } := by
    have hp : (forkSystem (execSystem twoThreads 0 firstThread e) 2 r).processes 0 =
        some ⟨execFds firstThread.fd e.mm.file,e.mm⟩ := rfl
    rw [step, hp, Option.bind_some, hslot]
    rfl
  refine ⟨_,_,_,hexec,hfork,hclose,by simp [closeOf],?_⟩
  apply closed_files_unused (fun _ => Supply.tinyElf) [] twoThreads twoThreads_booted
  apply Reaches.step _ _ (.close 0 0) _ hclose
  · refine ⟨trivial,?_⟩
    intro p fp hp hfp
    obtain rfl : ⟨execFds firstThread.fd e.mm.file,e.mm⟩ = p := Option.some.inj hp
    rw [fileAt, hslot] at hfp
    obtain rfl : file = fp := Option.some.inj hfp
    show r.1.fRefcount file ≠ 1
    rw [htwo]
    decide
  · apply Reaches.step _ _ (.fork 0 2) _ hfork
    · refine ⟨hok',?_⟩
      intro p fp hp hfp
      obtain rfl : ⟨execFds firstThread.fd e.mm.file,e.mm⟩ = p := Option.some.inj hp
      obtain rfl : file = fp := Option.some.inj (hfile.symm.trans hfp)
      show e.kernel.fRefcount file ≠ -1
      rw [hnew.one]
      decide
    · apply Reaches.step _ _ (.exec 0 Supply.plainArgs) .refl hexec
      refine ⟨⟨hok,twoThreads_empty (kernelPtr 0)⟩,?_⟩
      intro p file phdrs hp
      obtain rfl : firstThread = p := Option.some.inj hp
      exact hsegments file phdrs

/-- A terminal that is opened and closed stays in its slot. -/
theorem close_leaves_slot : Booted twoThreads ∧ ∃ x₁ x₂,
    step (fun _ => Supply.tinyElf) [] twoThreads (.openTerminal 0) = some x₁ ∧
    step (fun _ => Supply.tinyElf) [] x₁ (.close 0 0) = some x₂ ∧ ¬ Sound x₂ := by
  have havail : availableFd firstThread.fd = some 0 := rfl
  have hopen : terminalOpen Supply.firstKernel firstThread.fd =
      (⟨(object (zeroedObject Supply.firstKernel.machine).1).1,
        fun p => if p = (zeroedObject Supply.firstKernel.machine).2 then 1
          else Supply.firstKernel.fRefcount p⟩,
        some (0,(zeroedObject Supply.firstKernel.machine).2)) := by
    rw [terminalOpen, havail]
  generalize (object (zeroedObject Supply.firstKernel.machine).1).1 = s at hopen
  generalize (zeroedObject Supply.firstKernel.machine).2 = fp at hopen
  have hfirst : step (fun _ => Supply.tinyElf) [] twoThreads (.openTerminal 0) =
      some (opened twoThreads 0 firstThread (terminalOpen Supply.firstKernel firstThread.fd)) := rfl
  rw [hopen] at hfirst
  refine ⟨twoThreads_booted,_,_,hfirst,rfl,?_⟩
  intro hsound
  apply hsound.dropped ⟨fp,1⟩ (by simp [opened, closeOf]) rfl 0
  have hslot : some fp ∈ firstThread.fd.set 0 (some fp) :=
    List.mem_set (h := by rw [firstThread, List.length_replicate]; decide) _
  exact ⟨_,rfl,Or.inl hslot⟩

end PreemptiveOS.FileCounts
