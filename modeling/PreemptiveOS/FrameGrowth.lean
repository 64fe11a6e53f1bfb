import PreemptiveOS.ExecLeaves

/-!
# Frames in use stay in use

Nothing the kernel does to the page array makes a used frame unused: objects
are handed back by their aliases, which no record has. So a node in a frame
that was unused when a piece of work began is none of the nodes there were
before, and this holds without any assumption on what the work writes to
memory. The node at `KERNBASE` itself is in no frame.
-/

set_option autoImplicit false

namespace PreemptiveOS.FrameGrowth
open ByteMemory PhysMmgr VirtMmgr PageRecords PageTree FreshFrames Vmas KernelObjects PageFaults
open Exec ExecLeaves Fork

structure Grows (s s' : Machine) : Prop where
  shortages : s.shortages ≤ s'.shortages
  addresses : FramesOk s.pages → addresses s'.pages = addresses s.pages
  unused : FramesOk s.pages → ∀ f, Unused s'.pages f → Unused s.pages f

section
variable {s s₁ s₂ : Machine}

theorem grows_frames (h : Grows s s₁) (hf : FramesOk s.pages) : FramesOk s₁.pages :=
  framesOk_congr (h.addresses hf) hf

theorem grows_same (hp : s₁.pages = s.pages) (hsh : s₁.shortages = s.shortages) : Grows s s₁ := by
  constructor
  case shortages => exact hsh.ge
  case addresses => exact fun _ => by rw [hp]
  case unused =>
    intro _ f hu
    rwa [hp] at hu

theorem grows_trans (h : Grows s s₁) (h' : Grows s₁ s₂) : Grows s s₂ := by
  constructor
  case shortages => exact h.shortages.trans h'.shortages
  case addresses =>
    intro hf
    rw [h'.addresses (grows_frames h hf), h.addresses hf]
  case unused => exact fun hf f hu => h.unused hf f (h'.unused (grows_frames h hf) f hu)

theorem grows_keeps (h : Keeps s s₁) (hsh : s.shortages ≤ s₁.shortages) : Grows s s₁ := by
  constructor
  case shortages => exact hsh
  case addresses => exact fun hf => (h hf).addresses
  case unused => exact fun hf f hu => later_unused _ _ hf (h hf) f hu

theorem grows_work (h : Work 1 s s₁) : Grows s s₁ := grows_keeps h.later h.shortages

theorem grows_supply (h : Grows s s₁) (h' : Grows s₁ s₂) (hok : s₂.shortages = s.shortages) :
    s₁.shortages = s.shortages ∧ s₂.shortages = s₁.shortages := by
  have hle := h.shortages
  have hle' := h'.shortages
  omega

end

theorem grows_object (s : Machine) : Grows s (object s).1 := grows_work (work_object s)

theorem grows_zeroedObject (s : Machine) : Grows s (zeroedObject s).1 :=
  grows_work (work_zeroedObject s)

theorem grows_clear {s : Machine} {p : KernelPtr} : Grows s (zeroed s p) := grows_same rfl rfl

theorem object_supplied {s₀ s s' : Machine} (hg : Grows s₀ s) (hg' : Grows (object s).1 s')
    (hok : s'.shortages = s₀.shortages) : (alloc s).2 ≠ 0 := by
  have hle := hg.shortages
  have hle' : (alloc s).1.shortages ≤ s'.shortages := hg'.shortages
  have ha := alloc_shortages s
  apply ha.2
  omega

theorem grows_deallocateVma (k : Kernel) (vma : Vma) :
    Grows k.machine (deallocateVma k vma).machine :=
  grows_trans (grows_work (work_closeFile k vma.file)) (grows_work (work_release _ _))

theorem grows_map (s : Machine) (v p : Word) (flags : BitVec 32) (cr3 : Word) :
    Grows s (mapVirtualAddressToPhysicalAddress clearTable s v p flags cr3 false) :=
  grows_keeps (keeps_map clearTable s v p flags cr3 false) (map_shortages _ _ _ _ _ _ _)

theorem grows_copyPageTables (s : Machine) : Grows s (copyPageTables s s.pml4 4).1 :=
  grows_keeps (keeps_copyPageTables s s.pml4) (copyPageTables_shortages s s.pml4)

theorem grows_loadHeader (s : Machine) (file : FileData) (size offset : Word) :
    Grows s (loadHeader s file size offset).1 := by
  have hread : ∀ m, Grows s { (object s).1 with mem := m } := fun m =>
    grows_trans (grows_object s) (grows_same rfl rfl)
  rw [loadHeader]
  dsimp only
  split_ifs
  · exact grows_trans (hread _) (grows_work (work_release _ _))
  · exact hread _

theorem grows_beforeRoot (k : Kernel) (args : ExecArgs) :
    Grows k.machine (beforeRoot k args).1.machine := by
  have hopen : Grows k.machine (object (doOpenExec { k with machine := (object k.machine).1 }
      args.relative args.found).1.machine).1 :=
    grows_trans (grows_object _) (grows_trans
      (grows_work (work_doOpenExec { k with machine := (object k.machine).1 } _ _)) (grows_object _))
  have hclear := fun s => clearCommand_rest s args.command
  exact grows_trans hopen (grows_trans (grows_same (hclear _).1 (hclear _).2)
    (grows_zeroedObject _))

theorem grows_stackFrames (s : Machine) (argv envp : List (List Byte)) :
    Grows s (stackFrames s argv envp) :=
  grows_trans (grows_object s) (grows_trans (grows_zeroedObject _)
    (grows_trans (grows_zeroedObject _) (grows_same rfl rfl)))

theorem grows_stack (s : Machine) (cr3 : Word) (vmas : List Vma) {argv envp : List (List Byte)} :
    Grows s (doStackVma s cr3 vmas argv envp).1 := by
  have hframes := grows_stackFrames s argv envp
  rw [doStackVma]
  generalize stackFrames s argv envp = s₁ at *
  exact grows_trans hframes (grows_trans (grows_map s₁ _ _ _ _)
    (grows_trans (grows_map _ _ _ _ _) (grows_work (work_addNode _ vmas stackVma))))

theorem grows_increment (a : Word) (s : Machine) :
    Grows s { s with pages := incrementReferenceCountOfPage a s.pages } := by
  constructor
  case shortages => exact le_rfl
  case addresses => exact fun _ => addresses_increment a s.pages
  case unused =>
    rintro _ f ⟨q,hq,rfl,hfree⟩
    obtain ⟨p,hp,rfl⟩ := List.mem_map.mp hq
    refine ⟨p,hp,?_,?_⟩
    · split_ifs <;> rfl
    · split_ifs at hfree <;> exact hfree

theorem grows_shares (r c : Word) (is : List Word) (s : Machine) :
    Grows s (is.foldl (sharePage r c) s) := by
  induction is generalizing s with
  | nil => exact grows_same rfl rfl
  | cons i is ih =>
    have hshare : Grows s (sharePage r c s i) := by
      simp only [sharePage]
      split_ifs
      · exact grows_same rfl rfl
      · exact grows_trans (grows_map s _ _ _ _) (grows_increment _ _)
    exact grows_trans hshare (ih _)

theorem grows_copyVm (s : Machine) (vmas : List Vma) (r : Word) :
    Grows s (copyVm s vmas r).1 := by
  have hroot := grows_copyPageTables s
  rw [copyVm]
  generalize copyPageTables s s.pml4 4 = c at *
  exact grows_trans hroot (grows_trans (grows_same (protect_pages r _ _) (protect_shortages r _))
    (grows_shares r c.2 _ _))

def FreshNode (s : Machine) (q : KernelPtr) : Prop := ∃ f, Unused s.pages f ∧ q = kernelPtr f

def HeldNode (s : Machine) (q : KernelPtr) : Prop :=
  ∃ f ∈ addresses s.pages, ¬ Unused s.pages f ∧ q = kernelPtr f

def KeptNode (s : Machine) (q : KernelPtr) : Prop := HeldNode s q ∨ q = kernelPtr 0

theorem kernelPtr_inj {f g : Word} (hf : f.toNat < 2^31) (hg : g.toNat < 2^31)
    (h : kernelPtr f = kernelPtr g) : f = g := by
  have hval : f ||| kernbase = g ||| kernbase := congrArg Subtype.val h
  rw [← alias_strip hf, hval, alias_strip hg]

section
variable {s s' : Machine} {q : KernelPtr}

theorem fresh_before (h : Grows s s') (hf : FramesOk s.pages) (hq : FreshNode s' q) :
    FreshNode s q := by
  obtain ⟨f,hu,rfl⟩ := hq
  exact ⟨f,h.unused hf f hu,rfl⟩

theorem held_after (h : Grows s s') (hf : FramesOk s.pages) (hq : HeldNode s q) :
    HeldNode s' q := by
  obtain ⟨f,hmem,hu,rfl⟩ := hq
  refine ⟨f,?_,fun hu' => hu (h.unused hf f hu'),rfl⟩
  rwa [h.addresses hf]

theorem kept_after (h : Grows s s') (hf : FramesOk s.pages) (hq : KeptNode s q) :
    KeptNode s' q := hq.imp_left (held_after h hf)

theorem held_not_fresh (hf : FramesOk s.pages) (hq : HeldNode s q) : ¬ FreshNode s q := by
  obtain ⟨f,hmem,hused,rfl⟩ := hq
  rintro ⟨g,hu,he⟩
  have hg := hf.window g (unused_address hu)
  rw [kernelPtr_inj (hf.window f hmem).2 hg.2 he] at hused
  exact hused hu

theorem base_not_address (hf : FramesOk s.pages) {f : Word} (hmem : f ∈ addresses s.pages) :
    kernelPtr f ≠ kernelPtr 0 := by
  intro he
  have hw := hf.window f hmem
  rw [kernelPtr_inj hw.2 (by decide) he] at hw
  exact absurd hw.1 (by decide)

theorem fresh_not_base (hf : FramesOk s.pages) (hq : FreshNode s q) : q ≠ kernelPtr 0 := by
  obtain ⟨f,hu,rfl⟩ := hq
  exact base_not_address hf (unused_address hu)

theorem kept_not_fresh (hf : FramesOk s.pages) (hq : KeptNode s q) : ¬ FreshNode s q := by
  rcases hq with hq | hq
  · exact held_not_fresh hf hq
  · exact fun hfresh => fresh_not_base hf hfresh hq

theorem object_fresh (ha : (alloc s).2 ≠ 0) : FreshNode s (object s).2 :=
  ⟨(alloc s).2,alloc_unused s.pages ha,rfl⟩

theorem object_held (hf : FramesOk s.pages) (ha : (alloc s).2 ≠ 0) :
    HeldNode (object s).1 (object s).2 := by
  refine ⟨(alloc s).2,?_,alloc_taken hf ha,rfl⟩
  rw [(grows_object s).addresses hf]
  exact unused_address (alloc_unused s.pages ha)

theorem kept_length {l : List KernelPtr} (hd : l.Nodup) (hl : ∀ q ∈ l, KeptNode s q) :
    l.length ≤ s.pages.length+1 := by
  have hsub : l ⊆ kernelPtr 0::(addresses s.pages).map kernelPtr := by
    intro q hq
    rcases hl q hq with ⟨f,hmem,_,rfl⟩ | rfl
    · exact List.mem_cons_of_mem _ (List.mem_map_of_mem hmem)
    · exact List.mem_cons_self
  have hle := (List.subperm_of_subset hd hsub).length_le
  simpa [addresses] using hle

end

end PreemptiveOS.FrameGrowth
