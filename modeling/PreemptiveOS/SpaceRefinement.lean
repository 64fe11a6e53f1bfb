import PreemptiveOS.NodeSpaces

/-!
# What shows of an address space in memory

A list of VMAs shows in memory as linked nodes with the records of the list.
Each function on nodes does to what shows there what the function on lists of
records does. It takes nodes of unused frames only, and of the others it writes
those of the list it works on.
-/

set_option autoImplicit false

namespace PreemptiveOS.SpaceRefinement
open ByteMemory PhysMmgr VirtMmgr PageTree Vmas KernelObjects PageFaults Exec LinkedQueues
open DoubleLinks VmaNodes FrameGrowth ExecLeaves VmaRanges NodeSpaces

structure Shown (x : VmaList) (vmas : List Vma) : Prop where
  linked : Linked x (vmas.map Vma.node)
  records : ∀ v ∈ vmas, x.nodes.data v.node = v

structure Frame (touched : KernelPtr → Prop) (n n' : Nodes) : Prop where
  data : ∀ q, ¬ touched q → n'.data q = n.data q
  next : ∀ q, ¬ touched q → n'.next q = n.next q
  prev : ∀ q, ¬ touched q → n'.prev q = n.prev q

variable {p : KernelPtr} {T : KernelPtr → Prop} {vmas : List Vma} {n : Nodes}
  {head : Option KernelPtr}

section
variable {T T' : KernelPtr → Prop} {n n₁ n₂ : Nodes}

theorem frame_refl : Frame T n n :=
  ⟨fun _ _ => rfl,fun _ _ => rfl,fun _ _ => rfl⟩

theorem frame_trans (h : Frame T n n₁) (h' : Frame T n₁ n₂) : Frame T n n₂ := by
  constructor
  case data => exact fun q hq => (h'.data q hq).trans (h.data q hq)
  case next => exact fun q hq => (h'.next q hq).trans (h.next q hq)
  case prev => exact fun q hq => (h'.prev q hq).trans (h.prev q hq)

theorem frame_mono (hT : ∀ q, T q → T' q) (h : Frame T n n₁) : Frame T' n n₁ := by
  constructor
  case data => exact fun q hq => h.data q (mt (hT q) hq)
  case next => exact fun q hq => h.next q (mt (hT q) hq)
  case prev => exact fun q hq => h.prev q (mt (hT q) hq)

theorem frame_write (vma : Vma) (hp : T p) : Frame T n (n.write p vma) := by
  constructor
  case data =>
    intro q hq
    have hne : q ≠ p := fun he => hq (he ▸ hp)
    rw [write_data, if_neg hne]
  case next => exact fun _ _ => rfl
  case prev => exact fun _ _ => rfl

theorem shown_frame (h : Frame T n n₁) (hout : ∀ v ∈ vmas, ¬ T v.node) (hs : Shown ⟨n,head⟩ vmas) :
    Shown ⟨n₁,head⟩ vmas := by
  have houtside : ∀ p ∈ vmas.map Vma.node, ¬ T p := by
    intro p hp
    obtain ⟨v,hv,rfl⟩ := List.mem_map.mp hp
    exact hout v hv
  constructor
  case linked =>
    exact doubly_congr (fun p hp => h.next p (houtside p hp))
      (fun p hp => h.prev p (houtside p hp)) hs.linked
  case records =>
    intro v hv
    exact (h.data _ (hout v hv)).trans (hs.records v hv)

end

variable {x : VmaList}

theorem shown_nodup (h : Shown x vmas) : (vmas.map Vma.node).Nodup := doubly_nodup h.linked

theorem shown_records (h : Shown x vmas) : (vmas.map Vma.node).map x.nodes.data = vmas := by
  rw [List.map_map]
  exact (List.map_congr_left h.records).trans (List.map_id vmas)

/-- A node goes behind the first part of a list, and only the ends of the two
parts are touched besides it. -/
theorem insert_shown (x : VmaList) (vmas₁ vmas₂ : List Vma) (vma : Vma)
    (h : Shown x (vmas₁++vmas₂)) (hnew : vma.node ∉ (vmas₁++vmas₂).map Vma.node)
    (hrecord : x.nodes.data vma.node = vma) :
    Shown (insertVma x vma.node (vmas₁.map Vma.node).getLast?) (vmas₁++vma::vmas₂) := by
  have hlinked := h.linked
  rw [List.map_append] at hlinked hnew
  constructor
  case linked =>
    rw [List.map_append, List.map_cons]
    exact insert_linked hlinked hnew
  case records =>
    intro v hv
    rw [insertVma_data]
    rw [List.mem_append, List.mem_cons] at hv
    rcases hv with hv | rfl | hv
    · exact h.records v (List.mem_append_left _ hv)
    · exact hrecord
    · exact h.records v (List.mem_append_right _ hv)

variable {v : KernelPtr}

theorem frame_insert {l₁ l₂ : List KernelPtr} (h : Linked x (l₁++l₂)) (hv : T v)
    (hl : ∀ p ∈ l₁++l₂, T p) : Frame T x.nodes (insertVma x v l₁.getLast?).nodes := by
  have hjoint := doubly_joint x.head l₁ l₂ h
  constructor
  case data => exact fun q _ => by rw [insertVma_data]
  case next =>
    intro q hq
    have hne : q ≠ v := fun he => hq (he ▸ hv)
    have hlast : ¬ l₁.getLast? = some q := fun he =>
      hq (hl q (List.mem_append_left _ (List.mem_of_getLast? he)))
    rw [insertVma_next, if_neg hne, if_neg hlast]
  case prev =>
    intro q hq
    have hne : q ≠ v := fun he => hq (he ▸ hv)
    have hhead : ¬ l₂.head? = some q := fun he =>
      hq (hl q (List.mem_append_right _ (List.mem_of_mem_head? he)))
    rw [insertVma_prev, hjoint, if_neg hhead, if_neg hne]

def Open (own : KernelPtr → Prop) (s₀ : Machine) (q : KernelPtr) : Prop :=
  own q ∨ FreshNode s₀ q

structure Laid (s₀ s : Machine) (own : KernelPtr → Prop) (n₀ : Nodes) (x : VmaList)
    (vmas : List Vma) : Prop where
  shown : Shown x vmas
  within : ∀ v ∈ vmas, Open own s₀ v.node
  kept : ∀ v ∈ vmas, KeptNode s v.node
  frame : Frame (Open own s₀) n₀ x.nodes

def Renders (s₀ s : Machine) (own : KernelPtr → Prop) (n₀ : Nodes) :
    Option (List Vma × Bool) → Option (VmaList × Bool) → Prop
  | none, r => r = none
  | some (vmas,ok), r => ∃ x, r = some (x,ok) ∧ Laid s₀ s own n₀ x vmas

def addView (vmas : List Vma) : AddVma → Option (List Vma × Bool)
  | .added vmas' => some (vmas',true)
  | .failed => some (vmas,false)
  | .wild => none

def regionView (vmas : List Vma) : Region → Option (List Vma × Bool)
  | .mapped vmas' _ => some (vmas',true)
  | .failed => some (vmas,false)
  | .wild => none

def stageView : Stage → Option (List Vma × Bool)
  | .ok vmas => some (vmas,true)
  | .failed vmas => some (vmas,false)
  | .wild => none

section
variable {s₀ s s' : Machine} {own own' : KernelPtr → Prop} {n₀ : Nodes} {x : VmaList}
  {vmas : List Vma}

theorem laid_start (x : VmaList) (vmas : List Vma) (h : Shown x vmas)
    (hk : ∀ v ∈ vmas, KeptNode s v.node) :
    Laid s s (fun q => q ∈ vmas.map Vma.node) x.nodes x vmas := by
  constructor
  case shown => exact h
  case within => exact fun v hv => Or.inl (List.mem_map_of_mem hv)
  case kept => exact hk
  case frame => exact frame_refl

theorem laid_empty (s₀ s : Machine) (own : KernelPtr → Prop) (n : Nodes) :
    Laid s₀ s own n ⟨n,none⟩ [] := by
  constructor
  case shown => exact ⟨⟨none,rfl,rfl⟩,fun v hv => absurd hv List.not_mem_nil⟩
  case within => exact fun v hv => absurd hv List.not_mem_nil
  case kept => exact fun v hv => absurd hv List.not_mem_nil
  case frame => exact frame_refl

theorem laid_grows (hf : FramesOk s.pages) (hg : Grows s s') (h : Laid s₀ s own n₀ x vmas) :
    Laid s₀ s' own n₀ x vmas :=
  ⟨h.shown,h.within,fun v hv => kept_after hg hf (h.kept v hv),h.frame⟩

theorem laid_own (hown : ∀ q, own q → own' q) (h : Laid s₀ s own n₀ x vmas) :
    Laid s₀ s own' n₀ x vmas :=
  ⟨h.shown,fun v hv => (h.within v hv).imp_left (hown _),h.kept,
    frame_mono (fun q => Or.imp_left (hown q)) h.frame⟩

theorem laid_rounds (h : Laid s₀ s own n₀ x vmas) : vmas.length ≤ rounds s := by
  have hle := kept_length (shown_nodup h.shown) (by
    intro q hq
    obtain ⟨v,hv,rfl⟩ := List.mem_map.mp hq
    exact h.kept v hv)
  rwa [List.length_map] at hle

theorem laid_write (vma : Vma) (hnew : p ∉ vmas.map Vma.node) (hp : Open own s₀ p)
    (h : Laid s₀ s own n₀ x vmas) : Laid s₀ s own n₀ ⟨x.nodes.write p vma,x.head⟩ vmas := by
  have hout : ∀ v ∈ vmas, ¬ v.node = p := fun v hv he => hnew (he ▸ List.mem_map_of_mem hv)
  have hwrite : Frame (fun q => q = p) x.nodes (x.nodes.write p vma) := frame_write vma rfl
  constructor
  case shown => exact shown_frame hwrite hout h.shown
  case within => exact h.within
  case kept => exact h.kept
  case frame => exact frame_trans h.frame (frame_write vma hp)

theorem renders_some {o : Option (List Vma × Bool)} {ok : Bool}
    (h : Renders s₀ s own n₀ o (some (x,ok))) :
    ∃ vmas, o = some (vmas,ok) ∧ Laid s₀ s own n₀ x vmas := by
  rcases o with _ | ⟨vmas,ok'⟩
  · cases h
  · obtain ⟨x',hx,hlaid⟩ := h
    obtain ⟨rfl,rfl⟩ : x = x' ∧ ok = ok' := by simpa using hx
    exact ⟨vmas,rfl,hlaid⟩

/-- The search, the insertion and the refusal on nodes are those on records. -/
theorem addNew_renders (h : Laid s₀ s own n₀ x vmas) (vma : Vma)
    (hnew : vma.node ∉ vmas.map Vma.node) (hopen : Open own s₀ vma.node)
    (hkept : KeptNode s vma.node) :
    Renders s₀ s own n₀ (addView vmas (Vmas.addVma vmas vma)) (addNew s x vma) := by
  have hle := laid_rounds h
  have h₁ := laid_write vma hnew hopen h
  rw [addNew]
  have hrecord : (x.nodes.write vma.node vma).data vma.node = vma := by simp
  generalize x.nodes.write vma.node vma = n at *
  have hfind := findVmaPrev_records vma h₁.shown.linked (by simpa using hle)
  rw [shown_records h₁.shown] at hfind
  rw [VmaNodes.addVma]
  dsimp only
  rw [hrecord, hfind]
  rcases addVma_split vmas vma with ⟨hprev,hadd⟩ | ⟨hprev,hadd⟩ | ⟨vmas₁,vmas₂,rfl,hadd,hprev⟩
  · rw [hprev, hadd]
    exact ⟨_,rfl,h₁⟩
  · rw [hprev, hadd]
    rfl
  · have hplace := placed_last (vmas₁.map Vma.node) (vmas₂.map Vma.node)
    simp only [List.map_eq_nil_iff, List.length_map] at hplace
    rw [hprev, hadd, List.map_append, hplace]
    refine ⟨_,rfl,?_⟩
    have hlinked := h₁.shown.linked
    rw [List.map_append] at hlinked
    have hmem : ∀ v ∈ vmas₁++vma::vmas₂, v = vma ∨ v ∈ vmas₁++vmas₂ := by
      intro v hv
      simp only [List.mem_append, List.mem_cons] at hv ⊢
      tauto
    constructor
    case shown => exact insert_shown ⟨n,x.head⟩ vmas₁ vmas₂ vma h₁.shown hnew hrecord
    case within =>
      intro v hv
      rcases hmem v hv with rfl | hv
      · exact hopen
      · exact h.within v hv
    case kept =>
      intro v hv
      rcases hmem v hv with rfl | hv
      · exact hkept
      · exact h.kept v hv
    case frame =>
      apply frame_trans h₁.frame
      apply frame_insert hlinked hopen
      intro p hp
      rw [← List.map_append] at hp
      obtain ⟨v,hv,rfl⟩ := List.mem_map.mp hp
      exact h.within v hv

end

variable {k : Kernel} {s : Machine} {addr : Word} {vma : Vma}

section
variable {s₀ : Machine} {own : KernelPtr → Prop} {n₀ : Nodes} (hf : FramesOk s₀.pages)
include hf

theorem object_laid (hg : Grows s₀ s) (ha : (alloc s).2 ≠ 0) (h : Laid s₀ s own n₀ x vmas) :
    Laid s₀ (object s).1 own n₀ x vmas ∧ (object s).2 ∉ vmas.map Vma.node ∧
      FreshNode s₀ (object s).2 ∧ HeldNode (object s).1 (object s).2 := by
  have hfs := grows_frames hg hf
  have hfresh := object_fresh ha
  refine ⟨laid_grows hfs (grows_object s) h,?_,fresh_before hg hf hfresh,object_held hfs ha⟩
  intro hm
  obtain ⟨v,hv,he⟩ := List.mem_map.mp hm
  exact kept_not_fresh hfs (h.kept v hv) (he ▸ hfresh)

theorem mmapRegion_renders {file : Option KernelPtr} {filesz memsz off prot : Word}
    (hg : Grows s₀ k.machine) (h : Laid s₀ k.machine own n₀ x vmas) :
    (NodeSpaces.mmapRegion k x file addr filesz memsz off prot).kernel =
      (KernelObjects.mmapRegion k vmas file addr filesz memsz off prot).1 ∧
    Renders s₀ (KernelObjects.mmapRegion k vmas file addr filesz memsz off prot).1.machine own n₀
      (regionView vmas (KernelObjects.mmapRegion k vmas file addr filesz memsz off prot).2)
      (NodeSpaces.mmapRegion k x file addr filesz memsz off prot).space := by
  have hfs := grows_frames hg hf
  unfold NodeSpaces.mmapRegion KernelObjects.mmapRegion
  dsimp only
  split_ifs with hbase hnull hsize
  · exact ⟨rfl,x,rfl,h⟩
  · exact ⟨rfl,x,rfl,laid_grows hfs (grows_object k.machine) h⟩
  · obtain ⟨h₁,hnew,hfresh,_⟩ := object_laid hf hg hnull h
    exact ⟨rfl,_,rfl,laid_write _ hnew (Or.inr hfresh) h₁⟩
  · obtain ⟨h₁,hnew,hfresh,hheld⟩ := object_laid hf hg hnull h
    have hadd := addNew_renders h₁
      (regionVma (object k.machine).2 file addr filesz memsz off prot) hnew (Or.inr hfresh)
      (Or.inl hheld)
    generalize regionVma (object k.machine).2 file addr filesz memsz off prot = vma at *
    generalize Vmas.addVma vmas vma = out at hadd ⊢
    cases out with
    | added vmas' =>
      obtain ⟨x',hx,hlaid⟩ := hadd
      rw [hx]
      exact ⟨rfl,x',rfl,hlaid⟩
    | wild =>
      rw [show addNew (object k.machine).1 x vma = none from hadd]
      exact ⟨rfl,rfl⟩
    | failed =>
      obtain ⟨x',hx,hlaid⟩ := hadd
      rw [hx]
      exact ⟨rfl,x',rfl,laid_grows (grows_frames (grows_object _) hfs)
        (grows_deallocateVma ⟨(object k.machine).1,k.fRefcount⟩ vma) hlaid⟩

theorem loadSegments_renders (file : KernelPtr) (phdrs : List Elf64Phdr) (k : Kernel) (x : VmaList)
    (vmas : List Vma) (hg : Grows s₀ k.machine) (h : Laid s₀ k.machine own n₀ x vmas) :
    (NodeSpaces.loadSegments file phdrs k x).kernel = (Exec.loadSegments file phdrs k vmas).1 ∧
    Renders s₀ (Exec.loadSegments file phdrs k vmas).1.machine own n₀
      (stageView (Exec.loadSegments file phdrs k vmas).2)
      (NodeSpaces.loadSegments file phdrs k x).space := by
  induction phdrs generalizing k x vmas with
  | nil => exact ⟨rfl,x,rfl,h⟩
  | cons phdr rest ih =>
    have hmap : (NodeSpaces.elfMap k x file phdr).kernel = (Exec.elfMap k vmas file phdr).1 ∧
        Renders s₀ (Exec.elfMap k vmas file phdr).1.machine own n₀
          (regionView vmas (Exec.elfMap k vmas file phdr).2)
          (NodeSpaces.elfMap k x file phdr).space :=
      mmapRegion_renders hf hg h
    have hgrow : Grows k.machine (Exec.elfMap k vmas file phdr).1.machine :=
      grows_work (work_mmapRegion k vmas _ _ _ _ _)
    rw [NodeSpaces.loadSegments, Exec.loadSegments]
    by_cases hload : phdr.pType = 1
    · rw [if_pos hload, if_pos hload]
      dsimp only
      generalize Exec.elfMap k vmas file phdr = region at *
      generalize NodeSpaces.elfMap k x file phdr = r at *
      obtain ⟨k',region⟩ := region
      obtain ⟨k'',closes,space⟩ := r
      obtain ⟨rfl,hspace⟩ := hmap
      cases region with
      | failed =>
        obtain ⟨x',rfl,hx⟩ := hspace
        exact ⟨rfl,x',rfl,hx⟩
      | wild =>
        obtain rfl : space = none := hspace
        exact ⟨rfl,rfl⟩
      | mapped vmas' vma =>
        obtain ⟨x',rfl,hx⟩ := hspace
        dsimp only
        by_cases hint : (phdr.pVaddr.setWidth 32).msb = true
        · rw [if_pos hint, if_pos hint]
          exact ⟨rfl,x',rfl,hx⟩
        · rw [if_neg hint, if_neg hint]
          exact ih k'' x' vmas' (grows_trans hg hgrow) hx
    · rw [if_neg hload, if_neg hload]
      exact ih k x vmas hg h

omit hf in
theorem grows_readHeaders (s : Machine) (file : FileData) : Grows s (readHeaders s file).1 := by
  have hehdr : Grows s (loadElfEhdr s file).1 := grows_loadHeader s file 64 0
  have hphdr : ∀ ehdr, Grows s (loadElfPhdr (loadElfEhdr s file).1 ehdr file).1 :=
    fun ehdr => grows_trans hehdr (grows_loadHeader _ file _ _)
  unfold readHeaders
  dsimp only
  cases (loadElfEhdr s file).2 with
  | none => exact hehdr
  | some ehdr =>
    dsimp only
    by_cases hvalid : checkElfFileValidity (loadElfEhdr s file).1.mem ehdr = true
    · rw [if_pos hvalid]
      cases (loadElfPhdr (loadElfEhdr s file).1 ehdr file).2 <;> exact hphdr ehdr
    · rw [if_neg hvalid]
      exact hehdr

omit hf in
theorem loadElfBinary_headers (files : KernelPtr → FileData) (k : Kernel) (file : KernelPtr) :
    Exec.loadElfBinary files k file =
      match (readHeaders k.machine (files file)).2 with
      | .refused => ({ k with machine := (readHeaders k.machine (files file)).1 },.failed [])
      | .unread => ({ k with machine := (readHeaders k.machine (files file)).1 },.wild)
      | .read phdrs =>
        Exec.loadSegments file phdrs
          { k with machine := (readHeaders k.machine (files file)).1 } [] := by
  unfold Exec.loadElfBinary readHeaders
  dsimp only
  cases (loadElfEhdr k.machine (files file)).2 with
  | none => rfl
  | some ehdr =>
    dsimp only
    generalize (loadElfEhdr k.machine (files file)).1 = s₁
    by_cases hvalid : checkElfFileValidity s₁.mem ehdr = true
    · rw [if_pos hvalid, if_pos hvalid]
      cases (loadElfPhdr s₁ ehdr (files file)).2 with
      | none =>
        dsimp only
        split_ifs <;> rfl
      | some phdr => rfl
    · rw [if_neg hvalid, if_neg hvalid]

omit hf in
theorem grows_loadElfBinary (files : KernelPtr → FileData) (k : Kernel) (file : KernelPtr) :
    Grows k.machine (Exec.loadElfBinary files k file).1.machine := by
  have hread := grows_readHeaders k.machine (files file)
  rw [loadElfBinary_headers]
  generalize readHeaders k.machine (files file) = r at *
  obtain ⟨s,r⟩ := r
  cases r with
  | refused => exact hread
  | unread => exact hread
  | read phdrs =>
    exact grows_trans hread (grows_work (work_loadSegments file phdrs ⟨s,k.fRefcount⟩ []))

theorem loadElfBinary_renders (files : KernelPtr → FileData) (k : Kernel) (n : Nodes)
    (file : KernelPtr) (hg : Grows s₀ k.machine) :
    (NodeSpaces.loadElfBinary files k ⟨n,none⟩ file).kernel = (Exec.loadElfBinary files k file).1 ∧
    Renders s₀ (Exec.loadElfBinary files k file).1.machine own n
      (stageView (Exec.loadElfBinary files k file).2)
      (NodeSpaces.loadElfBinary files k ⟨n,none⟩ file).space := by
  have hread := grows_readHeaders k.machine (files file)
  rw [loadElfBinary_headers]
  unfold NodeSpaces.loadElfBinary
  generalize readHeaders k.machine (files file) = r at *
  obtain ⟨s,r⟩ := r
  cases r with
  | refused => exact ⟨rfl,_,rfl,laid_empty _ _ own n⟩
  | unread => exact ⟨rfl,rfl⟩
  | read phdrs =>
    exact loadSegments_renders hf file phdrs ⟨s,k.fRefcount⟩ ⟨n,none⟩ [] (grows_trans hg hread)
      (laid_empty _ _ own n)

theorem addNode_renders (hg : Grows s₀ s) (h : Laid s₀ s own n₀ x vmas)
    (hnew : vma.node ∉ vmas.map Vma.node) (hopen : Open own s₀ vma.node)
    (hkept : KeptNode s vma.node) :
    (NodeSpaces.addNode s x vma).1 = (Exec.addNode s vmas vma).1 ∧
    Renders s₀ (Exec.addNode s vmas vma).1 own n₀ (stageView (Exec.addNode s vmas vma).2)
      (NodeSpaces.addNode s x vma).2 := by
  have hadd := addNew_renders h vma hnew hopen hkept
  rw [NodeSpaces.addNode, Exec.addNode]
  generalize Vmas.addVma vmas vma = out at hadd ⊢
  cases out with
  | added vmas' =>
    obtain ⟨x',hx,hlaid⟩ := hadd
    rw [hx]
    exact ⟨rfl,x',rfl,hlaid⟩
  | wild =>
    rw [show addNew s x vma = none from hadd]
    exact ⟨rfl,rfl⟩
  | failed =>
    obtain ⟨x',hx,hlaid⟩ := hadd
    rw [hx]
    exact ⟨rfl,x',rfl,laid_grows (grows_frames hg hf) (grows_work (work_release s vma.node)) hlaid⟩

omit hf in
theorem last_shown (h : Shown x vmas) (hle : vmas.length ≤ rounds s) :
    x.head.bind (lastFrom x.nodes.next (rounds s)) = vmas.getLast?.map Vma.node := by
  have hc := doubly_chain x.head _ h.linked
  rcases List.eq_nil_or_concat vmas with rfl | ⟨pre,last,rfl⟩
  · rw [show x.head = none from hc]
    rfl
  · rw [List.concat_eq_append] at *
    rw [List.map_append, List.map_singleton] at hc
    have hhead := chain_head _ _ _ hc
    obtain ⟨first,hfirst⟩ : ∃ first, x.head = some first := by
      rw [hhead]
      cases pre <;> simp
    rw [hfirst] at hc ⊢
    rw [Option.bind_some, List.getLast?_concat, Option.map_some]
    apply lastFrom_chain _ _ hc
    rw [List.length_map]
    rw [List.length_append] at hle
    exact hle

theorem doHeapVma_renders (hg : Grows s₀ s) (ha : (alloc s).2 ≠ 0) (h : Laid s₀ s own n₀ x vmas) :
    (NodeSpaces.doHeapVma s x).1 = (Exec.doHeapVma s vmas).1 ∧
    Renders s₀ (Exec.doHeapVma s vmas).1 own n₀ (stageView (Exec.doHeapVma s vmas).2)
      (NodeSpaces.doHeapVma s x).2 := by
  rw [NodeSpaces.doHeapVma, Exec.doHeapVma, last_shown h.shown (laid_rounds h)]
  cases hlast : vmas.getLast? with
  | none => exact ⟨rfl,rfl⟩
  | some last =>
    obtain ⟨h₁,hnew,hfresh,hheld⟩ := object_laid hf hg ha h
    have hrecord := h.shown.records last (List.mem_of_getLast? hlast)
    rw [Option.map_some]
    dsimp only
    rw [hrecord]
    exact addNode_renders hf (grows_trans hg (grows_object s)) h₁ hnew (Or.inr hfresh)
      (Or.inl hheld)

/-- The stack's node is the one at `KERNBASE`, which the lists built so far do not have. -/
theorem doStackVma_renders (cr3 : Word) {argv envp : List (List Byte)} (hg : Grows s₀ s)
    (hown : own (kernelPtr 0)) (hout : kernelPtr 0 ∉ vmas.map Vma.node)
    (h : Laid s₀ s own n₀ x vmas) :
    (NodeSpaces.doStackVma s cr3 x argv envp).1 = (Exec.doStackVma s cr3 vmas argv envp).1 ∧
    Renders s₀ (Exec.doStackVma s cr3 vmas argv envp).1 own n₀
      (stageView (Exec.doStackVma s cr3 vmas argv envp).2)
      (NodeSpaces.doStackVma s cr3 x argv envp).2 := by
  have hframes : Grows s (stackFrames s argv envp) := grows_stackFrames s argv envp
  rw [NodeSpaces.doStackVma, Exec.doStackVma]
  generalize stackFrames s argv envp = s₁ at *
  have hmaps := grows_trans hframes (grows_trans
    (grows_map s₁ stackStart (physStrings s) userFlags cr3)
    (grows_map _ (stackStart-2*4096) (physPointer s) userFlags cr3))
  generalize mapVirtualAddressToPhysicalAddress clearTable (mapVirtualAddressToPhysicalAddress
    clearTable s₁ stackStart (physStrings s) userFlags cr3 false) (stackStart-2*4096)
    (physPointer s) userFlags cr3 false = s₂ at *
  exact addNode_renders hf (grows_trans hg hmaps)
    (laid_grows (grows_frames hg hf) hmaps h) hout (Or.inl hown) (Or.inr rfl)

end

def AtBase (q : KernelPtr) : Prop := q = kernelPtr 0

def NoNode (_ : KernelPtr) : Prop := False

section
variable {s₀ : Machine} {n₀ : Nodes} (hf : FramesOk s₀.pages)
include hf

theorem laid_not_base (h : Laid s₀ s NoNode n₀ x vmas) : kernelPtr 0 ∉ vmas.map Vma.node := by
  intro hm
  obtain ⟨v,hv,he⟩ := List.mem_map.mp hm
  rcases h.within v hv with hown | hfresh
  · exact hown
  · exact fresh_not_base hf hfresh he

theorem heapAndStack_renders (cr3 : Word) (args : ExecArgs) (hg : Grows s₀ s)
    (ha : (alloc s).2 ≠ 0) (h : Laid s₀ s NoNode n₀ x vmas) :
    (NodeSpaces.heapAndStack s cr3 x args).1 = (Exec.heapAndStack s cr3 vmas args).1 ∧
    Renders s₀ (Exec.heapAndStack s cr3 vmas args).1 AtBase n₀
      (stageView (Exec.heapAndStack s cr3 vmas args).2)
      (NodeSpaces.heapAndStack s cr3 x args).2 := by
  have hheap := doHeapVma_renders hf hg ha h
  have hgrow := grows_trans hg (grows_work (work_doHeapVma s vmas))
  rw [NodeSpaces.heapAndStack, Exec.heapAndStack]
  generalize NodeSpaces.doHeapVma s x = r at *
  generalize Exec.doHeapVma s vmas = stage at *
  obtain ⟨s₁,r⟩ := r
  obtain ⟨s₂,stage⟩ := stage
  obtain ⟨rfl,hr⟩ := hheap
  have hweak : ∀ q, NoNode q → AtBase q := fun q hq => absurd hq id
  cases stage with
  | ok vmas' =>
    obtain ⟨x',rfl,hx⟩ := hr
    exact doStackVma_renders hf cr3 hgrow rfl (laid_not_base hf hx) (laid_own hweak hx)
  | failed vmas' =>
    obtain ⟨x',rfl,hx⟩ := hr
    exact ⟨rfl,x',rfl,laid_own hweak hx⟩
  | wild =>
    obtain rfl : r = none := hr
    exact ⟨rfl,rfl⟩

end

def buildStage (files : KernelPtr → FileData) (k : Kernel) (cr3 : Word) (file : KernelPtr)
    (args : ExecArgs) : Kernel × Stage :=
  let loaded := Exec.loadElfBinary files k file
  match loaded.2 with
  | .ok vmas =>
    let rest := Exec.heapAndStack loaded.1.machine cr3 vmas args
    ({ loaded.1 with machine := rest.1 },rest.2)
  | stage => (loaded.1,stage)

theorem execve_stages (files : KernelPtr → FileData) (k : Kernel) (args : ExecArgs) :
    Exec.doExecve files k args =
      (beforeRoot k args).2.bind (fun file =>
        let root := copyPageTables (beforeRoot k args).1.machine (beforeRoot k args).1.machine.pml4 4
        image (buildStage files { (beforeRoot k args).1 with machine := root.1 } root.2 file args)
          root.2 file) := by
  rw [Exec.doExecve]
  dsimp only
  cases (beforeRoot k args).2 with
  | none => rfl
  | some file =>
    rw [Option.bind_some]
    unfold buildStage
    dsimp only
    generalize copyPageTables (beforeRoot k args).1.machine
      (beforeRoot k args).1.machine.pml4 4 = root
    cases (Exec.loadElfBinary files { (beforeRoot k args).1 with machine := root.1 } file).2 <;> rfl

def HeapSupplied (files : KernelPtr → FileData) (k : Kernel) (file : KernelPtr) : Prop :=
  ∀ vmas, (Exec.loadElfBinary files k file).2 = .ok vmas →
    (alloc (Exec.loadElfBinary files k file).1.machine).2 ≠ 0

variable {files : KernelPtr → FileData} {s₀ : Machine}

theorem buildSpace_renders (hf : FramesOk s₀.pages) (k : Kernel) (n : Nodes) (cr3 : Word)
    (file : KernelPtr) (args : ExecArgs) (hg : Grows s₀ k.machine)
    (hheap : HeapSupplied files k file) :
    (buildSpace files k ⟨n,none⟩ cr3 file args).kernel = (buildStage files k cr3 file args).1 ∧
    Renders s₀ (buildStage files k cr3 file args).1.machine AtBase n
      (stageView (buildStage files k cr3 file args).2)
      (buildSpace files k ⟨n,none⟩ cr3 file args).space := by
  have hload := @loadElfBinary_renders s₀ NoNode hf files k n file hg
  have hgrow := grows_trans hg (grows_loadElfBinary files k file)
  unfold HeapSupplied at hheap
  unfold buildSpace buildStage
  dsimp only
  generalize NodeSpaces.loadElfBinary files k ⟨n,none⟩ file = r at *
  generalize Exec.loadElfBinary files k file = stage at *
  obtain ⟨k',closes,space⟩ := r
  obtain ⟨k'',stage⟩ := stage
  obtain ⟨rfl,hr⟩ := hload
  cases stage with
  | ok vmas =>
    obtain ⟨x',rfl,hx⟩ := hr
    have hrest := heapAndStack_renders hf cr3 args hgrow (hheap vmas rfl) hx
    dsimp only
    rw [hrest.1]
    exact ⟨rfl,hrest.2⟩
  | failed vmas =>
    obtain ⟨x',rfl,hx⟩ := hr
    exact ⟨rfl,x',rfl,laid_own (fun q hq => absurd hq id) hx⟩
  | wild =>
    obtain rfl : space = none := hr
    exact ⟨rfl,rfl⟩

def afterRoot (k : Kernel) (args : ExecArgs) : Kernel :=
  { (beforeRoot k args).1 with
    machine := (copyPageTables (beforeRoot k args).1.machine
      (beforeRoot k args).1.machine.pml4 4).1 }

theorem grows_afterRoot (k : Kernel) (args : ExecArgs) :
    Grows k.machine (afterRoot k args).machine := by
  have hroot := grows_copyPageTables (beforeRoot k args).1.machine
  rw [afterRoot]
  generalize copyPageTables (beforeRoot k args).1.machine (beforeRoot k args).1.machine.pml4 4 =
    root at *
  exact grows_trans (grows_beforeRoot k args) hroot

structure Depicts (k : Kernel) (n : Nodes) (img : Image) (e : Execed) : Prop where
  kernel : e.kernel = img.kernel
  ok : e.ok = img.ok
  cr3 : e.mm.cr3 = img.mm.cr3
  file : e.mm.file = img.mm.file
  laid : Laid k.machine img.kernel.machine AtBase n ⟨e.nodes,e.mm.vma⟩ img.mm.vma

variable {args : ExecArgs}

theorem exec_agrees (n : Nodes) (hf : FramesOk k.machine.pages)
    (hheap : ∀ file, (beforeRoot k args).2 = some file →
      HeapSupplied files (afterRoot k args) file) :
    (Exec.doExecve files k args = none ∧ NodeSpaces.doExecve files k n args = none) ∨
    ∃ img e, Exec.doExecve files k args = some img ∧ NodeSpaces.doExecve files k n args = some e ∧
      Depicts k n img e := by
  have hgrow := grows_afterRoot k args
  rw [execve_stages, NodeSpaces.doExecve]
  unfold afterRoot at hheap hgrow
  dsimp only
  cases hfile : (beforeRoot k args).2 with
  | none => exact Or.inl ⟨rfl,rfl⟩
  | some file =>
    have hsup := hheap file hfile
    generalize copyPageTables (beforeRoot k args).1.machine
      (beforeRoot k args).1.machine.pml4 4 = root at *
    obtain ⟨hkernel,hspace⟩ := buildSpace_renders hf
      { (beforeRoot k args).1 with machine := root.1 } n root.2 file args hgrow hsup
    rw [Option.bind_some]
    dsimp only
    generalize buildSpace files { (beforeRoot k args).1 with machine := root.1 } ⟨n,none⟩ root.2
      file args = r at *
    generalize buildStage files { (beforeRoot k args).1 with machine := root.1 } root.2 file args =
      stage at *
    obtain ⟨k',closes,space⟩ := r
    obtain ⟨k'',stage⟩ := stage
    obtain rfl : k' = k'' := hkernel
    cases stage with
    | ok vmas =>
      obtain ⟨x,rfl,hx⟩ := hspace
      exact Or.inr ⟨_,_,rfl,rfl,⟨rfl,rfl,rfl,rfl,hx⟩⟩
    | failed vmas =>
      obtain ⟨x,rfl,hx⟩ := hspace
      exact Or.inr ⟨_,_,rfl,rfl,⟨rfl,rfl,rfl,rfl,hx⟩⟩
    | wild =>
      obtain rfl : space = none := hspace
      exact Or.inl ⟨rfl,rfl⟩

theorem grows_addNode : Grows s (NodeSpaces.addNode s x vma).1 := by
  unfold NodeSpaces.addNode
  split
  · exact grows_same rfl rfl
  · exact grows_same rfl rfl
  · exact grows_work (work_release s vma.node)

theorem heapAndStack_takes {cr3 : Word} {y : VmaList × Bool}
    (h : (NodeSpaces.heapAndStack s cr3 x args).2 = some y) :
    Grows (object s).1 (NodeSpaces.heapAndStack s cr3 x args).1 := by
  have hheap : (NodeSpaces.doHeapVma s x).2 ≠ none →
      Grows (object s).1 (NodeSpaces.doHeapVma s x).1 := by
    unfold NodeSpaces.doHeapVma
    split
    · exact fun hne => absurd rfl hne
    · exact fun _ => grows_addNode
  rw [NodeSpaces.heapAndStack] at h ⊢
  generalize NodeSpaces.doHeapVma s x = r at *
  obtain ⟨s₁,r⟩ := r
  rcases r with _ | ⟨x',_ | _⟩
  · cases h
  · exact hheap (by simp)
  · have hmaps := grows_trans (grows_stackFrames s₁ args.argv args.envp) (grows_trans
      (grows_map _ stackStart (physStrings s₁) userFlags cr3)
      (grows_map _ (stackStart-2*4096) (physPointer s₁) userFlags cr3))
    exact grows_trans (hheap (by simp)) (grows_trans hmaps (grows_addNode))

theorem heapStage_takes (s : Machine) (cr3 : Word) (vmas : List Vma) (args : ExecArgs)
    (h : (Exec.heapAndStack s cr3 vmas args).2 ≠ .wild) :
    Grows (object s).1 (Exec.heapAndStack s cr3 vmas args).1 := by
  have hheap : (Exec.doHeapVma s vmas).2 ≠ .wild → Grows (object s).1 (Exec.doHeapVma s vmas).1 := by
    unfold Exec.doHeapVma
    split
    · exact fun hne => absurd rfl hne
    · exact fun _ => grows_work (work_addNode _ _ _)
  rw [Exec.heapAndStack] at h ⊢
  generalize Exec.doHeapVma s vmas = r at *
  obtain ⟨s₁,stage⟩ := r
  cases stage with
  | ok vmas' => exact grows_trans (hheap (by simp)) (grows_stack s₁ cr3 vmas')
  | failed vmas' => exact hheap (by simp)
  | wild => exact absurd rfl h

theorem grows_buildStage (files : KernelPtr → FileData) (k : Kernel) (cr3 : Word) (file : KernelPtr)
    (args : ExecArgs) : Grows k.machine (buildStage files k cr3 file args).1.machine := by
  have hload := grows_loadElfBinary files k file
  unfold buildStage
  generalize Exec.loadElfBinary files k file = loaded at *
  obtain ⟨k',stage⟩ := loaded
  cases stage with
  | ok vmas =>
    have hheap := grows_work (work_doHeapVma k'.machine vmas)
    apply grows_trans hload
    dsimp only
    rw [Exec.heapAndStack]
    generalize Exec.doHeapVma k'.machine vmas = r at *
    obtain ⟨s,stage⟩ := r
    cases stage with
    | ok vmas' => exact grows_trans hheap (grows_stack s cr3 vmas')
    | failed vmas' => exact hheap
    | wild => exact hheap
  | failed vmas => exact hload
  | wild => exact hload

variable {img : Image}

theorem grows_exec (h : Exec.doExecve files k args = some img) :
    Grows k.machine img.kernel.machine := by
  have hroot := grows_afterRoot k args
  rw [execve_stages] at h
  unfold afterRoot at hroot
  generalize copyPageTables (beforeRoot k args).1.machine (beforeRoot k args).1.machine.pml4 4 =
    root at *
  obtain ⟨file,_,h⟩ := Option.bind_eq_some_iff.mp h
  dsimp only at h
  have hbuild := grows_buildStage files { (beforeRoot k args).1 with machine := root.1 } root.2 file
    args
  generalize buildStage files { (beforeRoot k args).1 with machine := root.1 } root.2 file args =
    stage at *
  obtain ⟨k',stage⟩ := stage
  cases stage with
  | ok vmas =>
    obtain rfl := Option.some.inj h
    exact grows_trans hroot hbuild
  | failed vmas =>
    obtain rfl := Option.some.inj h
    exact grows_trans hroot hbuild
  | wild => cases h

theorem exec_shown {e : Execed} (hf : FramesOk k.machine.pages)
    (he : NodeSpaces.doExecve files k n args = some e)
    (hok : e.kernel.machine.shortages = k.machine.shortages) :
    ∃ img, Exec.doExecve files k args = some img ∧ Depicts k n img e := by
  have hsup : ∀ file, (beforeRoot k args).2 = some file →
      HeapSupplied files (afterRoot k args) file := by
    intro file hfile vmas hvmas
    have hgrow := grows_afterRoot k args
    have hload := @loadElfBinary_renders k.machine NoNode hf files (afterRoot k args) n file hgrow
    have hgrow' := grows_trans hgrow (grows_loadElfBinary files (afterRoot k args) file)
    rw [NodeSpaces.doExecve] at he
    unfold afterRoot at *
    dsimp only at he
    rw [hfile] at he
    dsimp only at he
    generalize copyPageTables (beforeRoot k args).1.machine
      (beforeRoot k args).1.machine.pml4 4 = root at *
    unfold buildSpace at he
    generalize NodeSpaces.loadElfBinary files { (beforeRoot k args).1 with machine := root.1 }
      ⟨n,none⟩
      file = r at *
    generalize Exec.loadElfBinary files { (beforeRoot k args).1 with machine := root.1 } file =
      stage at *
    obtain ⟨k',closes,space⟩ := r
    obtain ⟨k'',stage⟩ := stage
    obtain ⟨rfl,hr⟩ := hload
    obtain rfl : stage = .ok vmas := hvmas
    obtain ⟨x,rfl,_⟩ := hr
    obtain ⟨y,hy,rfl⟩ := Option.map_eq_some_iff.mp he
    exact object_supplied hgrow' (heapAndStack_takes hy) hok
  rcases exec_agrees n hf hsup with ⟨_,hnone⟩ | ⟨img,e',himg,he',hd⟩
  · rw [hnone] at he
    cases he
  · obtain rfl : e = e' := Option.some.inj (he.symm.trans he')
    exact ⟨img,himg,hd⟩

theorem exec_made (n : Nodes) (hf : FramesOk k.machine.pages)
    (himg : Exec.doExecve files k args = some img)
    (hok : img.kernel.machine.shortages = k.machine.shortages) :
    ∃ e, NodeSpaces.doExecve files k n args = some e ∧ Depicts k n img e := by
  have hsup : ∀ file, (beforeRoot k args).2 = some file →
      HeapSupplied files (afterRoot k args) file := by
    intro file hfile vmas hvmas
    have hgrow := grows_trans (grows_afterRoot k args)
      (grows_loadElfBinary files (afterRoot k args) file)
    rw [execve_stages, hfile, Option.bind_some] at himg
    unfold afterRoot at *
    dsimp only at himg
    unfold buildStage at himg
    generalize copyPageTables (beforeRoot k args).1.machine
      (beforeRoot k args).1.machine.pml4 4 = root at *
    generalize Exec.loadElfBinary files { (beforeRoot k args).1 with machine := root.1 } file =
      stage at *
    obtain ⟨k',stage⟩ := stage
    obtain rfl : stage = .ok vmas := hvmas
    have htakes := heapStage_takes k'.machine root.2 vmas args
    dsimp only at himg
    generalize Exec.heapAndStack k'.machine root.2 vmas args = rest at *
    obtain ⟨s',stage⟩ := rest
    cases stage with
    | ok vmas' =>
      obtain rfl := Option.some.inj himg
      exact object_supplied hgrow (htakes (by simp)) hok
    | failed vmas' =>
      obtain rfl := Option.some.inj himg
      exact object_supplied hgrow (htakes (by simp)) hok
    | wild => cases himg
  rcases exec_agrees n hf hsup with ⟨hnone,_⟩ | ⟨img',e,himg',he,hd⟩
  · rw [hnone] at himg
    cases himg
  · obtain rfl : img = img' := Option.some.inj (himg.symm.trans himg')
    exact ⟨e,he,hd⟩

end PreemptiveOS.SpaceRefinement
