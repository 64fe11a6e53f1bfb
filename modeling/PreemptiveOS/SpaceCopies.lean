import PreemptiveOS.SpaceRefinement

/-!
# Copies and removals of VMAs in memory

`dup_mm` copies a list of VMAs node by node, and `sys_munmap` takes one node
out. Afterwards the copy shows beside the old list, and the list shows without
the node.
-/

set_option autoImplicit false

namespace PreemptiveOS.SpaceCopies
open ByteMemory PhysMmgr VirtMmgr PageTree Vmas KernelObjects Exec LinkedQueues
open DoubleLinks VmaNodes FrameGrowth FreshFrames NodeSpaces SpaceRefinement

variable {p v : KernelPtr} {T : KernelPtr → Prop} {vmas : List Vma} {n : Nodes} {x : VmaList}
  {head : Option KernelPtr} {k : Kernel} {s s₀ : Machine} {addr : Word}

theorem readVmas_chain (head : Option KernelPtr) (k : ℕ)
    (hc : Chain n.next head (vmas.map Vma.node)) (hr : ∀ v ∈ vmas, n.data v.node = v)
    (hk : vmas.length ≤ k) : readVmas n k head = some vmas := by
  induction vmas generalizing head k with
  | nil =>
    rw [show head = none from hc]
    cases k <;> rfl
  | cons v vmas ih =>
    obtain ⟨rfl,hrest⟩ := hc
    obtain ⟨k,rfl⟩ := Nat.exists_eq_succ_of_ne_zero (Nat.ne_zero_of_lt hk)
    rw [readVmas, ih _ k hrest (fun w hw => hr w (by simp [hw])) (by simpa using hk),
      Option.map_some, hr v (by simp)]

theorem readVmas_shown (h : Shown x vmas) (hle : vmas.length ≤ rounds s) :
    readVmas x.nodes (rounds s) x.head = some vmas :=
  readVmas_chain x.head _ (doubly_chain x.head _ h.linked) h.records hle

variable {own : KernelPtr → Prop} {n₀ : Nodes}

theorem mmap_renders (hf : FramesOk s₀.pages) (k : Kernel) (x : VmaList) (vmas : List Vma)
    (c : VmaRuns.MmapCall) (hg : Grows s₀ k.machine) (h : Laid s₀ k.machine own n₀ x vmas) :
    (NodeSpaces.mmap k x c).kernel = (VmaRuns.mmap k vmas c).1 ∧
    Renders s₀ (VmaRuns.mmap k vmas c).1.machine own n₀
      (regionView vmas (VmaRuns.mmap k vmas c).2) (NodeSpaces.mmap k x c).space := by
  have hread := readVmas_shown h.shown (laid_rounds h)
  unfold NodeSpaces.mmap VmaRuns.mmap
  dsimp only
  rw [hread, Option.bind_some]
  split_ifs
  · exact ⟨rfl,x,rfl,h⟩
  · cases getUnmappedArea vmas c.addr c.len with
    | none => exact ⟨rfl,rfl⟩
    | some area => exact mmapRegion_renders hf hg h

section
variable (n : Nodes) (old tmp q : KernelPtr) (last : Option KernelPtr)

theorem dupNode_next (hne : last ≠ some tmp) : (dupNode n old tmp last).next q =
    if q = tmp then none else if last = some q then some tmp else n.next q := by
  cases last with
  | none => simp [dupNode]
  | some p =>
    have hp : p ≠ tmp := fun he => hne (by rw [he])
    by_cases hq : q = tmp
    · subst hq
      simp [dupNode, hp.symm]
    · simp [dupNode, hq, eq_comm]

theorem dupNode_prev : (dupNode n old tmp last).prev q = if q = tmp then last else n.prev q := by
  cases last <;> simp [dupNode]

end

theorem dupNode_laid (old : KernelPtr) {tmp : KernelPtr} (h : Laid s₀ s own n₀ ⟨n,head⟩ vmas)
    (hnew : tmp ∉ vmas.map Vma.node) (hopen : Open own s₀ tmp) (hkept : KeptNode s tmp) :
    Laid s₀ s own n₀ ⟨dupNode n old tmp (vmas.map Vma.node).getLast?,
        (vmas.map Vma.node).getLast?.elim (some tmp) (fun _ => head)⟩
      (vmas++[{ n.data old with node := tmp }]) := by
  have h₁ := laid_write { n.data old with node := tmp } hnew hopen h
  have hjoint := doubly_joint head (vmas.map Vma.node) [] (by
    rw [List.append_nil]
    exact h.shown.linked)
  have hne : (vmas.map Vma.node).getLast? ≠ some tmp := fun he => hnew (List.mem_of_getLast? he)
  have hdata : (dupNode n old tmp (vmas.map Vma.node).getLast?).data =
      (n.write tmp { n.data old with node := tmp }).data := by
    cases (vmas.map Vma.node).getLast? <;> rfl
  have hnext := fun q => dupNode_next n old tmp q _ hne
  have hprev := fun q => dupNode_prev n old tmp q (vmas.map Vma.node).getLast?
  have hshown := insert_shown ⟨n.write tmp { n.data old with node := tmp },head⟩ vmas []
    { n.data old with node := tmp } (by
      rw [List.append_nil]
      exact h₁.shown) (by
      rw [List.append_nil]
      exact hnew) (by simp)
  have hmem : ∀ v ∈ vmas++[{ n.data old with node := tmp }], v ∈ vmas ∨ v.node = tmp := by
    intro v hv
    rcases List.mem_append.mp hv with hv | hv
    · exact Or.inl hv
    · rw [List.mem_singleton.mp hv]
      exact Or.inr rfl
  generalize dupNode n old tmp (vmas.map Vma.node).getLast? = n₁ at *
  constructor
  case shown =>
    constructor
    case linked =>
      have hhead : (insertVma ⟨n.write tmp { n.data old with node := tmp },head⟩ tmp
          (vmas.map Vma.node).getLast?).head =
            (vmas.map Vma.node).getLast?.elim (some tmp) (fun _ => head) := rfl
      have hlinked := hshown.linked
      rw [VmaNodes.Linked, hhead] at hlinked
      apply doubly_congr _ _ hlinked
      · intro q _
        rw [hnext, insertVma_next]
        simp only [hjoint, write_next]
        rfl
      · intro q _
        rw [hprev, insertVma_prev]
        simp only [hjoint, write_next, write_prev]
        rfl
    case records =>
      intro v hv
      dsimp only
      rw [hdata]
      have hrec := hshown.records v hv
      rwa [insertVma_data] at hrec
  case within =>
    intro v hv
    rcases hmem v hv with hv | hv
    · exact h.within v hv
    · exact hv ▸ hopen
  case kept =>
    intro v hv
    rcases hmem v hv with hv | hv
    · exact h.kept v hv
    · exact hv ▸ hkept
  case frame =>
    apply frame_trans h₁.frame
    constructor
    case data => exact fun q _ => by rw [hdata]
    case next =>
      intro q hq
      have hqt : q ≠ tmp := fun he => hq (he ▸ hopen)
      have hlast : ¬ (vmas.map Vma.node).getLast? = some q := by
        intro he
        obtain ⟨v,hv,rfl⟩ := List.mem_map.mp (List.mem_of_getLast? he)
        exact hq (h.within v hv)
      dsimp only
      rw [hnext, if_neg hqt, if_neg hlast, write_next]
    case prev =>
      intro q hq
      have hqt : q ≠ tmp := fun he => hq (he ▸ hopen)
      dsimp only
      rw [hprev, if_neg hqt, write_prev]

theorem grows_dupMmFrom {k : ℕ} (s : Machine) {s' : Machine} (n : Nodes)
    (old last head : Option KernelPtr) (h : dupMmFrom k s n old last head = some (s',x)) :
    Grows s s' := by
  induction k generalizing s n old last head with
  | zero =>
    cases old with
    | none =>
      obtain ⟨rfl,_⟩ : s = s' ∧ _ := by simpa [dupMmFrom] using h
      exact grows_same rfl rfl
    | some p => cases h
  | succ k ih =>
    cases old with
    | none =>
      obtain ⟨rfl,_⟩ : s = s' ∧ _ := by simpa [dupMmFrom] using h
      exact grows_same rfl rfl
    | some p => exact grows_trans (grows_object s) (ih _ _ _ _ _ h)

def DupSupplied (k : ℕ) (s : Machine) (n : Nodes) (rest : List Vma)
    (old last head : Option KernelPtr) : Prop :=
  (Fork.dupMm s rest).1.shortages = s.shortages ∨
    ∃ s' x, dupMmFrom k s n old last head = some (s',x) ∧ s'.shortages = s.shortages

theorem dupSupplied_node {k : ℕ} {v : Vma} {rest : List Vma} {old : KernelPtr}
    {last : Option KernelPtr} (h : DupSupplied (k+1) s n (v::rest) (some old) last head) :
    (alloc s).2 ≠ 0 ∧ DupSupplied k (object s).1 (dupNode n old (object s).2 last) rest
      ((dupNode n old (object s).2 last).next old) (some (object s).2)
      (last.elim (some (object s).2) (fun _ => head)) := by
  have hgo := grows_object s
  rcases h with hok | ⟨s',x,hx,hok⟩
  · obtain ⟨hok₁,hok₂⟩ := grows_supply hgo (grows_work (Fork.work_dupMm rest _)) hok
    exact ⟨(alloc_shortages s).2 hok₁,Or.inl hok₂⟩
  · obtain ⟨hok₁,hok₂⟩ := grows_supply hgo (grows_dupMmFrom _ _ _ _ _ hx) hok
    exact ⟨(alloc_shortages s).2 hok₁,Or.inr ⟨s',x,hx,hok₂⟩⟩

section
variable {s₀ : Machine} {n₀ : Nodes} (hf : FramesOk s₀.pages)
include hf

/-- The copy of what is left of a list, by induction on it. The old nodes are in
no unused frame, so that the walk goes on as in the memory before. -/
theorem dupMmFrom_laid (rest : List Vma) (s : Machine) (n : Nodes) (done : List Vma)
    (old head : Option KernelPtr) (k : ℕ) (hg : Grows s₀ s)
    (hc : Chain n₀.next old (rest.map Vma.node)) (hr : ∀ v ∈ rest, n₀.data v.node = v)
    (hold : ∀ v ∈ rest, KeptNode s₀ v.node) (hk : rest.length ≤ k)
    (h : Laid s₀ s NoNode n₀ ⟨n,if done = [] then none else head⟩ done)
    (hne : done = [] → rest = [] → head = none)
    (hok : DupSupplied k s n rest old (done.map Vma.node).getLast? head) :
    ∃ x, dupMmFrom k s n old (done.map Vma.node).getLast? head = some ((Fork.dupMm s rest).1,x) ∧
      Laid s₀ (Fork.dupMm s rest).1 NoNode n₀ x (done++(Fork.dupMm s rest).2) := by
  induction rest generalizing s n done old head k with
  | nil =>
    obtain rfl : old = none := hc
    refine ⟨⟨n,head⟩,?_,?_⟩
    · cases k <;> rfl
    · rw [Fork.dupMm, List.append_nil]
      by_cases hd : done = []
      · rw [if_pos hd] at h
        rw [hne hd rfl]
        exact h
      · rwa [if_neg hd] at h
  | cons v rest ih =>
    obtain ⟨rfl,hc⟩ := hc
    obtain ⟨k,rfl⟩ := Nat.exists_eq_succ_of_ne_zero (Nat.ne_zero_of_lt hk)
    obtain ⟨ha,hok₁⟩ := dupSupplied_node hok
    obtain ⟨h₁,hnew,hfresh,hheld⟩ := object_laid hf hg ha h
    have h₂ := dupNode_laid v.node h₁ hnew (Or.inr hfresh) (Or.inl hheld)
    have hout : ¬ Open NoNode s₀ v.node := by
      rintro (hno | hv)
      · exact hno
      · exact kept_not_fresh hf (hold v (by simp)) hv
    have hrecord : n.data v.node = v := (h.frame.data _ hout).trans (hr v (by simp))
    have hnext := h₂.frame.next _ hout
    rw [hrecord] at h₂
    generalize hlast : (done.map Vma.node).getLast? = last at *
    have hnil : last = none ↔ done = [] := by
      rw [← hlast, List.getLast?_eq_none_iff, List.map_eq_nil_iff]
    have hhead : last.elim (some (object s).2) (fun _ => if done = [] then none else head) =
        last.elim (some (object s).2) (fun _ => head) := by
      cases last with
      | none => rfl
      | some p =>
        have hd : done ≠ [] := fun hd => absurd (hnil.mpr hd) (by simp)
        rw [if_neg hd]
    rw [hhead] at h₂
    dsimp only at hnext
    rw [hnext] at hok₁
    rw [dupMmFrom, hnext]
    have hstep := ih (object s).1 (dupNode n v.node (object s).2 last)
      (done++[{ v with node := (object s).2 }]) (n₀.next v.node)
      (last.elim (some (object s).2) (fun _ => head)) k (grows_trans hg (grows_object s)) hc
      (fun w hw => hr w (by simp [hw])) (fun w hw => hold w (by simp [hw])) (by simpa using hk)
      (by
        rw [if_neg (by simp)]
        exact h₂) (fun hd => by simp at hd) (by simpa using hok₁)
    simpa [Fork.dupMm] using hstep

theorem dupMm_laid (hg : Grows s₀ s) (h : Shown x vmas) (hk : ∀ v ∈ vmas, KeptNode s₀ v.node)
    (hok : DupSupplied (rounds s) s x.nodes vmas x.head none x.head) :
    ∃ x', NodeSpaces.dupMm s x = some ((Fork.dupMm s vmas).1,x') ∧
      Laid s₀ (Fork.dupMm s vmas).1 NoNode x.nodes x' (Fork.dupMm s vmas).2 := by
  have hlaid : Laid s s (fun q => q ∈ vmas.map Vma.node) x.nodes x vmas :=
    laid_start x vmas h (fun v hv => kept_after hg hf (hk v hv))
  have hc := doubly_chain x.head _ h.linked
  have hcopy := @dupMmFrom_laid s₀ x.nodes hf vmas s x.nodes [] x.head x.head (rounds s) hg hc
    h.records hk (laid_rounds hlaid) (laid_empty s₀ s NoNode x.nodes)
    (fun _ hv => by rw [hv] at hc; exact hc) hok
  simpa [NodeSpaces.dupMm] using hcopy

end

def content (v : Vma) :
    Word × Word × Word × Word × Word × Word × Option KernelPtr × FaultHandler :=
  (v.startAddr,v.endAddr,v.filesize,v.memsize,v.fileoffset,v.protection,v.file,v.fault)

theorem dupMm_content (vmas : List Vma) (s : Machine) :
    (Fork.dupMm s vmas).2.map content = vmas.map content := by
  induction vmas generalizing s with
  | nil => rfl
  | cons v vmas ih =>
    rw [Fork.dupMm, List.map_cons, List.map_cons, ih]
    rfl

structure Copied (s s' : Machine) (x x' : VmaList) (vmas vmas' : List Vma) : Prop where
  shown : Shown x' vmas'
  length : vmas'.length = vmas.length
  equal : vmas'.map content = vmas.map content
  taken : ∀ v ∈ vmas', FreshNode s v.node ∧ ¬ FreshNode s' v.node
  parent : Shown ⟨x'.nodes,x.head⟩ vmas
  untouched : Frame (FreshNode s) x.nodes x'.nodes

/-- With a frame for every VMA, the copy of a list is an independent one. -/
theorem dup_mm_independent_copy (s : Machine) (x : VmaList) (vmas : List Vma)
    (hf : FramesOk s.pages) (h : Shown x vmas) (hk : ∀ v ∈ vmas, KeptNode s v.node)
    (hfree : vmas.length ≤ freeCount s.pages) :
    ∃ s' x' vmas', NodeSpaces.dupMm s x = some (s',x') ∧ Copied s s' x x' vmas vmas' := by
  have hsup := Supply.supplied_dupMm vmas 0 s ⟨hf,rfl,by omega⟩
  obtain ⟨x',hx',hlaid⟩ := dupMm_laid hf (grows_same rfl rfl) h hk (Or.inl hsup.2.1)
  have hopen : ∀ q, Open NoNode s q → FreshNode s q := fun q hq => hq.resolve_left id
  have huntouched := frame_mono hopen hlaid.frame
  have hcontent := dupMm_content vmas s
  refine ⟨_,x',(Fork.dupMm s vmas).2,hx',?_⟩
  constructor
  case shown => exact hlaid.shown
  case length => simpa using congrArg List.length hcontent
  case equal => exact hcontent
  case taken =>
    intro v hv
    exact ⟨hopen _ (hlaid.within v hv),kept_not_fresh hsup.1 (hlaid.kept v hv)⟩
  case parent =>
    exact shown_frame huntouched (fun v hv => kept_not_fresh hf (hk v hv)) h
  case untouched => exact huntouched

/-- The three VMAs of a small image. -/
theorem dup_mm_independent_copy_image : ∃ k n e s' x' vmas vmas',
    NodeSpaces.doExecve (fun _ => Supply.tinyElf) k n Supply.plainArgs = some e ∧
    vmas.length = 3 ∧ NodeSpaces.dupMm e.kernel.machine ⟨e.nodes,e.mm.vma⟩ = some (s',x') ∧
    Copied e.kernel.machine s' ⟨e.nodes,e.mm.vma⟩ x' vmas vmas' := by
  obtain ⟨img,_,node,fp,node',himg,_,hvma,hs,_,_⟩ := Supply.tiny_image Supply.first_coherent
    (fun u _ => Supply.first_tables u) Supply.first_supplied
  have hlength : img.mm.vma.length = 3 := by
    rw [hvma]
    rfl
  obtain ⟨e,he,hd⟩ := exec_made
    ⟨fun _ => stackVma,fun _ => none,fun _ => none⟩ Supply.first_supplied.1 himg hs.2.1
  have hfree := hs.2.2
  have hframes := hs.1
  have hkept := hd.laid.kept
  rw [← hd.kernel] at hframes hkept hfree
  obtain ⟨s',x',vmas',hdup,hcopied⟩ := dup_mm_independent_copy e.kernel.machine
    ⟨e.nodes,e.mm.vma⟩ img.mm.vma hframes hd.laid.shown hkept (by omega)
  exact ⟨_,_,e,s',x',_,vmas',he,hlength,hdup,hcopied⟩

theorem frame_links (n : Nodes) {q : KernelPtr} (hp : T p) (hq : T q) (a b : Option KernelPtr) :
    Frame T n ((n.setNext p a).setPrev q b) := by
  constructor
  case data => exact fun _ _ => rfl
  case next =>
    intro r hr
    have hne : r ≠ p := fun he => hr (he ▸ hp)
    simp [hne]
  case prev =>
    intro r hr
    have hne : r ≠ q := fun he => hr (he ▸ hq)
    simp [hne]

theorem frame_unlink {n' : Nodes} (h : unlink n v = some n') (hv : T v)
    (hprev : ∀ p, n.prev v = some p → T p) (hnext : ∀ q, n.next v = some q → T q) :
    Frame T n n' := by
  unfold unlink at h
  cases hp : n.prev v with
  | none => simp [hp] at h
  | some p =>
    have hTp := hprev p hp
    cases hq : n.next v with
    | none =>
      obtain rfl : (n.setNext p none).setPrev v none = n' := by simpa [hp, hq] using h
      exact frame_links n hTp hv none none
    | some q =>
      obtain rfl : (n.setNext p (some q)).setPrev q (some p) = n' := by simpa [hp, hq] using h
      exact frame_links n hTp (hnext q hq) (some q) (some p)

theorem remove_laid {vmas₁ vmas₂ : List Vma} {v : Vma} (h : Shown x (vmas₁++v::vmas₂))
    (hne : vmas₁ ≠ []) (hk : ∀ w ∈ vmas₁++v::vmas₂, KeptNode s w.node) :
    ∃ x', removeVma (rounds s) x v.node = some x' ∧ x'.nodes.data = x.nodes.data ∧
      Laid s s (fun q => q ∈ (vmas₁++v::vmas₂).map Vma.node) x.nodes x' (vmas₁++vmas₂) := by
  have hle := laid_rounds (laid_start x _ h hk)
  have hlinked := h.linked
  rw [List.map_append, List.map_cons] at hlinked
  obtain ⟨n,hn,hrest,hdata⟩ := unlink_linked (by simpa using hne) hlinked
  refine ⟨⟨n,x.head⟩,?_,hdata,?_⟩
  · rw [removeVma_behind hlinked (by simpa using hne) (by simpa using hle), hn,
      Option.map_some]
  have hsub : ∀ w ∈ vmas₁++vmas₂, w ∈ vmas₁++v::vmas₂ := by
    intro w hw
    simp only [List.mem_append, List.mem_cons] at hw ⊢
    tauto
  constructor
  case shown =>
    constructor
    case linked =>
      rw [List.map_append]
      exact hrest
    case records =>
      intro w hw
      dsimp only
      rw [hdata]
      exact h.records w (hsub w hw)
  case within => exact fun w hw => Or.inl (List.mem_map_of_mem (hsub w hw))
  case kept => exact fun w hw => hk w (hsub w hw)
  case frame =>
    have hback := doubly_back x.head _ _ v.node hlinked
    have hforward := doubly_joint x.head ((vmas₁.map Vma.node)++[v.node]) (vmas₂.map Vma.node) (by
      rw [List.append_assoc]
      exact hlinked)
    rw [List.getLast?_concat] at hforward
    apply frame_unlink hn
    · exact Or.inl (by simp)
    · intro p hp
      rw [hback] at hp
      refine Or.inl ?_
      rw [List.map_append]
      exact List.mem_append_left _ (List.mem_of_getLast? hp)
    · intro q hq
      have hq' : (vmas₂.map Vma.node).head? = some q := hforward.symm.trans hq
      refine Or.inl ?_
      rw [List.map_append, List.map_cons]
      exact List.mem_append_right _ (List.mem_cons_of_mem _ (List.mem_of_mem_head? hq'))

theorem findVmaRegionFrom_mem (head : Option KernelPtr) {len : Word} (k : ℕ)
    (hc : Chain n.next head (vmas.map Vma.node))
    (h : findVmaRegionFrom n addr len k head = some (some p)) : ∃ v ∈ vmas, v.node = p := by
  induction vmas generalizing head k with
  | nil =>
    obtain rfl : head = none := hc
    cases k <;> cases h
  | cons v vmas ih =>
    obtain ⟨rfl,hrest⟩ := hc
    cases k with
    | zero => cases h
    | succ k =>
      rw [findVmaRegionFrom] at h
      split_ifs at h
      · exact ⟨v,List.mem_cons_self,by simpa using h⟩
      · obtain ⟨w,hw,hp⟩ := ih _ k hrest h
        exact ⟨w,List.mem_cons_of_mem _ hw,hp⟩

def munmapRegion (k : Kernel) (x : VmaList) (addr size : Word) : Option (Option KernelPtr) :=
  findVmaRegionFrom x.nodes (pageRoundUp addr) (pageRoundDown size) (rounds k.machine) x.head

theorem munmap_laid {k' : Kernel} {x' : VmaList} {size : Word} {closes : List Close}
    (h : Shown x vmas) (hk : ∀ v ∈ vmas, KeptNode k.machine v.node)
    (hfirst : ∀ v, munmapRegion k x addr size = some (some v) → x.head ≠ some v)
    (hm : doMunmap k x addr size = some (k',closes,x')) :
    (k' = k ∧ closes = [] ∧ x' = x) ∨ ∃ vmas₁ v vmas₂, vmas = vmas₁++v::vmas₂ ∧
      munmapRegion k x addr size = some (some v.node) ∧
      k' = deallocateVma k v ∧ closes = closeOf k v.file ∧
      Laid k.machine k.machine (fun q => q ∈ vmas.map Vma.node) x.nodes x' (vmas₁++vmas₂) := by
  unfold munmapRegion at *
  rw [doMunmap] at hm
  cases hfind : findVmaRegionFrom x.nodes (pageRoundUp addr) (pageRoundDown size)
      (rounds k.machine) x.head with
  | none => simp [hfind] at hm
  | some found =>
    rw [hfind] at hm hfirst
    cases found with
    | none =>
      obtain ⟨rfl,rfl,rfl⟩ : k = k' ∧ [] = closes ∧ x = x' := by simpa using hm
      exact Or.inl ⟨rfl,rfl,rfl⟩
    | some p =>
      obtain ⟨v,hv,rfl⟩ := findVmaRegionFrom_mem x.head _ (doubly_chain x.head _ h.linked) hfind
      obtain ⟨vmas₁,vmas₂,rfl⟩ := List.append_of_mem hv
      have hne : vmas₁ ≠ [] := by
        rintro rfl
        exact hfirst v.node rfl (doubly_head h.linked)
      obtain ⟨x'',hx,hdata,hlaid⟩ := remove_laid h hne hk
      have hrecord := h.records v hv
      dsimp only at hm
      rw [hx, Option.map_some, hdata, hrecord] at hm
      obtain ⟨rfl,rfl,rfl⟩ : deallocateVma k v = k' ∧ closeOf k v.file = closes ∧ x'' = x' := by
        simpa using hm
      exact Or.inr ⟨vmas₁,v,vmas₂,rfl,rfl,rfl,rfl,hlaid⟩

end PreemptiveOS.SpaceCopies
