import PreemptiveOS.FreeAreas
import PreemptiveOS.SpaceCopies

/-!
# Taking a mapping away

`do_munmap` rounds its range to pages, takes the first VMA that reaches over
all of it out of the list, whatever else that VMA has, and never looks at the
page tables. So it undoes a mapping if it finds the VMA of the mapping and can
unlink it, and it keeps to its range if that VMA has nothing outside the range
and no page of the range was ever touched.
-/

set_option autoImplicit false

namespace PreemptiveOS.Unmapping
open ByteMemory PhysMmgr VirtMmgr PageTree Vmas KernelObjects PageFaults Exec LinkedQueues
open DoubleLinks FrameGrowth VmaRanges NodeSpaces SpaceRefinement SpaceCopies FreeAreas Supply
open TableForest
open VmaNodes hiding addVma findVmaPrev findVmaPrevFrom

def sysMunmap (k : Kernel) (x : VmaList) (addr size : Word) :
    Option (ℤ × Kernel × List Close × VmaList) :=
  match munmapRegion k x addr size with
  | none => none
  | some none => some (-1,k,[],x)
  | some (some v) =>
    (removeVma (rounds k.machine) x v).map (fun x' =>
      let vma := { x'.nodes.data v with node := v }
      (1,deallocateVma k vma,closeOf k vma.file,x'))

theorem sysMunmap_effect (k : Kernel) (x : VmaList) (addr size : Word) :
    (sysMunmap k x addr size).map Prod.snd = doMunmap k x addr size := by
  rw [sysMunmap, doMunmap, munmapRegion]
  rcases findVmaRegionFrom x.nodes (pageRoundUp addr) (pageRoundDown size) (rounds k.machine)
    x.head with _ | _ | v
  · rfl
  · rfl
  · simp only [Option.map_map]
    rfl

def Reaches (addr len : Word) (v : Vma) : Prop :=
  v.startAddr ≤ addr ∧ addr+len ≤ pageRoundDown v.endAddr

instance (addr len : Word) (v : Vma) : Decidable (Reaches addr len v) := by
  unfold Reaches
  infer_instance

variable {vmas : List Vma} {addr len : Word}

theorem findVmaRegionFrom_records {n : Nodes} (head : Option KernelPtr) (k : ℕ)
    (hc : Chain n.next head (vmas.map Vma.node)) (hr : ∀ v ∈ vmas, n.data v.node = v)
    (hk : vmas.length ≤ k) :
    findVmaRegionFrom n addr len k head =
      some ((vmas.find? (fun v => Reaches addr len v)).map Vma.node) := by
  induction vmas generalizing head k with
  | nil =>
    obtain rfl : head = none := hc
    cases k <;> rfl
  | cons v vmas ih =>
    obtain ⟨rfl,hrest⟩ := hc
    obtain ⟨k,rfl⟩ := Nat.exists_eq_succ_of_ne_zero (Nat.ne_zero_of_lt hk)
    rw [findVmaRegionFrom, hr v (by simp), List.find?_cons]
    by_cases hv : Reaches addr len v
    · rw [if_pos (show _ ∧ _ from hv), decide_eq_true hv]
      rfl
    · rw [if_neg (show ¬ (_ ∧ _) from hv), decide_eq_false hv]
      exact ih _ k hrest (fun w hw => hr w (by simp [hw])) (by simpa using hk)

variable {vmas₁ vmas₂ : List Vma} {v : Vma} {x' : VmaList}

section
variable {k : Kernel} {x : VmaList} {vmas : List Vma} (h : Shown x vmas)
  (hk : ∀ v ∈ vmas, KeptNode k.machine v.node)
include h hk

theorem munmapRegion_records (addr size : Word) : munmapRegion k x addr size =
    some ((vmas.find? (fun v => Reaches (pageRoundUp addr) (pageRoundDown size) v)).map
      Vma.node) :=
  findVmaRegionFrom_records x.head _ (doubly_chain x.head _ h.linked) h.records
    (laid_rounds (laid_start x vmas h hk))

theorem remove_chain (hsplit : vmas = vmas₁++v::vmas₂)
    (hx : removeVma (rounds k.machine) x v.node = some x') :
    Chain x'.nodes.next x'.head ((vmas₁++vmas₂).map Vma.node) ∧
      x'.nodes.data = x.nodes.data := by
  subst hsplit
  cases vmas₁ with
  | nil =>
    obtain ⟨hhead,hc⟩ := doubly_chain x.head _ h.linked
    rw [removeVma, hhead] at hx
    simp only [if_true] at hx
    rw [List.nil_append]
    cases hsecond : x.nodes.next v.node with
    | none => simp [hsecond] at hx
    | some second =>
      simp only [hsecond] at hx
      cases hthird : x.nodes.next second with
      | none => simp [hthird] at hx
      | some third =>
        simp only [hthird, Option.some.injEq] at hx
        subst hx
        rw [hsecond] at hc
        exact ⟨hc,rfl⟩
  | cons u vmas₁ =>
    obtain ⟨x'',hx',hdata,hlaid⟩ := remove_laid h (by simp) hk
    obtain rfl : x' = x'' := Option.some.inj (hx.symm.trans hx')
    exact ⟨doubly_chain _ _ hlaid.shown.linked,hdata⟩

theorem sysMunmap_one {size : Word} {k' : Kernel} {closes : List Close}
    (hm : sysMunmap k x addr size = some (1,k',closes,x')) :
    ∃ vmas₁ v vmas₂, vmas = vmas₁++v::vmas₂ ∧
      vmas.find? (fun v => Reaches (pageRoundUp addr) (pageRoundDown size) v) = some v ∧
      removeVma (rounds k.machine) x v.node = some x' ∧ k' = deallocateVma k v := by
  rw [sysMunmap, munmapRegion_records h hk] at hm
  cases hfind : vmas.find? (fun v => Reaches (pageRoundUp addr) (pageRoundDown size) v) with
  | none => simp [hfind] at hm
  | some v =>
    have hv := List.mem_of_find?_eq_some hfind
    obtain ⟨vmas₁,vmas₂,hsplit⟩ := List.append_of_mem hv
    rw [hfind, Option.map_some] at hm
    obtain ⟨x'',hx,hresult⟩ := Option.map_eq_some_iff.mp hm
    simp only [Prod.mk.injEq, true_and] at hresult
    obtain ⟨hkernel,_,rfl⟩ := hresult
    have hrecord : { x''.nodes.data v.node with node := v.node } = v := by
      rw [(remove_chain h hk hsplit hx).2, h.records v hv]
    rw [hrecord] at hkernel
    exact ⟨vmas₁,v,vmas₂,hsplit,rfl,hx,hkernel.symm⟩

end

def InRange (addr size x : Word) : Prop :=
  (pageRoundUp addr).toNat ≤ x.toNat ∧
    x.toNat < (pageRoundUp addr).toNat+(pageRoundDown size).toNat

def window (v : Vma) (x : Word) : Word × Option KernelPtr × Word × Word :=
  (v.protection,v.file,v.fileoffset+(x-v.startAddr),v.fileoffset+v.filesize)

def CoveredAs (vmas : List Vma) (v : Vma) (x : Word) : Prop :=
  ∃ w ∈ vmas, covers x w = true ∧ window w x = window v x

structure OnlyRange (addr size : Word) (vmas vmas' : List Vma) (m : Mem) (cr3 : Word) : Prop where
  outside : ∀ v ∈ vmas, ∀ x, ¬ InRange addr size x → covers x v = true → CoveredAs vmas' v x
  unmapped : ∀ x, InRange addr size x → ¬ Permitted m cr3 x present

structure Confined (addr size : Word) (vmas : List Vma) (m : Mem) (cr3 : Word) : Prop where
  outside : ∀ v ∈ vmas.find? (fun v => Reaches (pageRoundUp addr) (pageRoundDown size) v),
    ∀ x, ¬ InRange addr size x → covers x v = true → CoveredAs (vmas.erase v) v x
  unmapped : ∀ x, InRange addr size x → ¬ Permitted m cr3 x present

theorem deallocateVma_mem (k : Kernel) (v : Vma) :
    (deallocateVma k v).machine.mem = k.machine.mem := by
  cases hfile : v.file with
  | none => simp only [deallocateVma, closeFile, hfile, release]
  | some fp =>
    simp only [deallocateVma, closeFile, hfile, release, tarfsClose]
    split_ifs <;> rfl

variable {x : VmaList}

theorem erase_split (h : Shown x (vmas₁++v::vmas₂)) : (vmas₁++v::vmas₂).erase v = vmas₁++vmas₂ := by
  have hd := (shown_nodup h).of_map
  have hout : v ∉ vmas₁ := fun hm => (List.nodup_append.mp hd).2.2 v hm v (by simp) rfl
  rw [List.erase_append_right _ hout, List.erase_cons_head]

/-- A call that succeeds keeps to its range exactly if it is confined. -/
theorem munmap_only_range_iff (k k' : Kernel) (x x' : VmaList) (vmas : List Vma)
    (addr size cr3 : Word) (closes : List Close) (h : Shown x vmas)
    (hk : ∀ v ∈ vmas, KeptNode k.machine v.node)
    (hm : sysMunmap k x addr size = some (1,k',closes,x')) :
    (∃ vmas', readVmas x'.nodes (rounds k.machine) x'.head = some vmas' ∧
      OnlyRange addr size vmas vmas' k'.machine.mem cr3) ↔
      Confined addr size vmas k.machine.mem cr3 := by
  obtain ⟨vmas₁,v,vmas₂,rfl,hfind,hx,rfl⟩ := sysMunmap_one h hk hm
  obtain ⟨hchain,hdata⟩ := remove_chain h hk rfl hx
  have hlen := laid_rounds (laid_start x _ h hk)
  have hread : readVmas x'.nodes (rounds k.machine) x'.head = some (vmas₁++vmas₂) := by
    apply readVmas_chain x'.head _ hchain
    · intro w hw
      rw [hdata]
      apply h.records w
      simp only [List.mem_append, List.mem_cons] at hw ⊢
      exact hw.imp_right Or.inr
    · simp only [List.length_append, List.length_cons] at hlen ⊢
      omega
  have herase := erase_split h
  rw [hread, deallocateVma_mem]
  constructor
  · rintro ⟨vmas',hvmas,honly⟩
    obtain rfl := Option.some.inj hvmas
    constructor
    case outside =>
      intro u hu y hy hcov
      obtain rfl := Option.some.inj (hfind.symm.trans hu)
      rw [herase]
      exact honly.outside v (by simp) y hy hcov
    case unmapped => exact honly.unmapped
  · intro hc
    refine ⟨_,rfl,?_⟩
    constructor
    case outside =>
      intro u hu y hy hcov
      by_cases huv : u = v
      · rw [huv] at hcov ⊢
        have hcase := hc.outside v hfind y hy hcov
        rwa [herase] at hcase
      · refine ⟨u,?_,hcov,rfl⟩
        simp only [List.mem_append, List.mem_cons] at hu ⊢
        exact hu.imp_right (fun hu => hu.resolve_left huv)
    case unmapped => exact hc.unmapped

def pairVmas (len : Word) : List Vma :=
  [regionVma (kernelPtr 0x1000) none 0x400000 0 4096 0 3,
    regionVma (kernelPtr 0x2000) none 0x600000 0 len 0 3]

def pairList (len : Word) : VmaList where
  head := some (kernelPtr 0x1000)
  nodes :=
    { data := fun p =>
        if p = kernelPtr 0x1000 then regionVma p none 0x400000 0 4096 0 3
        else regionVma p none 0x600000 0 len 0 3
      next := fun p => if p = kernelPtr 0x1000 then some (kernelPtr 0x2000) else none
      prev := fun p => if p = kernelPtr 0x2000 then some (kernelPtr 0x1000) else none }

def pairKernel : Kernel :=
  ⟨⟨fun _ => 0,[⟨0x1000,1,true⟩,⟨0x2000,1,true⟩],0x8000,0x8000,0⟩,fun _ => 0⟩

theorem pair_shown (len : Word) : Shown (pairList len) (pairVmas len) := by
  constructor
  case linked => exact ⟨some (kernelPtr 0x2000),rfl,rfl,rfl,rfl,rfl,rfl⟩
  case records =>
    intro v hv
    simp only [pairVmas, List.mem_cons, List.not_mem_nil, or_false] at hv
    rcases hv with rfl | rfl
    · rfl
    · rfl

theorem pair_kept (len : Word) : ∀ v ∈ pairVmas len, KeptNode pairKernel.machine v.node := by
  have hheld : ∀ f, f ∈ ([0x1000,0x2000] : List Word) →
      KeptNode pairKernel.machine (kernelPtr f) := by
    intro f hf
    refine Or.inl ⟨f,hf,?_,rfl⟩
    rintro ⟨p,hp,_,hfree⟩
    simp only [pairKernel, List.mem_cons, List.not_mem_nil, or_false] at hp
    rcases hp with rfl | rfl <;> cases hfree
  intro v hv
  simp only [pairVmas, List.mem_cons, List.not_mem_nil, or_false] at hv
  rcases hv with rfl | rfl
  · exact hheld 0x1000 (by simp)
  · exact hheld 0x2000 (by simp)

theorem pair_unmapped (x : Word) : ¬ Permitted pairKernel.machine.mem 0x8000 x present := by
  intro h
  have hentry := h [] (getIndexOfPml4 x) ⟨_,rfl⟩
  rw [pathEntry, entryAt, descend, Option.map_some, Option.getD_some,
    show tables pairKernel.machine.mem = tables blank.mem from rfl, blank_tables] at hentry
  exact absurd hentry (by decide)

theorem munmap_only_range_iff_page : ∃ k' closes x' vmas',
    sysMunmap pairKernel (pairList 4096) 0x600000 4096 = some (1,k',closes,x') ∧
    readVmas x'.nodes (rounds pairKernel.machine) x'.head = some vmas' ∧
    OnlyRange 0x600000 4096 (pairVmas 4096) vmas' k'.machine.mem 0x8000 := by
  obtain ⟨k',closes,x',hm⟩ : ∃ k' closes x',
      sysMunmap pairKernel (pairList 4096) 0x600000 4096 = some (1,k',closes,x') := ⟨_,_,_,rfl⟩
  have hconfined : Confined 0x600000 4096 (pairVmas 4096) pairKernel.machine.mem 0x8000 := by
    constructor
    case outside =>
      intro v hv x hx hcov
      obtain rfl := Option.some.inj hv
      rw [covers_iff, show lo _ = 0x600000 from rfl, show hi _ = 0x600FFF from rfl] at hcov
      refine absurd ?_ hx
      rw [InRange, show (pageRoundUp 0x600000).toNat = 0x600000 by decide,
        show (pageRoundDown 4096).toNat = 4096 by decide]
      omega
    case unmapped => exact fun x _ => pair_unmapped x
  obtain ⟨vmas',hread,honly⟩ := (munmap_only_range_iff pairKernel k' (pairList 4096) x'
    (pairVmas 4096) 0x600000 4096 0x8000 closes (pair_shown 4096) (pair_kept 4096) hm).mpr hconfined
  exact ⟨k',closes,x',vmas',hm,hread,honly⟩

/-- One page of two is unmapped, and the other one is not covered any more. -/
theorem munmap_takes_whole_vma : ∃ k' closes x' first second,
    pairVmas 8192 = [first,second] ∧
    sysMunmap pairKernel (pairList 8192) 0x600000 4096 = some (1,k',closes,x') ∧
    readVmas x'.nodes (rounds pairKernel.machine) x'.head = some [first] ∧
    ¬ InRange 0x600000 4096 0x601000 ∧ covers 0x601000 second = true ∧
    covers 0x601000 first = false :=
  ⟨_,_,_,_,_,rfl,rfl,rfl,by unfold InRange; decide,by decide,by decide⟩

section
variable {k : Kernel} {x : VmaList} {pre post : List Vma} {v : Vma} (h : Shown x (pre++v::post))
  (hk : ∀ w ∈ pre++v::post, KeptNode k.machine w.node)
include h hk

/-- A VMA in a list is what a call takes out, with the rest left as a list,
exactly if it is not the first one and the first one that reaches over the range. -/
theorem takes_out_iff (addr size : Word) :
    (∃ k' closes x', sysMunmap k x addr size = some (1,k',closes,x') ∧ Shown x' (pre++post)) ↔
      pre ≠ [] ∧ Reaches (pageRoundUp addr) (pageRoundDown size) v ∧
      ∀ w ∈ pre, ¬ Reaches (pageRoundUp addr) (pageRoundDown size) w := by
  have hd := shown_nodup h
  have hout : v.node ∉ (pre++post).map Vma.node := by
    rw [List.map_append, List.map_cons] at hd
    rw [List.map_append]
    exact (List.nodup_middle.mp hd).notMem
  have hpre : v ∉ pre := fun hm => hout (List.mem_map_of_mem (by simp [hm]))
  constructor
  · rintro ⟨k',closes,x',hm,hx'⟩
    obtain ⟨l₁,u,l₂,hsplit,hfind,hx,_⟩ := sysMunmap_one h hk hm
    obtain ⟨hchain,hdata⟩ := remove_chain h hk hsplit hx
    have hsame := chain_unique _ _ _ _ hchain (doubly_chain _ _ hx'.linked)
    obtain rfl : v = u := by
      by_contra hne
      have hmem : v ∈ l₁++u::l₂ := by
        rw [← hsplit]
        simp
      have hrest : v ∈ l₁++l₂ := by
        simp only [List.mem_append, List.mem_cons] at hmem ⊢
        exact hmem.imp_right (fun hv => hv.resolve_left hne)
      exact hout (hsame ▸ List.mem_map_of_mem hrest)
    refine ⟨?_,by simpa using List.find?_some hfind,?_⟩
    · rintro rfl
      apply first_not_removed (rounds k.machine) h.linked
      refine ⟨x',hx,?_,hdata⟩
      rw [List.erase_cons_head]
      exact hx'.linked
    · intro w hw hreach
      obtain ⟨u,hu⟩ := Option.isSome_iff_exists.mp (List.find?_isSome.mpr
        (⟨w,hw,decide_eq_true hreach⟩ : ∃ w ∈ pre, decide (Reaches _ _ w) = true))
      rw [List.find?_append, hu, Option.some_or] at hfind
      exact hpre (Option.some.inj hfind ▸ List.mem_of_find?_eq_some hu)
  · rintro ⟨hne,hreach,hfirst⟩
    obtain ⟨x',hx,_,hlaid⟩ := remove_laid h hne hk
    have hfind : (pre++v::post).find?
        (fun v => Reaches (pageRoundUp addr) (pageRoundDown size) v) = some v := by
      rw [List.find?_append, List.find?_eq_none.mpr (by simpa using hfirst), Option.none_or,
        List.find?_cons_of_pos (by simpa using hreach)]
    refine ⟨deallocateVma k { x'.nodes.data v.node with node := v.node },
      closeOf k (x'.nodes.data v.node).file,x',?_,hlaid.shown⟩
    rw [sysMunmap, munmapRegion_records h hk, hfind, Option.map_some]
    simp only [hx, Option.map_some]

end

def mappedAt (k : Kernel) (x : VmaList) : Word := (x.nodes.data (object k.machine).2).startAddr

/-- The VMA of the mapping is not the first one, reaches over the rounded range, and no VMA
that it was put behind does. -/
structure Undone (vmas : List Vma) (len a : Word) : Prop where
  behind : ahead a (a+4095*(len/4097+1)) vmas ≠ []
  reached : a+pageRoundDown len ≤ pageRoundDown (a+4095*(len/4097+1))
  others : ∀ w ∈ ahead a (a+4095*(len/4097+1)) vmas, ¬ Reaches a (pageRoundDown len) w

theorem pageRoundUp_aligned {a : Word} (h : Aligned a) : pageRoundUp a = a := by
  by_cases hsmall : a < 4096
  · rw [pageRoundUp, if_pos hsmall]
  · apply BitVec.eq_of_toNat_eq
    have hle : 4096 ≤ a.toNat := BitVec.not_lt.mp hsmall
    rw [pageRoundUp_toNat a hle]
    unfold Aligned at h
    omega

/-- A mapping on nodes is the mapping on records, and its list is laid out. -/
theorem mmap_nodes {k : Kernel} {x₁ : VmaList} {prot off : Word} (hf : FramesOk k.machine.pages)
    (h : Shown x vmas) (hk : ∀ v ∈ vmas, KeptNode k.machine v.node)
    (hm : (NodeSpaces.mmap k x ⟨none,0,len,prot,off,false⟩).space = some (x₁,true)) :
    ∃ vmas' v, doMmap k vmas 0 len prot off false =
        ((NodeSpaces.mmap k x ⟨none,0,len,prot,off,false⟩).kernel,.mapped vmas' v) ∧
      Shown x₁ vmas' ∧ ∀ w ∈ vmas',
        KeptNode (NodeSpaces.mmap k x ⟨none,0,len,prot,off,false⟩).kernel.machine w.node := by
  obtain ⟨hkernel,hrender⟩ := mmap_renders hf k x vmas ⟨none,0,len,prot,off,false⟩
    (grows_same rfl rfl) (laid_start x vmas h hk)
  rw [hm, VmaRuns.mmap_anonymous] at hrender
  rw [hkernel, VmaRuns.mmap_anonymous]
  obtain ⟨vmas',hregion,hlaid⟩ := renders_some hrender
  generalize doMmap k vmas 0 len prot off false = r at *
  obtain ⟨k₁,region⟩ := r
  cases region with
  | mapped vmas'' v =>
    obtain rfl : vmas'' = vmas' := by simpa [regionView] using hregion
    exact ⟨vmas'',v,rfl,hlaid.shown,hlaid.kept⟩
  | failed => simp [regionView] at hregion
  | wild => simp [regionView] at hregion

/-- A mapping that starts with a page is undone by an unmapping of the same range
exactly if the area behind the VMA at which the search stops is one to be undone. -/
theorem munmap_undoes_iff (k : Kernel) (x x₁ : VmaList) (vmas : List Vma) (len prot off : Word)
    (hf : FramesOk k.machine.pages) (h : Shown x vmas) (hk : ∀ v ∈ vmas, KeptNode k.machine v.node)
    (hm : (NodeSpaces.mmap k x ⟨none,0,len,prot,off,false⟩).space = some (x₁,true))
    (hal : Aligned (mappedAt k x₁)) :
    (∃ k₂ closes x₂, sysMunmap (NodeSpaces.mmap k x ⟨none,0,len,prot,off,false⟩).kernel x₁
      (mappedAt k x₁) len = some (1,k₂,closes,x₂) ∧ Shown x₂ vmas) ↔
      ∀ c ∈ stop len vmas, Undone vmas len (c.1.endAddr+1) := by
  obtain ⟨vmas',v,hmap,hshown,hkept⟩ := mmap_nodes hf h hk hm
  obtain ⟨hsearch,hlow,hv,hadd⟩ := doMmap_mapped hmap
  obtain ⟨post,hsplit,rfl,_⟩ := addVma_ahead hadd
  have hnode : v.node = (object k.machine).2 := by
    rw [hv]
    rfl
  have hstart : mappedAt k x₁ = v.startAddr := by
    rw [mappedAt, ← hnode, hshown.records v (by simp)]
  have hend : v.endAddr = v.startAddr+4095*(len/4097+1) := by
    rw [hv]
    rfl
  rw [hstart] at hal ⊢
  have ht : ¬ HintTaken (kernbase/3) len vmas :=
    fun ht => hint_unaligned ht hsearch hal
  obtain ⟨c,hc,hbehind⟩ := search_start ht hsearch hlow
  have htakes := takes_out_iff hshown hkept v.startAddr len
  rw [← hsplit, pageRoundUp_aligned hal] at htakes
  simp only [htakes, hc, ← hbehind, Option.mem_some_iff, forall_eq']
  constructor
  · rintro ⟨hne,hreach,hothers⟩
    rw [hend] at hne hothers
    exact ⟨hne,hend ▸ hreach.2,hothers⟩
  · intro hu
    rw [hend]
    exact ⟨hu.behind,⟨BitVec.le_refl _,hend ▸ hu.reached⟩,hu.others⟩

theorem tiny_low (node fp : KernelPtr) : Low (tinySegment node fp) := by
  constructor
  case start => rfl
  case proper => exact show (0x400000 : Word) < 0x401000 by decide
  case below => exact show (0x401000 : Word) ≤ 0x402000 by decide

def mappedSpace (seg : Vma) (node : KernelPtr) (k : Kernel) (len : Word) : List Vma :=
  [seg,tinyHeap node,regionVma (object k.machine).2 none 0x402000 0 len 0 3,stackVma]

theorem tiny_mapped (len : Word) (hlen : 1 ≤ len.toNat) (hmax : len.toNat < 2^40) :
    ∃ e seg node x₁, NodeSpaces.doExecve (fun _ => tinyElf) firstKernel (pairList 0).nodes
        plainArgs = some e ∧ e.ok = true ∧ Low seg ∧
      FramesOk e.kernel.machine.pages ∧ Shown ⟨e.nodes,e.mm.vma⟩ (smallSpace seg node) ∧
      (∀ v ∈ smallSpace seg node, KeptNode e.kernel.machine v.node) ∧
      (NodeSpaces.mmap e.kernel ⟨e.nodes,e.mm.vma⟩ ⟨none,0,len,3,0,false⟩).space = some (x₁,true) ∧
      Shown x₁ (mappedSpace seg node e.kernel len) ∧
      ∀ v ∈ mappedSpace seg node e.kernel len, KeptNode
        (NodeSpaces.mmap e.kernel ⟨e.nodes,e.mm.vma⟩ ⟨none,0,len,3,0,false⟩).kernel.machine
          v.node := by
  obtain ⟨img,frames,node,fp,node',himg,hok,hvma,hs,_,_⟩ := tiny_image first_coherent
    (fun u _ => first_tables u) first_supplied
  obtain ⟨e,he,hd⟩ := exec_made (pairList 0).nodes first_supplied.1 himg hs.2.1
  have hlaid := hd.laid
  rw [hvma] at hlaid
  have hseg := tiny_low node fp
  have hmap := small_region hseg node' len hlen hmax (alloc_supplied hs).2
  obtain ⟨hkernel,hrender⟩ := mmap_renders hs.1 img.kernel ⟨e.nodes,e.mm.vma⟩ (smallSpace _ node')
    ⟨none,0,len,3,0,false⟩ (grows_same rfl rfl) (laid_start _ _ hlaid.shown hlaid.kept)
  rw [VmaRuns.mmap_anonymous, hmap] at hrender
  obtain ⟨x₁,hx₁,hlaid₁⟩ := hrender
  have hkept := hlaid₁.kept
  have hmachine : (doMmap img.kernel (smallSpace (tinySegment node fp) node') 0 len 3 0 false).1 =
      ⟨(object img.kernel.machine).1,img.kernel.fRefcount⟩ := congrArg Prod.fst hmap
  rw [VmaRuns.mmap_anonymous, hmachine] at hkernel
  refine ⟨e,_,node',x₁,he,hd.ok.trans hok,hseg,?_⟩
  rw [hd.kernel]
  refine ⟨hs.1,hlaid.shown,hlaid.kept,hx₁,hlaid₁.shown,?_⟩
  rw [hkernel]
  exact hkept

section
variable {seg : Vma} (hseg : Low seg) (node : KernelPtr)
include hseg

theorem small_ahead (stop : Word) (hlt : 0x402000 < stop) (hle : stop ≤ stackStart) :
    ahead 0x402000 stop (smallSpace seg node) = [seg,tinyHeap node] := by
  have hfirst : ¬ ∃ first ∈ (smallSpace seg node).head?, stop ≤ first.startAddr := by
    rintro ⟨first,hfirst,hstop⟩
    obtain rfl := Option.some.inj hfirst
    rw [hseg.start] at hstop
    exact absurd (BitVec.le_trans (BitVec.le_of_lt hlt) hstop) (by decide)
  have hsecond : ¬ (seg.endAddr ≤ 0x402000 ∧ stop ≤ (tinyHeap node).startAddr) := by
    rintro ⟨_,hstop⟩
    exact absurd (BitVec.le_trans (BitVec.le_of_lt hlt) hstop)
      (show ¬ (0x402000 : Word) ≤ 0x401000 by decide)
  have hthird : (tinyHeap node).endAddr ≤ 0x402000 ∧ stop ≤ stackVma.startAddr :=
    ⟨show (0x401FFF : Word) ≤ 0x402000 by decide,hle⟩
  rw [ahead, if_neg hfirst, smallSpace, aheadFrom, if_neg hsecond, aheadFrom, if_pos hthird]

theorem small_not_reaching (len : Word) (hlen : 1 ≤ len.toNat) (hmax : len.toNat < 2^40) :
    ∀ w ∈ [seg,tinyHeap node], ¬ Reaches 0x402000 len w := by
  have hsum : (0x402000+len).toNat = 0x402000+len.toNat := by
    rw [BitVec.toNat_add, show (0x402000 : Word).toNat = 0x402000 from rfl]
    omega
  have hout : ∀ w : Vma, w.endAddr.toNat ≤ 0x402000 → ¬ Reaches 0x402000 len w := by
    rintro w hw ⟨_,hreach⟩
    rw [BitVec.le_def, hsum, VmaRuns.pageRoundDown_toNat _ (by omega)] at hreach
    omega
  intro w hw
  simp only [List.mem_cons, List.not_mem_nil, or_false] at hw
  rcases hw with rfl | rfl
  · exact hout _ hseg.below
  · exact hout _ (show 0x401FFF ≤ 0x402000 by decide)

end

theorem munmap_undoes_iff_page : ∃ e vmas x₁ k₂ closes x₂,
    NodeSpaces.doExecve (fun _ => tinyElf) firstKernel (pairList 0).nodes plainArgs = some e ∧
    Shown ⟨e.nodes,e.mm.vma⟩ vmas ∧
    (NodeSpaces.mmap e.kernel ⟨e.nodes,e.mm.vma⟩ ⟨none,0,4096,3,0,false⟩).space = some (x₁,true) ∧
    sysMunmap (NodeSpaces.mmap e.kernel ⟨e.nodes,e.mm.vma⟩ ⟨none,0,4096,3,0,false⟩).kernel x₁
      (mappedAt e.kernel x₁) 4096 = some (1,k₂,closes,x₂) ∧ Shown x₂ vmas := by
  obtain ⟨e,seg,node,x₁,he,_,hseg,hf,hshown,hkept,hx₁,hshown₁,_⟩ := tiny_mapped 4096 (by decide)
    (by decide)
  have hstart : mappedAt e.kernel x₁ = 0x402000 :=
    congrArg Vma.startAddr (hshown₁.records (regionVma (object e.kernel.machine).2 none 0x402000 0
      4096 0 3) (by simp [mappedSpace]))
  obtain ⟨k₂,closes,x₂,hm,hx₂⟩ := (munmap_undoes_iff e.kernel ⟨e.nodes,e.mm.vma⟩ x₁ _ 4096 3 0 hf
    hshown hkept hx₁ (by rw [hstart]; decide)).mpr (by
      simp only [(small_stop hseg node 4096 (by decide)).2, Option.mem_some_iff, forall_eq']
      have hahead := small_ahead hseg node (0x402000+4095*(4096/4097+1)) (by decide) (by decide)
      constructor
      case behind =>
        refine hahead ▸ ?_
        simp
      case reached =>
        exact show (0x402000 : Word)+pageRoundDown 4096 ≤ pageRoundDown 0x402FFF by decide
      case others =>
        refine hahead ▸ ?_
        exact small_not_reaching hseg node 4096 (by decide) (by decide))
  exact ⟨e,_,x₁,k₂,closes,x₂,he,hshown,hx₁,hm,hx₂⟩

/-- Three pages are started and the VMA reaches over two, so that no VMA is found. -/
theorem munmap_third_page_not_found : ∃ e x₁,
    NodeSpaces.doExecve (fun _ => tinyElf) firstKernel (pairList 0).nodes plainArgs = some e ∧
    (NodeSpaces.mmap e.kernel ⟨e.nodes,e.mm.vma⟩ ⟨none,0,8193,3,0,false⟩).space = some (x₁,true) ∧
    mappedAt e.kernel x₁ = 0x402000 ∧
    (sysMunmap (NodeSpaces.mmap e.kernel ⟨e.nodes,e.mm.vma⟩ ⟨none,0,8193,3,0,false⟩).kernel x₁
      0x402000 8193).map Prod.fst = some (-1) := by
  obtain ⟨e,seg,node,x₁,he,_,hseg,_,_,_,hx₁,hshown₁,hkept₁⟩ := tiny_mapped 8193 (by decide)
    (by decide)
  have hstart : mappedAt e.kernel x₁ = 0x402000 :=
    congrArg Vma.startAddr (hshown₁.records (regionVma (object e.kernel.machine).2 none 0x402000 0
      8193 0 3) (by simp [mappedSpace]))
  refine ⟨e,x₁,he,hx₁,hstart,?_⟩
  have hnone : (mappedSpace seg node e.kernel 8193).find?
      (fun v => Reaches (pageRoundUp 0x402000) (pageRoundDown 8193) v) = none := by
    rw [List.find?_eq_none, show pageRoundUp 0x402000 = 0x402000 by decide,
      show pageRoundDown 8193 = 0x3000 by decide]
    have hlow := small_not_reaching hseg node 0x3000 (by decide) (by decide)
    intro v hv
    rw [decide_eq_true_iff]
    simp only [mappedSpace, List.mem_cons, List.not_mem_nil, or_false] at hv
    rcases hv with rfl | rfl | rfl | rfl
    · exact hlow _ (by simp)
    · exact hlow _ (by simp)
    · exact fun h => absurd (show (0x405000 : Word) ≤ pageRoundDown 0x403FFE from h.2) (by decide)
    · exact fun h => absurd h.1 (by decide)
  rw [sysMunmap, munmapRegion_records hshown₁ hkept₁, hnone]
  rfl

end PreemptiveOS.Unmapping
