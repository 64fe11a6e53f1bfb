import PreemptiveOS.VmaRanges
import PreemptiveOS.Supply

/-!
# The VMAs of a process from its exec on

The segments of an executable, the heap behind the last of them, the stack and
then the mappings a process asks for. They claim no address twice if there is
a gap behind every segment, if the part of the last segment that is not in the
file ends before the heap, and if every mapping fits below the stack.
-/

set_option autoImplicit false

namespace PreemptiveOS.VmaRuns
open ByteMemory PhysMmgr VirtMmgr PageTree Vmas KernelObjects Exec Supply PageFaults ExecLeaves
open VmaRanges

structure MmapCall where
  source : Option (KernelPtr × BitVec 32)
  addr : Word
  len : Word
  prot : Word
  off : Word
  privateAndShared : Bool

def fileSize (c : MmapCall) : Word :=
  match c.source with
  | none => 0
  | some (_,size) => size.signExtend 64

def mmap (k : Kernel) (vmas : List Vma) (c : MmapCall) : Kernel × Region :=
  let ulen := pageRoundUp c.len
  if ulen = 0 ∨ c.off+(ulen >>> 12) < c.off ∨ kernbase < ulen ∨ c.privateAndShared then
    (k,.failed)
  else
    match getUnmappedArea vmas c.addr c.len with
    | none => (k,.wild)
    | some area =>
      mmapRegion k vmas (c.source.map Prod.fst) area (fileSize c) c.len c.off c.prot

theorem mmap_anonymous (k : Kernel) (vmas : List Vma) (addr len prot off : Word)
    (privateAndShared : Bool) :
    mmap k vmas ⟨none,addr,len,prot,off,privateAndShared⟩ =
      doMmap k vmas addr len prot off privateAndShared := rfl

def mmaps : Kernel → List Vma → List MmapCall → Option (Kernel × List Vma)
  | k, vmas, [] => some (k,vmas)
  | k, vmas, c::calls =>
    match mmap k vmas c with
    | (k',.mapped vmas' _) => mmaps k' vmas' calls
    | _ => none

def built (file : KernelPtr) (phdrs : List Elf64Phdr) (k : Kernel) (cr3 : Word)
    (args : ExecArgs) : Kernel × Stage :=
  let loaded := loadSegments file phdrs k []
  match loaded.2 with
  | .ok vmas =>
    let rest := heapAndStack loaded.1.machine cr3 vmas args
    ({ loaded.1 with machine := rest.1 },rest.2)
  | stage => (loaded.1,stage)

variable {k : Kernel} {file : KernelPtr} {vmas : List Vma}

theorem loadElfBinary_segments {files : KernelPtr → FileData}
    (h : (loadElfBinary files k file).2 = .ok vmas) :
    ∃ phdrs k', loadSegments file phdrs k' [] = loadElfBinary files k file := by
  unfold loadElfBinary at h ⊢
  cases hehdr : (loadElfEhdr k.machine (files file)).2 with
  | none => simp [hehdr] at h
  | some ehdr =>
    by_cases hvalid : checkElfFileValidity (loadElfEhdr k.machine (files file)).1.mem ehdr = true
    · simp only [hehdr, hvalid, if_true] at h ⊢
      split at h
      · by_cases hn : (ePhnum (loadElfPhdr (loadElfEhdr k.machine (files file)).1 ehdr
            (files file)).1.mem ehdr).toNat = 0
        · rw [if_pos hn]
          exact ⟨[],_,rfl⟩
        · simp [hn] at h
      · exact ⟨_,_,rfl⟩
    · simp [hehdr, hvalid] at h

theorem exec_built (files : KernelPtr → FileData) (k : Kernel) (args : ExecArgs) (img : Image)
    (h : doExecve files k args = some img) (hok : img.ok = true) :
    ∃ file phdrs k', (built file phdrs k' img.mm.cr3 args).2 = .ok img.mm.vma := by
  simp only [doExecve] at h
  split at h
  · cases h
  · rename_i file _
    split at h
    · rename_i vmas hload
      obtain ⟨_,hcr3,_,hstage⟩ := image_eq h
      obtain ⟨phdrs,k',hsegments⟩ := loadElfBinary_segments hload
      refine ⟨file,phdrs,k',?_⟩
      rw [built, hsegments, hcr3]
      simp only [hload]
      exact hstage hok
    · rename_i hload
      obtain ⟨_,_,_,hstage⟩ := image_eq h
      exact absurd (hstage hok) (hload _)

def segEnd (p : Elf64Phdr) : ℕ := p.pVaddr.toNat+p.pMemsz.toNat

def Loadable (phdrs : List Elf64Phdr) (p : Elf64Phdr) : Prop := p ∈ phdrs ∧ p.pType = 1

structure Spaced (phdrs : List Elf64Phdr) : Prop where
  apart : phdrs.Pairwise (fun p q => p.pType = 1 → q.pType = 1 →
    segEnd p < q.pVaddr.toNat ∨ segEnd q < p.pVaddr.toNat)
  bss : ∀ p, Loadable phdrs p → p.pFilesz < p.pMemsz →
    ∀ q, Loadable phdrs q → q.pVaddr ≤ p.pVaddr
  heap : ∀ p, Loadable phdrs p → (∀ q, Loadable phdrs q → q.pVaddr ≤ p.pVaddr) →
    segEnd p < (pageRoundDown (p.pVaddr+p.pFilesz)).toNat
  below : ∀ p, Loadable phdrs p → segEnd p+2*4096 ≤ (stackStart-3*4096).toNat

structure Shows (v : Vma) (p : Elf64Phdr) : Prop where
  upright : Upright v
  low : lo v = p.pVaddr.toNat
  high : hi v = segEnd p
  fileEnd : v.endAddr = p.pVaddr+p.pFilesz
  noBss : ¬ p.pFilesz < p.pMemsz → hi v = v.endAddr.toNat

theorem region_shows (node file : KernelPtr) (off prot : Word) (p : Elf64Phdr)
    (hle : p.pFilesz ≤ p.pMemsz) (hfit : segEnd p < 2^64) :
    Shows (regionVma node (some file) p.pVaddr p.pFilesz p.pMemsz off prot) p := by
  have hle' : p.pFilesz.toNat ≤ p.pMemsz.toNat := hle
  unfold segEnd at hfit
  have hfile : (p.pVaddr+p.pFilesz).toNat = p.pVaddr.toNat+p.pFilesz.toNat := by
    rw [BitVec.toNat_add]
    omega
  have hmem : (p.pVaddr+p.pMemsz).toNat = p.pVaddr.toNat+p.pMemsz.toNat := by
    rw [BitVec.toNat_add]
    omega
  have hend : (lookupEnd (regionVma node (some file) p.pVaddr p.pFilesz p.pMemsz off prot)).toNat =
      segEnd p := by
    simp only [lookupEnd, regionVma, Option.isSome_some, Option.isNone_some, true_and,
      Bool.false_eq_true, if_false]
    split_ifs with hbss
    · exact hmem
    · have hge : p.pMemsz.toNat ≤ p.pFilesz.toNat := not_lt.mp hbss
      rw [hfile, segEnd]
      omega
  have hup : Upright (regionVma node (some file) p.pVaddr p.pFilesz p.pMemsz off prot) := by
    unfold Upright
    rw [hend, segEnd]
    simp only [regionVma, Option.isNone_some, Bool.false_eq_true, if_false]
    omega
  obtain ⟨hlo,hhi⟩ := upright_range _ hup
  constructor
  case upright => exact hup
  case low => exact hlo
  case high => exact hhi.trans hend
  case fileEnd => rfl
  case noBss =>
    intro hbss
    have hge : p.pMemsz.toNat ≤ p.pFilesz.toNat := not_lt.mp hbss
    rw [hhi, hend]
    show segEnd p = (p.pVaddr+p.pFilesz).toNat
    rw [hfile, segEnd]
    omega

structure Loaded (done : List Elf64Phdr) (vmas : List Vma) : Prop where
  chain : vmas.IsChain Follows
  shown : ∀ v ∈ vmas, ∃ p, Loadable done p ∧ Shows v p
  all : ∀ p, Loadable done p → ∃ v ∈ vmas, Shows v p

variable {p : Elf64Phdr} {vmas' : List Vma} {v : Vma}

section
variable {done : List Elf64Phdr} {vmas : List Vma} (h : Loaded done vmas)
include h

theorem loaded_skip (hp : p.pType ≠ 1) : Loaded (done++[p]) vmas := by
  have hmem : ∀ q, Loadable (done++[p]) q → Loadable done q := by
    rintro q ⟨hq,htype⟩
    rcases List.mem_append.mp hq with hq | hq
    · exact ⟨hq,htype⟩
    · rw [List.mem_singleton.mp hq] at htype
      exact absurd htype hp
  constructor
  case chain => exact h.chain
  case shown =>
    intro v hv
    obtain ⟨q,hq,hshows⟩ := h.shown v hv
    exact ⟨q,⟨List.mem_append_left _ hq.1,hq.2⟩,hshows⟩
  case all => exact fun q hq => h.all q (hmem q hq)

theorem loaded_add {rest : List Elf64Phdr} (hp : p.pType = 1) (hspaced : Spaced (done++p::rest))
    (hv : Shows v p) (hadd : addVma vmas v = .added vmas') : Loaded (done++[p]) vmas' := by
  have hpl : Loadable (done++p::rest) p := ⟨by simp,hp⟩
  have hold : ∀ q, Loadable done q → Loadable (done++p::rest) q :=
    fun q hq => ⟨List.mem_append_left _ hq.1,hq.2⟩
  have hapart : ∀ c ∈ vmas, Apart v c := by
    intro c hc
    obtain ⟨q,hq,hshows⟩ := h.shown c hc
    have hqp := (List.pairwise_append.mp hspaced.apart).2.2 q hq.1 p List.mem_cons_self hq.2 hp
    unfold Apart Below
    rw [hv.low, hv.high, hshows.low, hshows.high]
    exact hqp.symm
  obtain ⟨pre,post,rfl,rfl,hpre,hpost⟩ := added_place v vmas vmas' (follows_sorted h.chain)
    (upright_proper v hv.upright)
    (fun c hc => upright_proper c (h.shown c hc).choose_spec.2.upright) hapart hadd
  -- a segment with another one above it has no bss
  have hplain : ∀ c q d, Loadable (done++p::rest) q → Shows c q → Below c d →
      (∃ q', Loadable (done++p::rest) q' ∧ Shows d q') → hi c = c.endAddr.toNat := by
    rintro c q d hq hc hcd ⟨q',hq',hd⟩
    apply hc.noBss
    intro hbss
    have hle : q'.pVaddr.toNat ≤ q.pVaddr.toNat := hspaced.bss q hq hbss q' hq'
    have hlohi := lo_le_hi c
    unfold Below at hcd
    rw [hd.low] at hcd
    rw [hc.low] at hlohi
    omega
  constructor
  case chain =>
    apply insert_follows pre post v h.chain hpre hpost
    · intro hne
      obtain ⟨c,post,rfl⟩ := List.exists_cons_of_ne_nil hne
      obtain ⟨q,hq,hc⟩ := h.shown c (by simp)
      exact hplain v p c hpl hv (hpost c List.mem_cons_self) ⟨q,hold q hq,hc⟩
    · intro _ a ha
      have hmem := List.mem_of_mem_getLast? ha
      obtain ⟨q,hq,hshows⟩ := h.shown a (List.mem_append_left _ hmem)
      exact Or.inl (hplain a q v (hold q hq) hshows (hpre a hmem) ⟨p,hpl,hv⟩)
  case shown =>
    intro c hc
    rcases List.mem_append.mp hc with hc | hc
    · obtain ⟨q,hq,hshows⟩ := h.shown c (List.mem_append_left _ hc)
      exact ⟨q,⟨List.mem_append_left _ hq.1,hq.2⟩,hshows⟩
    · rcases List.mem_cons.mp hc with rfl | hc
      · exact ⟨p,⟨by simp,hp⟩,hv⟩
      · obtain ⟨q,hq,hshows⟩ := h.shown c (List.mem_append_right _ hc)
        exact ⟨q,⟨List.mem_append_left _ hq.1,hq.2⟩,hshows⟩
  case all =>
    rintro q ⟨hq,htype⟩
    rcases List.mem_append.mp hq with hq | hq
    · obtain ⟨c,hc,hshows⟩ := h.all q ⟨hq,htype⟩
      refine ⟨c,?_,hshows⟩
      rcases List.mem_append.mp hc with hc | hc
      · exact List.mem_append_left _ hc
      · exact List.mem_append_right _ (List.mem_cons_of_mem _ hc)
    · rw [List.mem_singleton.mp hq]
      exact ⟨v,by simp,hv⟩

end

variable {k' : Kernel}

theorem mmapRegion_mapped {file : Option KernelPtr} {addr filesz memsz off prot : Word}
    (h : mmapRegion k vmas file addr filesz memsz off prot = (k',.mapped vmas' v)) :
    filesz ≤ memsz ∧ v = regionVma (object k.machine).2 file addr filesz memsz off prot ∧
      addVma vmas v = .added vmas' := by
  unfold mmapRegion at h
  split_ifs at h with _ _ hsize
  · cases h
  · cases h
  · cases h
  · simp only at h
    cases hadd : addVma vmas (regionVma (object k.machine).2 file addr filesz memsz off prot) with
    | added vmas₁ =>
      simp only [hadd, Prod.mk.injEq, Region.mapped.injEq] at h
      obtain ⟨_,rfl,rfl⟩ := h
      exact ⟨BitVec.not_lt.mp hsize,rfl,hadd⟩
    | failed => simp [hadd] at h
    | wild => simp [hadd] at h

theorem loadSegments_loaded {phdrs : List Elf64Phdr} (done : List Elf64Phdr) (k k' : Kernel)
    (vmas vmas' : List Vma) (hspaced : Spaced (done++phdrs)) (hl : Loaded done vmas)
    (h : loadSegments file phdrs k vmas = (k',.ok vmas')) : Loaded (done++phdrs) vmas' := by
  induction phdrs generalizing done k vmas with
  | nil =>
    simp only [loadSegments, Prod.mk.injEq, Stage.ok.injEq] at h
    rw [List.append_nil, ← h.2]
    exact hl
  | cons p phdrs ih =>
    have hsplit : done++p::phdrs = done++[p]++phdrs := by simp
    rw [loadSegments] at h
    rw [hsplit]
    by_cases htype : p.pType = 1
    · rw [if_pos htype] at h
      split at h
      · cases h
      · cases h
      · rename_i vmas₁ v hmapped
        by_cases hsign : (p.pVaddr.setWidth 32).msb = true
        · rw [if_pos hsign] at h
          cases h
        rw [if_neg hsign] at h
        obtain ⟨hsize,hv,hadd⟩ := mmapRegion_mapped (Prod.ext rfl hmapped)
        have hbelow := hspaced.below p ⟨by simp,htype⟩
        have hshows : Shows v p := by
          rw [hv]
          apply region_shows _ file _ _ p hsize
          have := (stackStart-3*4096).isLt
          omega
        exact ih (done++[p]) _ vmas₁ (hsplit ▸ hspaced)
          (loaded_add hl htype hspaced hshows hadd) h
    · rw [if_neg htype] at h
      exact ih (done++[p]) k vmas (hsplit ▸ hspaced) (loaded_skip hl htype) h

theorem stack_range : lo stackVma = (stackStart-3*4096).toNat ∧ Proper stackVma := by
  unfold Proper
  decide

theorem pageRoundDown_toNat (a : Word) (h : a.toNat+4095 < 2^64) :
    (pageRoundDown a).toNat = (a.toNat+4095)/4096*4096 := by
  rw [pageRoundDown, masked_toNat, BitVec.toNat_add, show (0xFFF : Word).toNat = 4095 from rfl,
    Nat.mod_eq_of_lt h]

variable {s s' : Machine}

theorem addNode_ok (h : addNode s vmas v = (s',.ok vmas')) : addVma vmas v = .added vmas' := by
  rw [addNode] at h
  cases hadd : addVma vmas v with
  | added vmas₁ =>
    simp only [hadd, Prod.mk.injEq, Stage.ok.injEq] at h
    rw [h.2]
  | failed => simp [hadd] at h
  | wild => simp [hadd] at h

structure Settled (body : List Vma) : Prop where
  two : 2 ≤ body.length
  chain : (body++[stackVma]).IsChain Follows
  upright : ∀ v ∈ body, Upright v

section
variable {phdrs : List Elf64Phdr} (hspaced : Spaced phdrs)
include hspaced

theorem loaded_last {last : Vma} (hl : Loaded phdrs (vmas++[last])) :
    ∃ p, Loadable phdrs p ∧ Shows last p ∧ hi last < (pageRoundDown last.endAddr).toNat := by
  obtain ⟨p,hp,hshows⟩ := hl.shown last (by simp)
  refine ⟨p,hp,hshows,?_⟩
  rw [hshows.high, hshows.fileEnd]
  apply hspaced.heap p hp
  intro q hq
  obtain ⟨c,hc,hcq⟩ := hl.all q hq
  show q.pVaddr.toNat ≤ p.pVaddr.toNat
  rw [← hcq.low, ← hshows.low]
  rcases List.mem_append.mp hc with hc | hc
  · have hbelow := (List.pairwise_append.mp (follows_sorted hl.chain)).2.2 c hc last (by simp)
    have hlohi := lo_le_hi c
    unfold Below at hbelow
    omega
  · rw [List.mem_singleton.mp hc]

theorem heap_added (hl : Loaded phdrs vmas) (h : doHeapVma s vmas = (s',.ok vmas')) :
    ∃ heap, vmas' = vmas++[heap] ∧ vmas ≠ [] ∧ Upright heap ∧ hi heap = heap.endAddr.toNat ∧
      hi heap < lo stackVma ∧ vmas'.IsChain Follows := by
  cases hlast : vmas.getLast? with
  | none => simp [doHeapVma, hlast] at h
  | some last =>
    obtain ⟨init,rfl⟩ := List.getLast?_eq_some_iff.mp hlast
    obtain ⟨p,hp,hshows,hstart⟩ := loaded_last hspaced hl
    have hfits := hspaced.below p hp
    have hend : last.endAddr.toNat ≤ hi last := (upright_proper last hshows.upright).2
    have hround := pageRoundDown_toNat last.endAddr
      (by have := hshows.high; have := (stackStart-3*4096).isLt; omega)
    simp only [doHeapVma, hlast] at h
    have hadd := addNode_ok h
    generalize hheap : (⟨(object s).2,pageRoundDown last.endAddr,pageRoundDown last.endAddr+4095,0,
      4096,0,protWrite,none,.doAnonFault⟩ : Vma) = heap at hadd
    have hlookup : lookupEnd heap = heap.endAddr := by rw [← hheap]; rfl
    have hfirst : heap.startAddr.toNat = (pageRoundDown last.endAddr).toNat := by rw [← hheap]
    have hlen : heap.endAddr.toNat = (pageRoundDown last.endAddr).toNat+4095 := by
      rw [← hheap, BitVec.toNat_add, show (4095 : Word).toNat = 4095 from rfl]
      have := hshows.high
      have := (stackStart-3*4096).isLt
      omega
    have hup : Upright heap := by
      unfold Upright
      rw [hlookup]
      omega
    obtain ⟨hlo,hhi⟩ := upright_range heap hup
    rw [hlookup] at hhi
    have hbelow : ∀ c ∈ init++[last], Below c heap := by
      intro c hc
      unfold Below
      rcases List.mem_append.mp hc with hc | hc
      · have hcl := (List.pairwise_append.mp (follows_sorted hl.chain)).2.2 c hc last (by simp)
        have hlohi := lo_le_hi last
        unfold Below at hcl
        omega
      · rw [List.mem_singleton.mp hc]
        omega
    have hvmas := added_last (follows_sorted hl.chain) (upright_proper heap hup)
      (fun c hc => upright_proper c (hl.shown c hc).choose_spec.2.upright) hbelow hadd
    refine ⟨heap,hvmas,by simp,hup,hhi,?_,?_⟩
    · rw [stack_range.1, hhi]
      have := hshows.high
      omega
    · rw [hvmas]
      apply insert_follows _ [] heap (by rw [List.append_nil]; exact hl.chain) hbelow (by simp)
        (by simp)
      intro _ a ha
      obtain rfl : last = a := by simpa using ha
      right
      omega

omit hspaced in
theorem stack_settled {heap : Vma} (hl : Loaded phdrs vmas) (hne : vmas ≠ []) (hup : Upright heap)
    (hhi : hi heap = heap.endAddr.toNat) (hroom : hi heap < lo stackVma)
    (hchain : (vmas++[heap]).IsChain Follows)
    (hadd : addVma (vmas++[heap]) stackVma = .added vmas') :
    vmas' = vmas++[heap]++[stackVma] ∧ Settled (vmas++[heap]) := by
  have hsorted := follows_sorted hchain
  have hupright : ∀ v ∈ vmas++[heap], Upright v := by
    intro v hv
    rcases List.mem_append.mp hv with hv | hv
    · exact (hl.shown v hv).choose_spec.2.upright
    · rwa [List.mem_singleton.mp hv]
  have hbelow : ∀ c ∈ vmas++[heap], Below c stackVma := by
    intro c hc
    rcases List.mem_append.mp hc with hc | hc
    · exact below_trans c heap _ ((List.pairwise_append.mp hsorted).2.2 c hc heap (by simp)) hroom
    · rwa [List.mem_singleton.mp hc]
  refine ⟨added_last hsorted stack_range.2 (fun c hc => upright_proper c (hupright c hc))
    hbelow hadd,?_⟩
  constructor
  case two =>
    have := List.length_pos_of_ne_nil hne
    rw [List.length_append, List.length_singleton]
    omega
  case chain =>
    apply insert_follows _ [] stackVma (by rw [List.append_nil]; exact hchain) hbelow (by simp)
      (by simp)
    intro _ a ha
    obtain rfl : heap = a := by simpa using ha
    exact Or.inl hhi
  case upright => exact hupright

theorem built_settled {k₁ : Kernel} {cr3 : Word} {args : ExecArgs}
    (h : built file phdrs k cr3 args = (k₁,.ok vmas)) :
    ∃ body, vmas = body++[stackVma] ∧ Settled body := by
  have hempty : Loaded [] [] :=
    ⟨List.isChain_nil,by simp,fun p hp => absurd hp.1 List.not_mem_nil⟩
  cases hload : loadSegments file phdrs k [] with
  | mk k' stage =>
    cases stage with
    | failed _ => simp [built, hload] at h
    | wild => simp [built, hload] at h
    | ok segments =>
      have hl := loadSegments_loaded [] k k' [] segments hspaced hempty hload
      rw [List.nil_append] at hl
      cases hheap : doHeapVma k'.machine segments with
      | mk s stage =>
        cases stage with
        | failed _ => simp [built, hload, heapAndStack, hheap] at h
        | wild => simp [built, hload, heapAndStack, hheap] at h
        | ok segments' =>
          obtain ⟨heap,hvmas,hne,hup,hhi,hroom,hchain⟩ :=
            heap_added hspaced hl hheap
          simp only [built, hload, heapAndStack, hheap, Prod.mk.injEq] at h
          have hadd : addVma segments' stackVma = .added vmas :=
            addNode_ok (Prod.ext rfl h.2)
          rw [hvmas] at hadd hchain
          exact ⟨_,stack_settled hl hne hup hhi hroom hchain hadd⟩

end

def hint (c : MmapCall) : Word := if c.addr = 0 then kernbase/3 else c.addr

def extent (c : MmapCall) : ℕ :=
  if c.source.isNone then 4095*(c.len.toNat/4097+1) else c.len.toNat

structure Roomy (vmas : List Vma) (c : MmapCall) : Prop where
  whole : c.source.isSome → fileSize c = c.len
  straight : (hint c).toNat+4096+c.len.toNat < 2^64
  first : ∀ v ∈ vmas.head?, (hint c).toNat+extent c < lo v ∨ hi v < (hint c).toNat
  room : ∀ v ∈ vmas, v ≠ stackVma → v.endAddr.toNat+4097+c.len.toNat ≤ lo stackVma

theorem extent_le (c : MmapCall) : extent c ≤ c.len.toNat+4095 := by
  unfold extent
  split_ifs <;> omega

variable {area : Word}

section
variable {body : List Vma} (hs : Settled body) (c : MmapCall) (hr : Roomy (body++[stackVma]) c)
include hs hr

theorem body_room (hv : v ∈ body) : v.endAddr.toNat+4097+c.len.toNat ≤ lo stackVma := by
  apply hr.room v (List.mem_append_left _ hv)
  rintro rfl
  have hbelow := (List.pairwise_append.mp (follows_sorted hs.chain)).2.2 stackVma hv stackVma
    (by simp)
  have hlohi := lo_le_hi stackVma
  unfold Below at hbelow
  omega

theorem area_free (h : getUnmappedArea (body++[stackVma]) c.addr c.len = some area) :
    (∃ v ∈ body++[stackVma], area.toNat+extent c < lo v) ∧
    ∀ v ∈ body++[stackVma], area.toNat+extent c < lo v ∨ hi v < area.toNat := by
  have hext := extent_le c
  have hsorted := follows_sorted hs.chain
  obtain ⟨first,second,rest,rfl⟩ : ∃ first second rest, body = first::second::rest := by
    have htwo := hs.two
    match body with
    | [] => simp at htwo
    | [_] => simp at htwo
    | first::second::rest => exact ⟨first,second,rest,rfl⟩
  have hup := hs.upright
  have hfirst := hr.first first rfl
  have hstraight := hr.straight
  have hlow := (upright_range first (hup first (by simp))).1
  have hproper := (upright_proper first (hup first (by simp))).1
  have hlow' := (upright_range second (hup second (by simp))).1
  change doFirstFitSearch (first::second::(rest++[stackVma])) (hint c) c.len = some area at h
  rw [doFirstFitSearch] at h
  split_ifs at h with hfront
  · -- in front of the first VMA
    obtain rfl := Option.some.inj h
    have hlt : (hint c).toNat < first.startAddr.toNat := hfront.1
    have hlohi := lo_le_hi first
    refine ⟨⟨first,by simp,by omega⟩,outside_gap [] _ hsorted _ _ (by simp) ?_⟩
    intro b hb
    obtain rfl : first = b := by simpa using hb
    omega
  · have hsum : (hint c+4096+c.len).toNat = (hint c).toNat+4096+c.len.toNat := by
      rw [BitVec.toNat_add, BitVec.toNat_add, show (4096 : Word).toNat = 4096 from rfl]
      omega
    rw [doFirstFitFrom] at h
    split_ifs at h with hgap
    · -- where the caller asked for it, behind the first VMA
      obtain rfl := Option.some.inj h
      have hge : first.endAddr.toNat ≤ (hint c).toNat := hgap.1
      have hle : (hint c+4096+c.len).toNat ≤ second.startAddr.toNat := hgap.2
      refine ⟨⟨second,by simp,by omega⟩,
        outside_gap [first] (second::rest++[stackVma]) hsorted _ _ ?_ ?_⟩
      · intro a ha
        obtain rfl : first = a := by simpa using ha
        omega
      · intro b hb
        obtain rfl : second = b := by simpa using hb
        omega
    · obtain rfl := Option.some.inj h
      obtain ⟨pre,a,b,post,he,hlt,hle⟩ := firstFit_place second
        (List.isChain_cons_cons.mp hs.chain).2 (fun v hv => hup v (List.mem_cons_of_mem _ hv))
        (fun v hv => body_room hs c hr (List.mem_cons_of_mem _ hv))
      have hlist : first::second::rest++[stackVma] = (first::pre++[a])++b::post :=
        (congrArg (List.cons first) he).trans (by simp)
      rw [hlist] at hsorted ⊢
      refine ⟨⟨b,by simp,by omega⟩,outside_gap (first::pre++[a]) (b::post) hsorted _ _ ?_ ?_⟩
      · intro a' ha
        rw [List.getLast?_concat] at ha
        obtain rfl := Option.some.inj ha
        exact hlt
      · intro b' hb
        obtain rfl : b = b' := by simpa using hb
        omega

end

theorem regionEnd_toNat (a len : Word) :
    (a+4095*(len/4097+1)).toNat = (a.toNat+4095*(len.toNat/4097+1))%2^64 := by
  have hdiv : (len/4097).toNat = len.toNat/4097 := BitVec.toNat_udiv
  have hlen := len.isLt
  have hone : (len/4097+1).toNat = len.toNat/4097+1 := by
    rw [BitVec.toNat_add, hdiv, show (1 : Word).toNat = 1 from rfl]
    omega
  rw [BitVec.toNat_add, BitVec.toNat_mul, hone, show (4095 : Word).toNat = 4095 from rfl]
  omega

variable {c : MmapCall}

/-- The VMA of a mapping claims what it was made for and no more. -/
theorem mapped_range {node : KernelPtr} (hwhole : c.source.isSome → fileSize c = c.len)
    (hfit : area.toNat+extent c < 2^64)
    (hv : v = regionVma node (c.source.map Prod.fst) area (fileSize c) c.len c.off c.prot) :
    lo v = area.toNat ∧ hi v = area.toNat+extent c ∧ Upright v ∧ hi v = v.endAddr.toNat := by
  have hends : v.startAddr = area ∧ v.endAddr.toNat = area.toNat+extent c ∧
      lookupEnd v = v.endAddr := by
    rw [hv]
    obtain ⟨source,addr,len,prot,off,both⟩ := c
    cases source with
    | none =>
      refine ⟨rfl,?_,rfl⟩
      change area.toNat+4095*(len.toNat/4097+1) < 2^64 at hfit
      exact (regionEnd_toNat area len).trans (Nat.mod_eq_of_lt hfit)
    | some source =>
      have hsize : fileSize _ = len := hwhole rfl
      refine ⟨rfl,?_,?_⟩
      · change area.toNat+len.toNat < 2^64 at hfit
        show (area+fileSize _).toNat = area.toNat+len.toNat
        rw [hsize, BitVec.toNat_add]
        omega
      · rw [lookupEnd, if_neg]
        rintro ⟨_,hlt⟩
        change fileSize _ < len at hlt
        rw [hsize] at hlt
        exact absurd hlt (BitVec.lt_irrefl _)
  obtain ⟨hstart,hend,hlookup⟩ := hends
  have hup : Upright v := by
    unfold Upright
    rw [hlookup, hstart, hend]
    omega
  obtain ⟨hlo,hhi⟩ := upright_range v hup
  rw [hlookup] at hhi
  exact ⟨hlo.trans (congrArg BitVec.toNat hstart),hhi.trans hend,hup,hhi⟩

theorem mmap_mapped (h : mmap k vmas c = (k',.mapped vmas' v)) :
    ∃ area, getUnmappedArea vmas c.addr c.len = some area ∧
      v = regionVma (object k.machine).2 (c.source.map Prod.fst) area (fileSize c) c.len c.off
        c.prot ∧ addVma vmas v = .added vmas' := by
  unfold mmap at h
  dsimp only at h
  split_ifs at h
  · cases h
  · split at h
    · cases h
    · rename_i area harea
      exact ⟨area,harea,(mmapRegion_mapped h).2⟩

theorem mmap_settled {body : List Vma} (hs : Settled body) (hr : Roomy (body++[stackVma]) c)
    (h : mmap k (body++[stackVma]) c = (k',.mapped vmas' v)) :
    ∃ body', vmas' = body'++[stackVma] ∧ Settled body' := by
  obtain ⟨area,harea,hv,hadd⟩ := mmap_mapped h
  obtain ⟨⟨w,hw,hlt⟩,hfree⟩ := area_free hs c hr harea
  obtain ⟨_,_,hlast⟩ := List.pairwise_append.mp (follows_sorted hs.chain)
  have hbelow : area.toNat+extent c < lo stackVma := by
    rcases List.mem_append.mp hw with hw | hw
    · have hws := hlast w hw stackVma (by simp)
      have hlohi := lo_le_hi w
      unfold Below at hws
      omega
    · rwa [List.mem_singleton.mp hw] at hlt
  have hstack := (lo_le_start stackVma).trans_lt stackVma.startAddr.isLt
  obtain ⟨hlo,hhi,hup,hend⟩ := mapped_range hr.whole (by omega) hv
  have hproper : ∀ w ∈ body++[stackVma], Proper w := by
    intro w hw
    rcases List.mem_append.mp hw with hw | hw
    · exact upright_proper w (hs.upright w hw)
    · rw [List.mem_singleton.mp hw]
      exact stack_range.2
  have hapart : ∀ w ∈ body++[stackVma], Apart v w := by
    intro w hw
    unfold Apart Below
    rw [hlo, hhi]
    exact hfree w hw
  obtain ⟨pre,post,hsplit,rfl,hpre,hpost⟩ := added_place v _ vmas' (follows_sorted hs.chain)
    (upright_proper v hup) hproper hapart hadd
  -- the stack is above the new VMA, so it is still the last one
  have hmem : stackVma ∈ pre++post := hsplit ▸ by simp
  have hne : post ≠ [] := by
    rintro rfl
    have hcycle := hpre stackVma (by simpa using hmem)
    have hlohi := lo_le_hi stackVma
    unfold Below at hcycle
    omega
  obtain ⟨post',top,rfl⟩ : ∃ post' top, post = post'++[top] :=
    ⟨_,_,(List.dropLast_append_getLast hne).symm⟩
  rw [← List.append_assoc] at hsplit
  obtain ⟨rfl,htop⟩ := List.append_inj' hsplit rfl
  obtain rfl : stackVma = top := by simpa using htop
  refine ⟨pre++v::post',by simp,?_⟩
  constructor
  case two =>
    have htwo := hs.two
    rw [List.length_append] at htwo ⊢
    rw [List.length_cons]
    omega
  case chain =>
    have hchain := hs.chain
    rw [List.append_assoc] at hchain ⊢
    exact insert_follows pre (post'++[stackVma]) v hchain hpre hpost (fun _ => hend)
      (fun he => absurd he (by simp))
  case upright =>
    intro u hu
    rcases List.mem_append.mp hu with hu | hu
    · exact hs.upright u (List.mem_append_left _ hu)
    · rcases List.mem_cons.mp hu with rfl | hu
      · exact hup
      · exact hs.upright u (List.mem_append_right _ hu)

def RunRoomy : Kernel → List Vma → List MmapCall → Prop
  | _, _, [] => True
  | k, vmas, c::calls => Roomy vmas c ∧
    ∀ k' vmas' v, mmap k vmas c = (k',.mapped vmas' v) → RunRoomy k' vmas' calls

theorem mmaps_settled {calls : List MmapCall} (k : Kernel) (body : List Vma) (hs : Settled body)
    (hr : RunRoomy k (body++[stackVma]) calls)
    (h : mmaps k (body++[stackVma]) calls = some (k',vmas')) :
    ∃ body', vmas' = body'++[stackVma] ∧ Settled body' := by
  induction calls generalizing k body with
  | nil =>
    simp only [mmaps, Option.some.injEq, Prod.mk.injEq] at h
    exact ⟨body,h.2.symm,hs⟩
  | cons c calls ih =>
    rw [mmaps] at h
    split at h
    · rename_i k₁ vmas₁ v hmap
      obtain ⟨body₁,rfl,hs₁⟩ := mmap_settled hs hr.1 hmap
      exact ih k₁ body₁ hs₁ (hr.2 k₁ _ v hmap) h
    · cases h

/-- With segments that leave room and mappings that fit, no address is claimed by
two VMAs. -/
theorem vmas_claim_once (file : KernelPtr) (phdrs : List Elf64Phdr) (k k₁ k₂ : Kernel) (cr3 : Word)
    (args : ExecArgs) (vmas vmas' : List Vma) (calls : List MmapCall) (hspaced : Spaced phdrs)
    (hbuilt : built file phdrs k cr3 args = (k₁,.ok vmas)) (hroomy : RunRoomy k₁ vmas calls)
    (hrun : mmaps k₁ vmas calls = some (k₂,vmas')) (addr : Word) :
    vmas'.Pairwise (fun v w => ¬ (covers addr v = true ∧ covers addr w = true)) := by
  obtain ⟨body,rfl,hs⟩ := built_settled hspaced hbuilt
  obtain ⟨body',rfl,hs'⟩ := mmaps_settled k₁ body hs hroomy hrun
  exact sorted_unique (follows_sorted hs'.chain) addr

def shortPhdr (memsz : Word) : Elf64Phdr := ⟨1,5,0,0x400000,0x800,memsz⟩

def shortSegment (node file : KernelPtr) (memsz : Word) : Vma :=
  regionVma node (some file) 0x400000 0x800 memsz 0 1

def pageCall : MmapCall := ⟨none,0,4096,3,0,false⟩

def pageVma (node : KernelPtr) : Vma := regionVma node none 0x402000 0 4096 0 3

section
variable (file : KernelPtr) (memsz : Word)

theorem short_add (node node' node'' : KernelPtr) :
    addVma [shortSegment node file memsz] (tinyHeap node') =
      .added [shortSegment node file memsz,tinyHeap node'] ∧
    addVma [shortSegment node file memsz,tinyHeap node'] stackVma =
      .added [shortSegment node file memsz,tinyHeap node',stackVma] ∧
    addVma [shortSegment node file memsz,tinyHeap node',stackVma] (pageVma node'') =
      .added [shortSegment node file memsz,tinyHeap node',pageVma node'',stackVma] := by
  refine ⟨?_,?_,?_⟩ <;>
    simp [addVma, findVmaPrev, findVmaPrevFrom, isOverlappingVma, shortSegment, regionVma, tinyHeap,
      pageVma, stackVma, stackStart]

theorem short_built {n : ℕ} {s₀ : Machine} (cr3 : Word) (args : ExecArgs)
    (hsize : ¬ memsz < 0x800) (hs : Supplied (n+11) s₀ k.machine) :
    ∃ k₁ node node', built file [shortPhdr memsz] k cr3 args =
      (k₁,.ok [shortSegment node file memsz,tinyHeap node',stackVma]) ∧
      Supplied n s₀ k₁.machine := by
  obtain ⟨hs₁,ha⟩ := alloc_supplied hs
  have haddr : ¬ kernbase < (0x400000 : Word) := by decide
  have hload : loadSegments file [shortPhdr memsz] k [] =
      (⟨(object k.machine).1,k.fRefcount⟩,.ok [shortSegment (object k.machine).2 file memsz]) := by
    simp only [loadSegments, shortPhdr, if_true, elfMap, mmapRegion, haddr, ha, hsize, if_false,
      addVma, findVmaPrev]
    rfl
  generalize hnode : (object k.machine).2 = node at hload
  have hs₂ : Supplied (n+10) s₀ (object k.machine).1 := hs₁
  generalize (object k.machine).1 = s₁ at hload hs₂
  have hstart : pageRoundDown (shortSegment node file memsz).endAddr = 0x401000 := by
    rw [show (shortSegment node file memsz).endAddr = 0x400000+0x800 from rfl]
    decide
  obtain ⟨hheap,hstack,_⟩ := short_add file memsz node (object s₁).2 (object s₁).2
  have hnode' : addNode (object s₁).1 [shortSegment node file memsz] (tinyHeap (object s₁).2) =
      ((object s₁).1,.ok [shortSegment node file memsz,tinyHeap (object s₁).2]) := by
    rw [addNode, hheap]
  have hdone : doHeapVma s₁ [shortSegment node file memsz] =
      ((object s₁).1,.ok [shortSegment node file memsz,tinyHeap (object s₁).2]) := by
    rw [doHeapVma]
    simp only [List.getLast?_singleton]
    rw [hstart]
    exact hnode'
  have hresult : (doStackVma (object s₁).1 cr3 [shortSegment node file memsz,
      tinyHeap (object s₁).2] args.argv args.envp).2 =
      .ok [shortSegment node file memsz,tinyHeap (object s₁).2,stackVma] := by
    rw [doStackVma, addNode, hstack]
  have hsup := supplied_stack cr3 [shortSegment node file memsz,
    tinyHeap (object s₁).2] args.argv args.envp (supplied_object hs₂)
  refine ⟨⟨_,k.fRefcount⟩,node,(object s₁).2,?_,hsup⟩
  simp only [built, hload, heapAndStack, hdone]
  rw [hresult]

theorem short_area (node node' : KernelPtr) :
    getUnmappedArea [shortSegment node file memsz,tinyHeap node',stackVma] 0 4096 =
      some 0x402000 := by
  have hfront : ¬ (kernbase/3 < (shortSegment node file memsz).startAddr ∧
      kernbase/3+4096 < (shortSegment node file memsz).endAddr) :=
    fun h => absurd (show kernbase/3 < (0x400000 : Word) from h.1) (by decide)
  have hgap : ¬ ((shortSegment node file memsz).endAddr ≤ kernbase/3 ∧
      kernbase/3+4096+4096 ≤ (tinyHeap node').startAddr) :=
    fun h => absurd (show kernbase/3+4096+4096 ≤ (0x401000 : Word) from h.2) (by decide)
  have hfit : (tinyHeap node').endAddr ≤ (tinyHeap node').endAddr+1 ∧
      (tinyHeap node').endAddr+1+4096+4096 ≤ stackVma.startAddr := by
    rw [show (tinyHeap node').endAddr = 0x401FFF from rfl]
    decide
  rw [getUnmappedArea, if_pos rfl, doFirstFitSearch, if_neg hfront, doFirstFitFrom, if_neg hgap,
    doFirstFitFrom, if_pos hfit]
  rfl

theorem short_mmap (node node' : KernelPtr) (ha : (alloc k.machine).2 ≠ 0) :
    mmap k [shortSegment node file memsz,tinyHeap node',stackVma] pageCall =
      (⟨(object k.machine).1,k.fRefcount⟩,.mapped [shortSegment node file memsz,tinyHeap node',
        pageVma (object k.machine).2,stackVma] (pageVma (object k.machine).2)) := by
  have hadd := (short_add file memsz node node' (object k.machine).2).2.2
  have hchecks : ¬ (pageRoundUp pageCall.len = 0 ∨
      pageCall.off+(pageRoundUp pageCall.len >>> 12) < pageCall.off ∨
      kernbase < pageRoundUp pageCall.len ∨ pageCall.privateAndShared = true) := by
    decide
  have haddr : ¬ kernbase < (0x402000 : Word) := by decide
  have hsize : ¬ pageCall.len < fileSize pageCall := by decide
  have hregion : regionVma (object k.machine).2 (pageCall.source.map Prod.fst) 0x402000
      (fileSize pageCall) pageCall.len pageCall.off pageCall.prot = pageVma (object k.machine).2 :=
    rfl
  have harea : getUnmappedArea [shortSegment node file memsz,tinyHeap node',stackVma] pageCall.addr
      pageCall.len = some 0x402000 := short_area file memsz node node'
  rw [mmap, if_neg hchecks, harea]
  simp only [mmapRegion, haddr, ha, hsize, if_false]
  rw [hregion, hadd]

end

theorem short_spaced : Spaced [shortPhdr 0x800] := by
  have hall : ∀ p, Loadable [shortPhdr 0x800] p → p = shortPhdr 0x800 :=
    fun p hp => List.mem_singleton.mp hp.1
  constructor
  case apart => exact List.pairwise_singleton _ _
  case bss =>
    intro p hp hbss
    rw [hall p hp] at hbss
    exact absurd hbss (by decide)
  case heap =>
    intro p hp _
    rw [hall p hp]
    decide
  case below =>
    intro p hp
    rw [hall p hp]
    decide

theorem short_roomy (node : KernelPtr) (node' : KernelPtr) :
    Roomy [shortSegment node file 0x800,tinyHeap node',stackVma] pageCall := by
  have hshows := region_shows node file 0 1 (shortPhdr 0x800) (by decide) (by decide)
  constructor
  case whole => exact fun h => absurd h (by decide)
  case straight => decide
  case first =>
    intro v hv
    obtain rfl := Option.some.inj hv
    right
    have hhi : hi (shortSegment node file 0x800) = segEnd (shortPhdr 0x800) := hshows.high
    rw [hhi]
    decide
  case room =>
    intro v hv hne
    simp only [List.mem_cons, List.not_mem_nil, or_false] at hv
    rcases hv with rfl | rfl | rfl
    · rw [show (shortSegment node file 0x800).endAddr = 0x400800 from rfl]
      decide
    · rw [show (tinyHeap node').endAddr = 0x401FFF from rfl]
      decide
    · exact absurd rfl hne

/-- A segment without bss, and one page asked for. -/
theorem vmas_claim_once_page : ∃ k₁ k₂ vmas vmas',
    built (kernelPtr 0) [shortPhdr 0x800] firstKernel 0x8000 plainArgs = (k₁,.ok vmas) ∧
    mmaps k₁ vmas [pageCall] = some (k₂,vmas') ∧ ∀ addr,
      vmas'.Pairwise (fun v w => ¬ (covers addr v = true ∧ covers addr w = true)) := by
  obtain ⟨k₁,node,node',hbuilt,hs⟩ := short_built (kernelPtr 0) 0x800 0x8000
    plainArgs (by decide) first_supplied
  have hmap := short_mmap (kernelPtr 0) 0x800 node node' (alloc_supplied hs).2
  have hrun : mmaps k₁ [shortSegment node (kernelPtr 0) 0x800,tinyHeap node',stackVma] [pageCall] =
      some (⟨(object k₁.machine).1,k₁.fRefcount⟩,[shortSegment node (kernelPtr 0) 0x800,
        tinyHeap node',pageVma (object k₁.machine).2,stackVma]) := by
    rw [mmaps, hmap]
    rfl
  have hroomy : RunRoomy k₁ [shortSegment node (kernelPtr 0) 0x800,tinyHeap node',stackVma]
      [pageCall] := ⟨short_roomy node node',fun _ _ _ _ => trivial⟩
  exact ⟨k₁,_,_,_,hbuilt,hrun,
    vmas_claim_once _ _ _ _ _ _ _ _ _ _ short_spaced hbuilt hroomy hrun⟩

/-- The heap and the first mapping are put into the bss of the only segment. -/
theorem mmap_inside_bss : ∃ k₁ k₂ vmas vmas' v,
    built (kernelPtr 0) [shortPhdr 0x5000] firstKernel 0x8000 plainArgs = (k₁,.ok vmas) ∧
    mmap k₁ vmas pageCall = (k₂,.mapped vmas' v) ∧ v.startAddr = 0x402000 ∧
    ¬ vmas'.Pairwise (fun v w => ¬ (covers 0x402000 v = true ∧ covers 0x402000 w = true)) := by
  obtain ⟨k₁,node,node',hbuilt,hs⟩ := short_built (kernelPtr 0) 0x5000 0x8000
    plainArgs (by decide) first_supplied
  have hmap := short_mmap (kernelPtr 0) 0x5000 node node' (alloc_supplied hs).2
  refine ⟨k₁,_,_,_,_,hbuilt,hmap,rfl,?_⟩
  intro hpair
  apply (List.pairwise_cons.mp hpair).1 (pageVma (object k₁.machine).2) (by simp)
  constructor
  · simp [covers, lookupEnd, shortSegment, regionVma]
  · simp [covers, lookupEnd, pageVma, regionVma]

end PreemptiveOS.VmaRuns
