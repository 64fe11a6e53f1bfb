import PreemptiveOS.ExecProcess
import PreemptiveOS.FileReferences
import PreemptiveOS.ForkFrames

/-!
# The segments that the loader maps

The loader makes one VMA for every loadable segment, in the order of the
program headers, and stops at the first one that cannot be mapped. The flags of
a segment are translated by an else-if chain, the address that a mapping returns
is taken for an error when its bit 31 is set, and an empty segment counts as
overlapping with one that it touches.
-/

set_option autoImplicit false

namespace PreemptiveOS.SegmentLoading
open ByteMemory PhysMmgr VirtMmgr Vmas KernelObjects Exec ExecLeaves ExecProcess
open PageFaults (FileData)
open NodeSpaces (readHeaders)
open VmaRanges (insertIdx_behind)
open Supply

def loadable (phdrs : List Elf64Phdr) : List Elf64Phdr := phdrs.filter (fun p => p.pType = 1)

theorem loadable_cons (phdr : Elf64Phdr) (rest : List Elf64Phdr) :
    loadable (phdr::rest) = if phdr.pType = 1 then phdr::loadable rest else loadable rest := by
  rw [loadable, List.filter_cons]
  simp only [decide_eq_true_eq]
  rfl

structure Mapping where
  startAddr : Word
  endAddr : Word
  memsize : Word
  fileoffset : Word
  readable : Bool
  writable : Bool
  executable : Bool

def shown (v : Vma) : Mapping where
  startAddr := v.startAddr
  endAddr := v.endAddr
  memsize := v.memsize
  fileoffset := v.fileoffset
  readable := v.protection &&& 1 != 0
  writable := v.protection &&& 2 != 0
  executable := v.protection &&& 4 != 0

def asked (phdr : Elf64Phdr) : Mapping where
  startAddr := phdr.pVaddr
  endAddr := phdr.pVaddr+phdr.pFilesz
  memsize := phdr.pMemsz
  fileoffset := phdr.pOffset
  readable := phdr.pFlags &&& 4 != 0
  writable := phdr.pFlags &&& 2 != 0
  executable := phdr.pFlags &&& 1 != 0

def segmentVma (file node : KernelPtr) (phdr : Elf64Phdr) : Vma :=
  regionVma node (some file) phdr.pVaddr phdr.pFilesz phdr.pMemsz phdr.pOffset (elfProt phdr.pFlags)

def granted (phdr : Elf64Phdr) : Mapping where
  startAddr := phdr.pVaddr
  endAddr := phdr.pVaddr+phdr.pFilesz
  memsize := phdr.pMemsz
  fileoffset := phdr.pOffset
  readable := elfProt phdr.pFlags &&& 1 != 0
  writable := elfProt phdr.pFlags &&& 2 != 0
  executable := elfProt phdr.pFlags &&& 4 != 0

theorem shown_segment (file node : KernelPtr) (phdr : Elf64Phdr) :
    shown (segmentVma file node phdr) = granted phdr := rfl

def OnePermission (flags : BitVec 32) : Prop :=
  (flags &&& 4 = 0 ∨ flags &&& 2 = 0) ∧ (flags &&& 4 = 0 ∨ flags &&& 1 = 0) ∧
    (flags &&& 2 = 0 ∨ flags &&& 1 = 0)

def chain (readable writable executable : Bool) : Word :=
  if readable then 1 else if writable then 2 else if executable then 4 else 0

theorem elfProt_chain (flags : BitVec 32) :
    elfProt flags = chain (flags &&& 4 != 0) (flags &&& 2 != 0) (flags &&& 1 != 0) := by
  have hsix : flags &&& 6 = (flags &&& 4) ||| (flags &&& 2) := by
    rw [← BitVec.and_or_distrib_left]
    rfl
  have hfive : flags &&& 5 = (flags &&& 4) ||| (flags &&& 1) := by
    rw [← BitVec.and_or_distrib_left]
    rfl
  rw [elfProt, chain, hsix, hfive]
  simp only [bne_iff_ne]
  by_cases hr : flags &&& 4 = 0
  · have hzero : ∀ y : BitVec 32, 0 ||| y = y := fun _ => BitVec.zero_or
    rw [hr, hzero, hzero]
  · rw [if_pos hr, if_pos hr]

theorem onePermission_iff (flags : BitVec 32) :
    OnePermission flags ↔ ((flags &&& 4 != 0 && flags &&& 2 != 0) ||
      (flags &&& 4 != 0 && flags &&& 1 != 0) ||
      (flags &&& 2 != 0 && flags &&& 1 != 0)) = false := by
  simp only [OnePermission, Bool.or_eq_false_iff, Bool.and_eq_false_iff, bne_eq_false_iff_eq,
    and_assoc]

variable {r w x : Bool}

/-- The chain grants what is asked for only if that is at most one permission. -/
theorem chain_exact {r' w' x' : Bool}
    (h : (chain r' w' x' &&& 1 != 0) = r ∧
    (chain r' w' x' &&& 2 != 0) = w ∧ (chain r' w' x' &&& 4 != 0) = x) :
    (r && w || r && x || w && x) = false := by
  revert r w x r' w' x'
  decide

theorem chain_one (h : (r && w || r && x || w && x) = false) :
    (chain r w x &&& 1 != 0) = r ∧ (chain r w x &&& 2 != 0) = w ∧ (chain r w x &&& 4 != 0) = x := by
  revert r w x
  decide

variable {phdr : Elf64Phdr}

theorem granted_asked (h : OnePermission phdr.pFlags) : granted phdr = asked phdr := by
  obtain ⟨hr,hw,hx⟩ := chain_one ((onePermission_iff phdr.pFlags).mp h)
  rw [granted, asked, elfProt_chain, hr, hw, hx]

variable {p q : Elf64Phdr}

theorem asked_granted (h : granted q = asked p) : OnePermission p.pFlags := by
  rw [granted, asked, Mapping.mk.injEq, elfProt_chain] at h
  rw [onePermission_iff]
  exact chain_exact h.2.2.2.2

theorem granted_perm (segments : List Elf64Phdr) :
    (segments.map granted).Perm (segments.map asked) ↔ ∀ p ∈ segments, OnePermission p.pFlags := by
  constructor
  · intro h p hp
    obtain ⟨q,_,hq⟩ := List.mem_map.mp (h.mem_iff.mpr (List.mem_map_of_mem hp))
    exact asked_granted hq
  · intro h
    rw [List.map_congr_left (fun p hp => granted_asked (h p hp))]

def InRange (phdr : Elf64Phdr) : Prop :=
  phdr.pFilesz.toNat ≤ phdr.pMemsz.toNat ∧
    phdr.pVaddr.toNat+phdr.pMemsz.toNat ≤ kernbase.toNat

def Contains (phdr : Elf64Phdr) (x : ℕ) : Prop :=
  phdr.pVaddr.toNat ≤ x ∧ x < phdr.pVaddr.toNat+phdr.pMemsz.toNat

def Disjoint (p q : Elf64Phdr) : Prop := ∀ x, ¬ (Contains p x ∧ Contains q x)

def stop (phdr : Elf64Phdr) : ℕ := phdr.pVaddr.toNat+phdr.pFilesz.toNat

def Admits (p q : Elf64Phdr) : Prop :=
  ¬ (p.pMemsz = 0 ∧ q.pVaddr.toNat ≤ p.pVaddr.toNat ∧ p.pVaddr.toNat < stop q) ∧
  ¬ (q.pMemsz = 0 ∧ p.pVaddr.toNat < q.pVaddr.toNat ∧ q.pVaddr.toNat < stop p)

def Clash (s e a b : ℕ) : Prop := s < b ∧ a < e ∨ s = a ∧ e = a ∧ a < b

theorem clash_iff (hp : InRange p) (hq : InRange q) (h : Disjoint p q) :
    Clash p.pVaddr.toNat (stop p) q.pVaddr.toNat (stop q) ↔ ¬ Admits p q := by
  have hz : ∀ r : Elf64Phdr, r.pMemsz = 0 ↔ r.pMemsz.toNat = 0 :=
    fun r => ⟨fun hr => by rw [hr]; rfl,fun hr => BitVec.eq_of_toNat_eq hr⟩
  have hleft := h p.pVaddr.toNat
  have hright := h q.pVaddr.toNat
  obtain ⟨hp,_⟩ := hp
  obtain ⟨hq,_⟩ := hq
  unfold Contains at hleft hright
  unfold Admits Clash stop
  rw [hz, hz]
  omega

structure Ordered (vmas : List Vma) : Prop where
  upright : ∀ u ∈ vmas, u.startAddr.toNat ≤ u.endAddr.toNat
  sorted : vmas.Pairwise (fun u w => u.endAddr.toNat ≤ w.startAddr.toNat)

theorem ordered_behind (curr : Vma) (rest : List Vma) (h : Ordered (curr::rest)) (e : ℕ)
    (he : e ≤ curr.startAddr.toNat) : ∀ u ∈ curr::rest, e ≤ u.startAddr.toNat := by
  rw [List.forall_mem_cons]
  refine ⟨he,?_⟩
  intro u hu
  have hup := h.upright curr List.mem_cons_self
  have hlater := (List.pairwise_cons.mp h.sorted).1 u hu
  omega

variable {vmas : List Vma}

section
variable (v : Vma) (hv : v.startAddr.toNat ≤ v.endAddr.toNat)

def ClashVma (u : Vma) : Prop :=
  Clash u.startAddr.toNat u.endAddr.toNat v.startAddr.toNat v.endAddr.toNat

include hv in
theorem isOverlapping_clash {u : Vma} (hu : u.startAddr.toNat ≤ u.endAddr.toNat)
    (h : u.startAddr.toNat < v.endAddr.toNat) :
    (isOverlappingVma u v = true → ClashVma v u) ∧
    (isOverlappingVma u v = false →
      u.endAddr.toNat ≤ v.startAddr.toNat ∧ u.startAddr.toNat < v.startAddr.toNat) := by
  unfold isOverlappingVma ClashVma Clash
  simp only [decide_eq_true_eq, decide_eq_false_iff_not, BitVec.lt_def, BitVec.le_def,
    BitVec.toNat_eq]
  omega

include hv in
theorem findVmaPrevFrom_place {rest : List Vma} (curr : Vma) (i : ℕ)
    (h : Ordered (curr::rest)) (hcurr : curr.startAddr.toNat < v.endAddr.toNat) :
    (findVmaPrevFrom v i (curr::rest) = .overlaps ∧ ∃ u ∈ curr::rest, ClashVma v u) ∨
    ∃ pre c post, curr::rest = pre++c::post ∧
      findVmaPrevFrom v i (curr::rest) = .entry (i+pre.length) ∧
      (∀ u ∈ pre++[c], u.endAddr.toNat ≤ v.startAddr.toNat ∧
        u.startAddr.toNat < v.startAddr.toNat) ∧
      ∀ u ∈ post, v.endAddr.toNat ≤ u.startAddr.toNat := by
  induction rest generalizing curr i with
  | nil =>
    have hoverlap := isOverlapping_clash v hv (h.upright curr List.mem_cons_self) hcurr
    rw [findVmaPrevFrom]
    cases hc : isOverlappingVma curr v with
    | true => exact Or.inl ⟨rfl,curr,List.mem_cons_self,hoverlap.1 hc⟩
    | false =>
      obtain ⟨hend,hstart⟩ := hoverlap.2 hc
      have hle : curr.endAddr ≤ v.startAddr := hend
      refine Or.inr ⟨[],curr,[],rfl,?_,?_,by simp⟩
      · simp [hle]
      · simpa using ⟨hend,hstart⟩
  | cons next rest ih =>
    have hoverlap := isOverlapping_clash v hv (h.upright curr List.mem_cons_self) hcurr
    obtain ⟨hfirst,htail⟩ := List.pairwise_cons.mp h.sorted
    have hrest : Ordered (next::rest) := ⟨fun u hu => h.upright u (List.mem_cons_of_mem _ hu),htail⟩
    rw [findVmaPrevFrom]
    cases hc : isOverlappingVma curr v with
    | true => exact Or.inl ⟨rfl,curr,List.mem_cons_self,hoverlap.1 hc⟩
    | false =>
      obtain ⟨hend,hstart⟩ := hoverlap.2 hc
      have hle : curr.endAddr ≤ v.startAddr := hend
      by_cases hnext : v.endAddr.toNat ≤ next.startAddr.toNat
      · have hfits : v.endAddr ≤ next.startAddr := hnext
        refine Or.inr ⟨[],curr,next::rest,rfl,?_,?_,?_⟩
        · simp [hle, hfits]
        · simpa using ⟨hend,hstart⟩
        · exact ordered_behind next rest hrest _ hnext
      · have hfits : ¬ v.endAddr ≤ next.startAddr := hnext
        rw [if_neg Bool.false_ne_true, if_neg (fun hand => hfits hand.2)]
        -- everything up to `curr` is below, so the search goes on as from the head
        rcases ih next (i+1) hrest (not_le.mp hnext) with ⟨he,u,hu,hclash⟩ |
          ⟨pre,c,post,he,hentry,hpre,hpost⟩
        · exact Or.inl ⟨he,u,List.mem_cons_of_mem _ hu,hclash⟩
        · refine Or.inr ⟨curr::pre,c,post,by rw [he, List.cons_append],?_,?_,hpost⟩
          · rw [hentry, List.length_cons, Nat.add_assoc, Nat.add_comm 1]
          · intro u hu
            rcases List.mem_cons.mp hu with rfl | hu
            · exact ⟨hend,hstart⟩
            · exact hpre u hu

include hv in
theorem insert_ordered (pre post : List Vma) (h : Ordered (pre++post))
    (hpre : ∀ u ∈ pre, u.endAddr.toNat ≤ v.startAddr.toNat ∧ u.startAddr.toNat < v.startAddr.toNat)
    (hpost : ∀ u ∈ post, v.endAddr.toNat ≤ u.startAddr.toNat) :
    Ordered (pre++v::post) ∧ ∀ u ∈ pre++post, ¬ ClashVma v u := by
  obtain ⟨hleft,hright,hcross⟩ := List.pairwise_append.mp h.sorted
  obtain ⟨hup,hup'⟩ := List.forall_mem_append.mp h.upright
  constructor
  · constructor
    · rw [List.forall_mem_append, List.forall_mem_cons]
      exact ⟨hup,hv,hup'⟩
    · rw [List.pairwise_append, List.pairwise_cons]
      refine ⟨hleft,⟨hpost,hright⟩,?_⟩
      intro u hu
      rw [List.forall_mem_cons]
      exact ⟨(hpre u hu).1,hcross u hu⟩
  · intro u hu hclash
    unfold ClashVma Clash at hclash
    rcases List.mem_append.mp hu with hu | hu
    · have hbelow := hpre u hu
      omega
    · have habove := hpost u hu
      omega

include hv in
/-- A VMA goes to its place in the order, or it clashes with one in the list. -/
theorem addVma_place (h : Ordered vmas) :
    (addVma vmas v = .failed ∧ ∃ u ∈ vmas, ClashVma v u) ∨
    ∃ pre post, vmas = pre++post ∧ addVma vmas v = .added (pre++v::post) ∧
      Ordered (pre++v::post) ∧ ∀ u ∈ vmas, ¬ ClashVma v u := by
  cases vmas with
  | nil => exact Or.inr ⟨[],[],rfl,rfl,insert_ordered v hv [] [] h (by simp) (by simp)⟩
  | cons curr rest =>
    rw [addVma, findVmaPrev]
    by_cases hhead : v.endAddr ≤ curr.startAddr
    · rw [if_pos hhead]
      refine Or.inr ⟨[],curr::rest,rfl,rfl,insert_ordered v hv [] (curr::rest) h (by simp) ?_⟩
      exact ordered_behind curr rest h _ hhead
    · rw [if_neg hhead]
      rcases findVmaPrevFrom_place v hv curr 0 h (not_le.mp hhead) with ⟨he,hclash⟩ |
        ⟨pre,c,post,hlist,he,hpre,hpost⟩
      · rw [he]
        exact Or.inl ⟨rfl,hclash⟩
      · have hsplit : curr::rest = (pre++[c])++post := by rw [hlist, List.append_assoc]; rfl
        rw [he, hlist, Nat.zero_add]
        refine Or.inr ⟨pre++[c],post,by rw [← hlist, hsplit],?_,?_⟩
        · simp only [insertIdx_behind, List.append_assoc, List.singleton_append]
        · rw [← hlist, hsplit]
          exact insert_ordered v hv (pre++[c]) post (hsplit ▸ h) hpre hpost

end

structure Placed (done : List Elf64Phdr) (vmas : List Vma) : Prop where
  shows : (vmas.map shown).Perm (done.map granted)
  ordered : Ordered vmas

theorem stop_toNat (h : InRange phdr) : (phdr.pVaddr+phdr.pFilesz).toNat = stop phdr := by
  have hk := kernbase.isLt
  obtain ⟨hsize,hend⟩ := h
  rw [BitVec.toNat_add, Nat.mod_eq_of_lt (by omega), stop]

section
variable {done : List Elf64Phdr} {vmas : List Vma} (h : Placed done vmas)
  (hdone : ∀ p ∈ done, InRange p)
include h hdone

theorem clash_segments (file node : KernelPtr) (hphdr : InRange phdr) :
    (∃ u ∈ vmas, ClashVma (segmentVma file node phdr) u) ↔
      ∃ p ∈ done, Clash p.pVaddr.toNat (stop p) phdr.pVaddr.toNat (stop phdr) := by
  have hview : ∀ u p, granted p = shown u → InRange p →
      (ClashVma (segmentVma file node phdr) u ↔
        Clash p.pVaddr.toNat (stop p) phdr.pVaddr.toNat (stop phdr)) := by
    intro u p he hp
    have hstart : p.pVaddr = u.startAddr := congrArg Mapping.startAddr he
    have hend : p.pVaddr+p.pFilesz = u.endAddr := congrArg Mapping.endAddr he
    rw [ClashVma, ← hstart, ← hend, stop_toNat hp, ← stop_toNat hphdr]
    rfl
  constructor
  · rintro ⟨u,hu,hclash⟩
    obtain ⟨p,hp,he⟩ := List.mem_map.mp (h.shows.mem_iff.mp (List.mem_map_of_mem hu))
    exact ⟨p,hp,(hview u p he (hdone p hp)).mp hclash⟩
  · rintro ⟨p,hp,hclash⟩
    obtain ⟨u,hu,he⟩ := List.mem_map.mp (h.shows.mem_iff.mpr (List.mem_map_of_mem hp))
    exact ⟨u,hu,(hview u p he.symm (hdone p hp)).mpr hclash⟩

omit hdone in
theorem placed_length : vmas.length = done.length := by
  simpa using h.shows.length_eq

theorem addVma_segment (file node : KernelPtr) (hphdr : InRange phdr)
    (hdis : ∀ p ∈ done, Disjoint p phdr) :
    (addVma vmas (segmentVma file node phdr) = .failed ∧ ∃ p ∈ done, ¬ Admits p phdr) ∨
    (∀ p ∈ done, Admits p phdr) ∧ ∃ vmas', addVma vmas (segmentVma file node phdr) = .added vmas' ∧
      Placed (done++[phdr]) vmas' := by
  have hend : (segmentVma file node phdr).endAddr.toNat = stop phdr := stop_toNat hphdr
  have hup : (segmentVma file node phdr).startAddr.toNat ≤
      (segmentVma file node phdr).endAddr.toNat := by
    rw [hend]
    exact Nat.le_add_right _ _
  have hiff := clash_segments h hdone file node hphdr
  rcases addVma_place _ hup h.ordered with ⟨hfail,hclash⟩ | ⟨pre,post,rfl,hadd,hord,hfree⟩
  · obtain ⟨p,hp,hc⟩ := hiff.mp hclash
    exact Or.inl ⟨hfail,p,hp,(clash_iff (hdone p hp) hphdr (hdis p hp)).mp hc⟩
  · refine Or.inr ⟨?_,_,hadd,?_,hord⟩
    · intro p hp
      by_contra hn
      obtain ⟨u,hu,hc⟩ := hiff.mpr
        ⟨p,hp,(clash_iff (hdone p hp) hphdr (hdis p hp)).mpr hn⟩
      exact hfree u hu hc
    · rw [List.map_append, List.map_append, List.map_cons, shown_segment]
      have hrest : (pre.map shown++post.map shown).Perm (done.map granted) := by
        rw [← List.map_append]
        exact h.shows
      exact List.perm_middle.trans ((hrest.cons _).trans (List.perm_append_singleton _ _).symm)

end

section
variable (k : Kernel) (vmas : List Vma) (file : KernelPtr) (phdr : Elf64Phdr) (h : InRange phdr)
include h

theorem elfMap_none (hn : (alloc k.machine).2 = 0) :
    elfMap k vmas file phdr = ({ k with machine := (alloc k.machine).1 },.failed) := by
  have hlow : ¬ kernbase < phdr.pVaddr := by
    rw [BitVec.lt_def]
    have hend := h.2
    omega
  rw [elfMap, mmapRegion, if_neg hlow, if_pos hn]

theorem elfMap_frame (hn : (alloc k.machine).2 ≠ 0) :
    elfMap k vmas file phdr =
      match addVma vmas (segmentVma file (object k.machine).2 phdr) with
      | .added vmas' => ({ k with machine := (object k.machine).1 },
          .mapped vmas' (segmentVma file (object k.machine).2 phdr))
      | .wild => ({ k with machine := (object k.machine).1 },.wild)
      | .failed => (deallocateVma { k with machine := (object k.machine).1 }
          (segmentVma file (object k.machine).2 phdr),.failed) := by
  have hlow : ¬ kernbase < phdr.pVaddr := by
    rw [BitVec.lt_def]
    have hend := h.2
    omega
  have hsize : ¬ phdr.pMemsz < phdr.pFilesz := not_lt.mpr h.1
  rw [elfMap, mmapRegion, if_neg hlow, if_neg hn]
  dsimp only
  rw [if_neg hsize]
  rfl

end

variable {done : List Elf64Phdr}

theorem elfMap_step (hplaced : Placed done vmas) (hdone : ∀ p ∈ done, InRange p) {k : Kernel}
    (file : KernelPtr) (h : InRange phdr) (hdis : ∀ p ∈ done, Disjoint p phdr)
    (hn : (alloc k.machine).2 ≠ 0) :
    ((elfMap k vmas file phdr).2 = .failed ∧ ∃ p ∈ done, ¬ Admits p phdr) ∨
    (∀ p ∈ done, Admits p phdr) ∧ ∃ vmas' v,
      elfMap k vmas file phdr = ({ k with machine := (object k.machine).1 },.mapped vmas' v) ∧
      Placed (done++[phdr]) vmas' := by
  rw [elfMap_frame k vmas file phdr h hn]
  rcases addVma_segment hplaced hdone file (object k.machine).2 h hdis with
    ⟨hfail,hclash⟩ | ⟨hall,vmas',hadd,hnew⟩
  · rw [hfail]
    exact Or.inl ⟨rfl,hclash⟩
  · rw [hadd]
    exact Or.inr ⟨hall,vmas',_,rfl,hnew⟩

def AllMapped (frames : ℕ) (done segments : List Elf64Phdr) : Prop :=
  segments.length ≤ frames ∧ (∀ p ∈ segments, (p.pVaddr.setWidth 32).msb = false) ∧
    (done++segments).Pairwise Admits

theorem allMapped_cons (frames : ℕ) (done rest : List Elf64Phdr) (phdr : Elf64Phdr) :
    AllMapped frames done (phdr::rest) ↔ 0 < frames ∧ (phdr.pVaddr.setWidth 32).msb = false ∧
      AllMapped (frames-1) (done++[phdr]) rest := by
  unfold AllMapped
  rw [List.forall_mem_cons, List.length_cons, List.append_assoc, List.singleton_append]
  constructor
  · rintro ⟨hlen,⟨hbit,hbits⟩,hpairs⟩
    exact ⟨by omega,hbit,by omega,hbits,hpairs⟩
  · rintro ⟨hpos,hbit,hlen,hbits,hpairs⟩
    exact ⟨by omega,⟨hbit,hbits⟩,hpairs⟩

def Ends (frames : ℕ) (done segments : List Elf64Phdr) (r : Kernel × Stage) : Prop :=
  (AllMapped frames done segments ∧ ∃ k vmas, r = (k,.ok vmas) ∧ Placed (done++segments) vmas) ∨
  (¬ AllMapped frames done segments ∧ ∃ k vmas, r = (k,.failed vmas) ∧
    (frames < segments.length → vmas.length < done.length+segments.length))

theorem ends_cons {frames : ℕ} {rest : List Elf64Phdr} {r : Kernel × Stage} (hpos : 0 < frames)
    (hbit : (phdr.pVaddr.setWidth 32).msb = false) (h : Ends (frames-1) (done++[phdr]) rest r) :
    Ends frames done (phdr::rest) r := by
  unfold Ends at *
  rw [allMapped_cons, List.length_cons]
  rw [List.append_assoc, List.singleton_append, List.length_append, List.length_singleton] at h
  rcases h with ⟨hall,hok⟩ | ⟨hnot,k,vmas,hr,hless⟩
  · exact Or.inl ⟨⟨hpos,hbit,hall⟩,hok⟩
  · refine Or.inr ⟨fun hall => hnot hall.2.2,k,vmas,hr,?_⟩
    intro hlt
    have hrest := hless (by omega)
    omega

variable {phdrs : List Elf64Phdr}

theorem loadSegments_ends (file : KernelPtr) (done : List Elf64Phdr) (k : Kernel)
    (vmas : List Vma) (hf : FramesOk k.machine.pages) (h : Placed done vmas)
    (hadmits : done.Pairwise Admits) (hrange : ∀ p ∈ done++loadable phdrs, InRange p)
    (hdis : (done++loadable phdrs).Pairwise Disjoint) :
    Ends (freeCount k.machine.pages) done (loadable phdrs) (loadSegments file phdrs k vmas) := by
  induction phdrs generalizing done k vmas with
  | nil =>
    rw [show loadable [] = [] from rfl]
    refine Or.inl ⟨⟨Nat.zero_le _,by simp,?_⟩,k,vmas,rfl,?_⟩ <;> rwa [List.append_nil]
  | cons phdr rest ih =>
    have hlen := placed_length h
    rw [loadable_cons] at hrange hdis ⊢
    rw [loadSegments]
    by_cases htype : phdr.pType = 1
    · rw [if_pos htype] at hrange hdis ⊢
      rw [if_pos htype]
      have hphdr := hrange phdr (by simp)
      by_cases hn : (alloc k.machine).2 = 0
      · have hzero := ForkFrames.alloc_none hf hn
        rw [elfMap_none k vmas file phdr hphdr hn]
        refine Or.inr ⟨?_,_,vmas,rfl,fun _ => by rw [List.length_cons]; omega⟩
        rw [allMapped_cons]
        omega
      · have hdis' : ∀ p ∈ done, Disjoint p phdr :=
          fun p hp => (List.pairwise_append.mp hdis).2.2 p hp phdr List.mem_cons_self
        have hpos : freeCount k.machine.pages ≠ 0 := fun h0 => hn (ForkFrames.alloc_refused h0)
        rcases elfMap_step h (fun p hp => hrange p (List.mem_append_left _ hp)) file hphdr
          hdis' hn with ⟨hfail,p,hp,hclash⟩ | ⟨hall,vmas',v,hmap,hplaced⟩
        · rw [hfail]
          refine Or.inr ⟨?_,_,vmas,rfl,fun _ => by rw [List.length_cons]; omega⟩
          intro hall
          exact hclash ((List.pairwise_append.mp hall.2.2).2.2 p hp phdr List.mem_cons_self)
        · rw [hmap]
          dsimp only
          by_cases hbit : (phdr.pVaddr.setWidth 32).msb = true
          · -- the VMA is in place, but its address counts as an error
            have hlen' := placed_length hplaced
            rw [List.length_append, List.length_singleton] at hlen'
            rw [if_pos hbit]
            refine Or.inr ⟨?_,_,vmas',rfl,fun _ => by rw [List.length_cons] at *; omega⟩
            intro hall
            exact absurd (hbit.symm.trans (hall.2.1 phdr List.mem_cons_self)) (by decide)
          · rw [if_neg hbit]
            have hadmits' : (done++[phdr]).Pairwise Admits := by
              rw [List.pairwise_append]
              exact ⟨hadmits,List.pairwise_singleton _ _,fun p hp q hq =>
                (List.mem_singleton.mp hq) ▸ hall p hp⟩
            have hassoc : done++phdr::loadable rest = (done++[phdr])++loadable rest := by simp
            rw [hassoc] at hrange hdis
            have hrest := ih (done++[phdr]) ⟨(object k.machine).1,k.fRefcount⟩ vmas'
              (framesOk_congr (addresses_alloc k.machine.pages) hf) hplaced hadmits' hrange hdis
            rw [show freeCount (object k.machine).1.pages = freeCount k.machine.pages-1 from
              freeCount_allocated k.machine.pages] at hrest
            exact ends_cons (by omega) (by simpa using hbit) hrest
    · rw [if_neg htype] at hrange hdis ⊢
      rw [if_neg htype]
      exact ih done k vmas hf h hadmits hrange hdis

variable {file : FileData}

theorem readHeaders_valid {s : Machine} (h : (readHeaders s file).2 = .read phdrs) :
    ∃ ehdr, (loadElfEhdr s file).2 = some ehdr ∧
      checkElfFileValidity (loadElfEhdr s file).1.mem ehdr = true ∧
      (readHeaders s file).1 = (loadElfPhdr (loadElfEhdr s file).1 ehdr file).1 := by
  unfold readHeaders at h ⊢
  dsimp only at h ⊢
  cases he : (loadElfEhdr s file).2 with
  | none => simp [he] at h
  | some ehdr =>
    rw [he] at h
    dsimp only at h ⊢
    by_cases hvalid : checkElfFileValidity (loadElfEhdr s file).1.mem ehdr = true
    · refine ⟨ehdr,rfl,hvalid,?_⟩
      rw [if_pos hvalid]
      cases (loadElfPhdr (loadElfEhdr s file).1 ehdr file).2 <;> rfl
    · rw [if_neg hvalid] at h
      cases h

section
variable (s : Machine) (hf : FramesOk s.pages)
include hf

theorem loadHeader_pages (file : FileData) (size offset : Word) :
    (loadHeader s file size offset).1.pages = (alloc s).1.pages := by
  have hwindow := (framesOk_congr (addresses_alloc s.pages) hf).window
  simp only [loadHeader]
  split_ifs
  · exact free_alias _ hwindow
  · rfl

theorem readHeaders_frames (h : (readHeaders s file).2 = .read phdrs) :
    FramesOk (readHeaders s file).1.pages ∧
      freeCount (readHeaders s file).1.pages = freeCount s.pages-2 := by
  have hehdr : (loadElfEhdr s file).1.pages = (alloc s).1.pages := loadHeader_pages s hf file 64 0
  have hf₁ : FramesOk (loadElfEhdr s file).1.pages := by
    rw [hehdr]
    exact framesOk_congr (addresses_alloc s.pages) hf
  have hphdr : ∀ ehdr, (loadElfPhdr (loadElfEhdr s file).1 ehdr file).1.pages =
      (physMemAlloc (loadElfEhdr s file).1.pages).1 := fun ehdr => loadHeader_pages _ hf₁ file _ _
  obtain ⟨ehdr,_,_,hr⟩ := readHeaders_valid h
  rw [hr, hphdr, freeCount_allocated, hehdr,
    show freeCount (alloc s).1.pages = freeCount s.pages-1 from freeCount_allocated s.pages]
  exact ⟨framesOk_congr (addresses_alloc _) (hehdr ▸ hf₁),rfl⟩

omit hf in
theorem entryPoint_file (hwhole : 64 ≤ file.size.toInt) (h : (readHeaders s file).2 = .read phdrs) :
    entryPoint s file = load file.bytes 24 := by
  obtain ⟨hsome,hbytes⟩ := ehdr_read file hwhole s
  obtain ⟨ehdr,he,hvalid,_⟩ := readHeaders_valid h
  obtain rfl : (object s).2 = ehdr := by simpa [hsome] using he
  rw [entryPoint, hsome]
  dsimp only
  rw [if_pos hvalid]
  apply load_shift
  intro i hi
  rw [Nat.add_assoc, hbytes (24+i) (by omega)]

end

def LoadsSegments (files : KernelPtr → FileData) (k : Kernel) (file : KernelPtr)
    (phdrs : List Elf64Phdr) : Prop :=
  (∃ k' vmas, loadElfBinary files k file = (k',.ok vmas) ∧
    entryPoint k.machine (files file) = load (files file).bytes 24 ∧
    (vmas.map shown).Perm ((loadable phdrs).map asked)) ∨
  (∃ k' vmas, loadElfBinary files k file = (k',.failed vmas) ∧
    vmas.length < (loadable phdrs).length ∧
    freeCount k.machine.pages < (loadable phdrs).length+2)

def Regular (phdr : Elf64Phdr) : Prop :=
  (phdr.pVaddr.setWidth 32).msb = false ∧ OnePermission phdr.pFlags

section
variable {files : KernelPtr → FileData} {k k' : Kernel} {file : KernelPtr} {vmas : List Vma}
  {phdrs : List Elf64Phdr}

theorem loads_ok_iff (hr : loadElfBinary files k file = (k',.ok vmas))
    (hentry : entryPoint k.machine (files file) = load (files file).bytes 24)
    (h : Placed (loadable phdrs) vmas) :
    LoadsSegments files k file phdrs ↔ ∀ p ∈ loadable phdrs, OnePermission p.pFlags := by
  rw [← granted_perm, LoadsSegments, hr]
  constructor
  · rintro (⟨_,_,he,_,hperm⟩ | ⟨_,_,he,_⟩)
    · cases he
      exact h.shows.symm.trans hperm
    · cases he
  · intro hperm
    exact Or.inl ⟨k',vmas,rfl,hentry,h.shows.trans hperm⟩

theorem loads_failed_iff (hr : loadElfBinary files k file = (k',.failed vmas)) :
    LoadsSegments files k file phdrs ↔ vmas.length < (loadable phdrs).length ∧
      freeCount k.machine.pages < (loadable phdrs).length+2 := by
  rw [LoadsSegments, hr]
  constructor
  · rintro (⟨_,_,he,_⟩ | ⟨_,_,he,hfew⟩)
    · cases he
    · cases he
      exact hfew
  · intro hfew
    exact Or.inr ⟨k',vmas,rfl,hfew⟩

end

/-- The segments get the VMAs they ask for, or the load fails for want of frames, exactly if
frames are lacking or every segment is regular and any two admit each other. -/
theorem loads_segments_iff (files : KernelPtr → FileData) (k : Kernel) (file : KernelPtr)
    (phdrs : List Elf64Phdr) (hf : FramesOk k.machine.pages)
    (hwhole : 64 ≤ (files file).size.toInt)
    (hread : (readHeaders k.machine (files file)).2 = .read phdrs)
    (hrange : ∀ p ∈ loadable phdrs, InRange p) (hdis : (loadable phdrs).Pairwise Disjoint) :
    LoadsSegments files k file phdrs ↔
      freeCount k.machine.pages < (loadable phdrs).length+2 ∨
      (∀ p ∈ loadable phdrs, Regular p) ∧ (loadable phdrs).Pairwise Admits := by
  have hload := SpaceRefinement.loadElfBinary_headers files k file
  rw [hread] at hload
  dsimp only at hload
  obtain ⟨hf',hcount⟩ := readHeaders_frames k.machine hf hread
  have hends := loadSegments_ends file []
    { k with machine := (readHeaders k.machine (files file)).1 } [] hf'
    ⟨List.Perm.refl _,by simp,List.Pairwise.nil⟩ List.Pairwise.nil hrange hdis
  rw [← hload, hcount] at hends
  have hnone : (loadable phdrs).length = 0 → loadable phdrs = [] := List.eq_nil_of_length_eq_zero
  rcases hends with ⟨⟨hlen,hbits,hpairs⟩,k',vmas,hr,hplaced⟩ | ⟨hnot,k',vmas,hr,hless⟩
  · rw [loads_ok_iff hr (entryPoint_file k.machine hwhole hread) hplaced]
    constructor
    · intro hone
      exact Or.inr ⟨fun p hp => ⟨hbits p hp,hone p hp⟩,hpairs⟩
    · rintro (hfew | hgood)
      · -- too few frames for the headers, so there is no segment
        rw [hnone (by omega)]
        simp
      · exact fun p hp => (hgood.1 p hp).2
  · have hpos : (loadable phdrs).length ≠ 0 := by
      intro hz
      rw [hnone hz] at hnot
      exact hnot ⟨Nat.zero_le _,by simp,List.Pairwise.nil⟩
    rw [loads_failed_iff hr]
    constructor
    · exact fun hfew => Or.inl hfew.2
    · intro h
      have hfew : freeCount k.machine.pages < (loadable phdrs).length+2 := by
        by_contra hn
        obtain ⟨hreg,hpairs⟩ := h.resolve_left hn
        exact hnot ⟨by omega,fun p hp => (hreg p hp).1,hpairs⟩
      have hshort := hless (by omega)
      rw [List.length_nil, Nat.zero_add] at hshort
      exact ⟨hshort,hfew⟩

def readOnlyElf : FileData := ⟨120,fun i => if i = 68 then 4 else tinyBytes i⟩

def readOnlyPhdr : Elf64Phdr := { tinyPhdr with pFlags := 4 }

theorem readOnly_oneSegment : OneSegment readOnlyElf 64 readOnlyPhdr := by
  constructor
  case headers => constructor <;> decide
  case ident => decide
  case phnum => decide
  case phoff => decide
  case size => decide
  case header => rfl
  case loadable => rfl

theorem loads_segments_iff_read_only :
    (readHeaders firstKernel.machine readOnlyElf).2 = .read [readOnlyPhdr] ∧
      LoadsSegments (fun _ => readOnlyElf) firstKernel (kernelPtr 0) [readOnlyPhdr] := by
  have hread := FileReferences.oneSegment_headers readOnly_oneSegment
    (supplied_less (by decide) first_supplied)
  have hone : loadable [readOnlyPhdr] = [readOnlyPhdr] := rfl
  refine ⟨hread,(loads_segments_iff (fun _ => readOnlyElf) firstKernel (kernelPtr 0) [readOnlyPhdr]
    first_supplied.1 readOnly_oneSegment.headers.whole hread ?_ ?_).mpr (Or.inr ?_)⟩
  · rw [hone, List.forall_mem_singleton]
    exact ⟨by decide,by decide⟩
  · rw [hone]
    exact List.pairwise_singleton _ _
  · rw [hone, List.forall_mem_singleton]
    exact ⟨⟨by decide,by unfold OnePermission; decide⟩,List.pairwise_singleton _ _⟩

/-- A text segment, readable and executable, is mapped without `PROT_EXEC`. -/
theorem text_segment_not_executable :
    (readHeaders firstKernel.machine tinyElf).2 = .read [tinyPhdr] ∧ InRange tinyPhdr ∧
      ¬ LoadsSegments (fun _ => tinyElf) firstKernel (kernelPtr 0) [tinyPhdr] := by
  refine ⟨FileReferences.oneSegment_headers tiny_oneSegment
    (supplied_less (by decide) first_supplied),⟨by decide,by decide⟩,?_⟩
  obtain ⟨node,k',hload,_⟩ := loaded_one (fun _ => tinyElf) firstKernel (kernelPtr 0) 64 tinyPhdr
    tiny_oneSegment 77 firstKernel.machine first_supplied (by decide) (by decide) (by decide)
  rw [LoadsSegments, hload]
  rintro (⟨_,_,he,_,hperm⟩ | ⟨_,_,he,_⟩)
  · cases he
    have hone := (granted_perm [tinyPhdr]).mp hperm tinyPhdr List.mem_cons_self
    revert hone
    unfold OnePermission
    decide
  · cases he

end PreemptiveOS.SegmentLoading
