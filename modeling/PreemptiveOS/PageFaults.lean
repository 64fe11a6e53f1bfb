import PreemptiveOS.KernelObjects
import PreemptiveOS.DataFrames

/-!
# Page faults

The handlers of `page_faults.c`. The handler clears and fills the new page
through the faulting user address; for an aligned address that is the frame
it has just mapped. Below 4096 the rounding keeps the offset of the address,
the mapping is refused and the clearing runs on into whatever is mapped
there; that, and reading from a null file, is left without a result.
-/

set_option autoImplicit false

namespace PreemptiveOS.PageFaults
open ByteMemory PhysMmgr TableForest VirtMmgr PageTree PageFlags FreshFrames DataFrames Vmas
open KernelObjects

structure FileData where
  size : BitVec 32
  bytes : ℕ → Byte

def nullPage : Page := ⟨0,0,false⟩

/-- A frame is taken and cleared on every call, to be returned if no record
is found. -/
def getPageFromPhysAddr (s : Machine) (physAddr : Word) : Machine × Page :=
  ((zeroedObject s).1,(pageOf (zeroedObject s).1.pages physAddr).getD nullPage)

def findPageFromVirt (s : Machine) (addr cr3 : Word) : Machine × Page :=
  getPageFromPhysAddr s (walkPml4 s.mem cr3 addr)

def copyBytes (m : Mem) (dest src n : ℕ) : Mem := fun x =>
  if dest ≤ x ∧ x < dest+n then m (src+(x-dest)) else m x

def userFlags : BitVec 32 := 7

/-- All but the last byte of the page is copied. -/
def copySharedPage (s : Machine) (addr cr3 : Word) (page : Page) : Option Machine :=
  if Aligned addr then
    let k := (alloc s).2
    let m := copyBytes s.mem (kernelAddr k) (kernelAddr (walkPml4 s.mem cr3 addr)) 4095
    let s₁ := mapVirtualAddressToPhysicalAddress clearTable { (alloc s).1 with mem := m } addr k
      userFlags cr3 false
    some { s₁ with pages := decrementReferenceCountOfPage page s₁.pages }
  else none

def doCopyOnWriteFault (s : Machine) (cr3 addr : Word) : Option Machine :=
  let found := findPageFromVirt s addr cr3
  if found.2.referenceCount = 1 then
    some (setPml4 (changeFlagsInParentPageTables found.1 addr cr3 (userFlags.setWidth 64)) cr3)
  else if 1 < found.2.referenceCount then copySharedPage found.1 addr cr3 found.2
  else some found.1

def vmaFlags (vma : Vma) : BitVec 32 := if vma.protection &&& protWrite ≠ 0 then 7 else 5

def doAnonFault (s : Machine) (cr3 : Word) (vma : Vma) (address : Word) : Option Machine :=
  if vma.file.isSome then some s
  else
    let addr := pageRoundUp address
    if Aligned addr then
      let page := (alloc s).2
      let s₁ := changeFlagsInParentPageTables (alloc s).1 addr cr3 ((vmaFlags vma).setWidth 64)
      let s₂ := mapVirtualAddressToPhysicalAddress clearTable s₁ addr page (vmaFlags vma) cr3 false
      some { s₂ with mem := fill s₂.mem (kernelAddr page) 4096 0 }
    else none

structure ReadRequest where
  diff : ℕ
  toRead : BitVec 32
  toOffset : BitVec 32
  strict : Bool

def readRequest (vma : Vma) (addr : Word) : Option ReadRequest :=
  if addr < vma.startAddr then
    some ⟨(vma.startAddr-addr).toNat,
      if addr+4096 ≤ vma.endAddr then (addr+4096-vma.startAddr).setWidth 32
      else (vma.endAddr-vma.startAddr).setWidth 32,
      vma.fileoffset.setWidth 32,false⟩
  else if vma.startAddr < addr ∧ addr < vma.endAddr then
    some ⟨0,if addr+4096 ≤ vma.endAddr then 4096 else (vma.endAddr-addr).setWidth 32,
      (vma.fileoffset+(addr-vma.startAddr)).setWidth 32,false⟩
  else if vma.startAddr = addr then
    some ⟨0,if addr+4096 ≤ vma.endAddr then 4096
      else (vma.endAddr-vma.startAddr).setWidth 32,vma.fileoffset.setWidth 32,true⟩
  else none

def tarfsReadSize (file : FileData) (size offset : Word) : Word :=
  if file.size.signExtend 64 ≤ offset+size then file.size.signExtend 64-offset else size

def numRead (file : FileData) (req : ReadRequest) : BitVec 32 :=
  (tarfsReadSize file (req.toRead.signExtend 64) (req.toOffset.signExtend 64)).setWidth 32

def deliver (m : Mem) (page : ℕ) (file : FileData) (req : ReadRequest) : Mem := fun x =>
  if page+req.diff ≤ x ∧ x < page+req.diff+(numRead file req).toInt.toNat ∧ x < page+4096 then
    file.bytes ((req.toOffset.signExtend 64).toNat+(x-page-req.diff))
  else m x

def fillPage (files : KernelPtr → FileData) (s : Machine) (file : Option KernelPtr)
    (page : Word) (req : ReadRequest) : Option Machine :=
  match file with
  | none => none
  | some fp =>
    let s₁ := { s with mem := deliver s.mem (kernelAddr page) (files fp) req }
    if req.strict ∧ ((numRead (files fp) req).sle 0 ∨ (numRead (files fp) req).slt req.toRead) then
      some { s₁ with pages := physMemFree page s₁.pages }
    else some s₁

def doFileFault (files : KernelPtr → FileData) (s : Machine) (mm : MmStruct) (vma : Vma)
    (address : Word) : Option Machine :=
  let addr := pageRoundUp address
  if Aligned addr then
    let page := (alloc s).2
    let s₁ := mapVirtualAddressToPhysicalAddress clearTable (alloc s).1 addr page (vmaFlags vma)
      mm.cr3 false
    let s₂ := { s₁ with mem := fill s₁.mem (kernelAddr page) 4096 0 }
    match readRequest vma addr with
    | none => some s₂
    | some req => fillPage files s₂ mm.file page req
  else none

def vmaFault (files : KernelPtr → FileData) (s : Machine) (mm : MmStruct) (vma : Vma)
    (address : Word) : Option Machine :=
  match vma.fault with
  | .doAnonFault => doAnonFault s mm.cr3 vma address
  | .doFileFault => doFileFault files s mm vma address

structure Process where
  pid : BitVec 16
  isSigsegvPending : Bool
  exited : Bool
  mm : MmStruct

/-- A signal to the two first processes or to the current one is dropped. -/
def sysKill {σ : Type} (current pid : BitVec 16) (sendSignal : σ → σ) (x : σ) : σ :=
  if pid = 0 ∨ pid = 1 then x
  else if current = pid then x
  else sendSignal x

structure Handled where
  machine : Machine
  process : Process
  nullVma : Bool

def segfault (p : Process) : Process := { p with isSigsegvPending := true }

/-- Where no VMA is closest, the handler reads `start_addr` through the null
pointer; `atNull` is the word it finds there. -/
def noVma (atNull : Word) (s : Machine) (p : Process) (address : Word) : Handled :=
  match findClosestVma p.mm.vma address with
  | some _ => ⟨s,sysKill p.pid p.pid segfault p,false⟩
  | none =>
    if atNull = stackStart then
      let expanded := expandStack address p.mm.vma
      let p' := { p with mm := { p.mm with vma := expanded.1 } }
      ⟨s,if expanded.2 then p' else sysKill p.pid p.pid segfault p',true⟩
    else ⟨s,p,true⟩

def isWrite (errorCode : BitVec 32) : Prop := errorCode &&& 2 ≠ 0

def isPresent (errorCode : BitVec 32) : Prop := errorCode &&& 1 ≠ 0

instance (errorCode : BitVec 32) : Decidable (isWrite errorCode) :=
  inferInstanceAs (Decidable (_ ≠ _))

instance (errorCode : BitVec 32) : Decidable (isPresent errorCode) :=
  inferInstanceAs (Decidable (_ ≠ _))

def doPageFault (files : KernelPtr → FileData) (atNull : Word) (s : Machine) (p : Process)
    (errorCode : BitVec 32) (address : Word) : Option Handled :=
  if kernbase < address ∧ errorCode.slt 4 then some ⟨s,p,false⟩
  else
    match findVma p.mm.vma address with
    | none => some (noVma atNull s p address)
    | some vma =>
      if isPresent errorCode ∧ isWrite errorCode then
        if vma.protection &&& protWrite ≠ 0 then
          (doCopyOnWriteFault s p.mm.cr3 (pageRoundUp address)).map (fun s' => ⟨s',p,false⟩)
        else some ⟨s,p,false⟩
      else
        (vmaFault files s p.mm vma (pageRoundUp address)).map (fun s' => ⟨s',p,false⟩)

def pathEntry (m : Mem) (cr3 : Word) (q : List (Fin 512)) (j : Fin 512) : Word :=
  (entryAt child (tables m) (frameOf cr3) q j).getD 0

def Grants (add : ℕ → Word → Word) (m : Mem) (cr3 v need : Word) : Prop :=
  ∀ q j, q++[j] <+: fullPath v → add q.length (pathEntry m cr3 q j) &&& need = need

def Permitted (m : Mem) (cr3 v need : Word) : Prop := Grants (fun _ e => e) m cr3 v need

def toAll (flags : Word) (_ : ℕ) (e : Word) : Word := e ||| flags

def toAbsent (flags : Word) (level : ℕ) (e : Word) : Word :=
  if level < 3 ∧ e &&& present = present then e else e ||| flags

theorem grants_iff (add add' : ℕ → Word → Word) (m m' : Mem) (cr3 v need : Word)
    (h : ∀ q j, q++[j] <+: fullPath v → add q.length (pathEntry m cr3 q j) &&& need =
      add' q.length (pathEntry m' cr3 q j) &&& need) :
    Grants add m cr3 v need ↔ Grants add' m' cr3 v need := by
  constructor
  · intro hg q j hpre
    rw [← h q j hpre]
    exact hg q j hpre
  · intro hg q j hpre
    rw [h q j hpre]
    exact hg q j hpre

variable {j : Fin 512} {q : List (Fin 512)} {v : Word}

theorem on_fullPath (h : q++[j] <+: fullPath v) :
    q++[j] <+: upperPath v ∧ q.length < 3 ∨ q = upperPath v ∧ j = getIndexOfPt v := by
  rcases List.prefix_concat_iff.mp h with he | hpre
  · obtain ⟨hq,hj⟩ := List.append_inj' he rfl
    exact Or.inr ⟨hq,List.singleton_inj.mp hj⟩
  · have hlen := hpre.length_le
    simp only [List.length_append, upperPath, List.length_cons, List.length_nil] at hlen
    exact Or.inl ⟨hpre,by omega⟩

theorem child_none_iff (e : Word) : child e = none ↔ ¬ e &&& present = present := by
  constructor
  · intro h hp
    rw [child_present hp] at h
    simp at h
  · exact child_absent

variable {dom : Domain} {s s' : Machine} {cr3 f p : Word} {margin : ℕ}

theorem map_path (h : Mapped dom margin false v p f cr3 s s') (hp : p &&& addressMask = p)
    (hpre : q++[j] <+: fullPath v) {b : Word} (hb : b &&& addressMask = 0) :
    pathEntry s'.mem cr3 q j &&& b = toAbsent f q.length (pathEntry s.mem cr3 q j) &&& b := by
  rcases on_fullPath hpre with ⟨hup,hlen⟩ | ⟨rfl,rfl⟩
  · simp only [toAbsent, pathEntry, hlen, true_and]
    rcases h.upper q j hup with ⟨e,he,hch,he'⟩ | ⟨habs,a,ha,he'⟩
    · have hpr : e &&& present = present := by
        by_contra hn
        exact hch (child_absent hn)
      simp only [he, he', Option.getD_some, hpr, if_true]
    · have hn : ¬ (entryAt child (tables s.mem) (frameOf cr3) q j).getD 0 &&& present = present := by
        cases ho : entryAt child (tables s.mem) (frameOf cr3) q j with
        | none => decide
        | some e =>
          rw [ho] at habs
          exact (child_none_iff e).mp habs
      rw [if_neg hn, he']
      exact retarget_bits _ a f ha hb
  · have hleaf := h.leaf rfl
    rw [toAbsent, if_neg (by simp [upperPath])]
    simp only [leaf] at hleaf
    simp only [pathEntry, hleaf, Option.getD_some]
    exact retarget_bits _ p f hp hb

theorem map_permitted (h : Mapped dom margin false v p f cr3 s s') (hp : p &&& addressMask = p)
    (need : Word) (hneed : need &&& addressMask = 0) :
    Permitted s'.mem cr3 v need ↔ Grants (toAbsent f) s.mem cr3 v need :=
  grants_iff _ _ _ _ cr3 v need (fun _ _ hpre => map_path h hp hpre hneed)

structure Target (dom : Domain) (cr3 addr : Word) : Prop where
  closed : PrefixClosed dom
  root : Aligned cr3
  aligned : Aligned addr
  inside : dom (frameOf cr3) (upperPath addr)
  last : ∀ j, ¬ dom (frameOf cr3) (upperPath addr++[j])

variable {addr : Word}

theorem target_path (ht : Target dom cr3 addr) (hpre : q++[j] <+: fullPath addr) :
    dom (frameOf cr3) q := by
  rcases on_fullPath hpre with ⟨hup,_⟩ | ⟨rfl,_⟩
  · exact closed_above ht.closed hup ht.inside
  · exact ht.inside

section
variable {dom : Domain} {cr3 addr : Word} (ht : Target dom cr3 addr) {margin : ℕ} {s : Machine}
  (hs : Forest dom margin s) (flags : Word) (hm : flags &&& addressMask = 0)
include ht hs hm

theorem changeFlags_path (hpre : q++[j] <+: fullPath addr) :
    entryAt child (tables (changeFlagsInParentPageTables s addr cr3 flags).mem) (frameOf cr3) q j =
      (entryAt child (tables s.mem) (frameOf cr3) q j).map (flagged flags (q.length+1 = 4)) := by
  have he := (changeFlags_entries ht.closed hs addr cr3 flags hm ht.root ht.inside ht.last).2
    (frameOf cr3) q j (target_path ht hpre)
  rwa [if_pos ⟨rfl,hpre⟩] at he

theorem changeFlags_grants (need : Word) :
    Grants (toAbsent flags) (changeFlagsInParentPageTables s addr cr3 flags).mem cr3 addr need ↔
      Grants (toAll flags) s.mem cr3 addr need := by
  apply grants_iff
  intro q j hpre
  have he := changeFlags_path ht hs flags hm hpre
  congr 1
  simp only [pathEntry, he, toAll, toAbsent]
  cases entryAt child (tables s.mem) (frameOf cr3) q j with
  | none => simp [present]
  | some e =>
    simp only [Option.map_some, Option.getD_some, flagged]
    by_cases hlen : q.length+1 = 4
    · have hlt : ¬ q.length < 3 := by omega
      simp only [hlen, or_true, if_true, hlt, false_and, if_false, BitVec.or_assoc, BitVec.or_self]
    · by_cases hpr : e &&& present = present
      · have hor : (e ||| flags) &&& present = present := by
          rw [BitVec.or_comm]
          exact BitFields.set_inside flags hpr
        simp only [hlen, or_false, hpr, if_true, hor, and_true, BitVec.or_assoc, BitVec.or_self,
          ite_self]
      · simp only [hlen, or_false, hpr, if_false, and_false]

theorem changeFlags_permitted {need : Word} (hneed : flags &&& need = need)
    (hpr : Permitted s.mem cr3 addr present) :
    Permitted (changeFlagsInParentPageTables s addr cr3 flags).mem cr3 addr need := by
  intro q j hpre
  have he := changeFlags_path ht hs flags hm hpre
  have hp := hpr q j hpre
  simp only [pathEntry, he] at hp ⊢
  cases ho : entryAt child (tables s.mem) (frameOf cr3) q j with
  | none =>
    rw [ho] at hp
    exact absurd hp (by decide)
  | some e =>
    rw [ho] at hp
    simp only [Option.getD_some] at hp
    simp only [Option.map_some, Option.getD_some, flagged, hp, true_or, if_true]
    exact BitFields.set_inside e hneed

end

variable {page : Word}

theorem fill_page (m : Mem) (hp : Aligned page) :
    WritesFrame (frameOf page) m (fill m (kernelAddr page) 4096 0) := by
  rw [kernelAddr_aligned page hp]
  exact fill_writesFrame m 0 le_rfl

theorem deliver_page (m : Mem) (hp : Aligned page) (file : FileData) (req : ReadRequest) :
    WritesFrame (frameOf page) m (deliver m (kernelAddr page) file req) := by
  intro x hx
  rw [kernelAddr_aligned page hp, deliver, if_neg (by omega)]

theorem copy_page (m : Mem) (page : Word) (hp : Aligned page) (src : ℕ) :
    WritesFrame (frameOf page) m (copyBytes m (kernelAddr page) src 4095) := by
  intro x hx
  rw [kernelAddr_aligned page hp, copyBytes, if_neg (by omega)]

theorem vmaFlags_present (vma : Vma) :
    (vmaFlags vma).setWidth 64 &&& present = present ∧
    (vmaFlags vma).setWidth 64 &&& addressMask = 0 := by
  unfold vmaFlags
  split_ifs <;> decide

section
variable {dom : Domain} {cr3 addr : Word} (ht : Target dom cr3 addr)
include ht

theorem target_guard (k : ℕ) : Target (withFrame dom k) cr3 addr := by
  refine ⟨withFrame_closed ht.closed k,ht.root,ht.aligned,Or.inl ht.inside,?_⟩
  rintro j (hd | ⟨_,hp⟩)
  · exact ht.last j hd
  · simp at hp

section
variable {margin : ℕ} {clear : Mem → ℕ → Mem} (hclear : Clears clear margin) {s : Machine}
  (hs : Forest dom margin s)
include hclear hs

theorem map_written (s₁ : Machine) (f : BitVec 32) (m' : Mem) (ha : (alloc s).2 ≠ 0)
    (hs₁ : Forest (withFrame dom (frameOf (alloc s).2)) margin s₁)
    (hpr : f.setWidth 64 &&& present = present) (hm : f.setWidth 64 &&& addressMask = 0)
    (hok : (mapVirtualAddressToPhysicalAddress clear s₁ addr (alloc s).2 f cr3 false).shortages =
      s₁.shortages)
    (hw : WritesFrame (frameOf (alloc s).2)
      (mapVirtualAddressToPhysicalAddress clear s₁ addr (alloc s).2 f cr3 false).mem m') :
    Forest dom margin { mapVirtualAddressToPhysicalAddress clear s₁ addr (alloc s).2 f cr3 false with
      mem := m' } ∧
    leaf m' cr3 addr =
      some (retarget ((leaf s₁.mem cr3 addr).getD 0) (alloc s).2 (f.setWidth 64)) ∧
    ∀ need, need &&& addressMask = 0 →
      (Permitted m' cr3 addr need ↔ Grants (toAbsent (f.setWidth 64)) s₁.mem cr3 addr need) := by
  have hu : Unused s.pages (alloc s).2 := alloc_unused s.pages ha
  have hwin := unused_window s.pages hs.frames _ hu
  have hg := target_guard ht (frameOf (alloc s).2)
  have hnot := (forest_guard ht.closed hs ha).2
  have hmap := map_mapped hg.closed hclear hs₁ hg.root hg.aligned
    hwin.1 hg.inside hg.last hpr hm hok
  obtain ⟨hforest,hent⟩ := forest_write ht.closed hmap.forest hnot hw
  refine ⟨hforest,(hent _ _ _ ht.inside).trans (hmap.leaf rfl),?_⟩
  intro need hneed
  rw [← map_permitted hmap (aligned_masked _ hwin.1 (by omega)) need hneed]
  apply grants_iff
  intro q j hpre
  rw [pathEntry, pathEntry, hent _ q j (target_path ht hpre)]

end

variable {s : Machine} (hs : Forest dom 1 s)
include hs

theorem anon_effect {vma : Vma} (hround : pageRoundUp addr = addr) (hfile : vma.file = none)
    (hfree : 4 ≤ freeCount s.pages) :
    ∃ s', doAnonFault s cr3 vma addr = some s' ∧ Forest dom 1 s' ∧
      ∀ need, need &&& addressMask = 0 → (Permitted s'.mem cr3 addr need ↔
        Grants (toAll ((vmaFlags vma).setWidth 64)) s.mem cr3 addr need) := by
  obtain ⟨hsup,ha⟩ := alloc_supplied ⟨hs.frames,rfl,hfree⟩
  obtain ⟨hguard,_⟩ := forest_guard ht.closed hs ha
  have hg := target_guard ht (frameOf (alloc s).2)
  have hfl := vmaFlags_present vma
  have hch := changeFlags_entries hg.closed hguard addr cr3 _ hfl.2 hg.root hg.inside hg.last
  have hgr := changeFlags_grants hg hguard _ hfl.2
  have hrest := changeFlags_rest (alloc s).1 addr cr3 ((vmaFlags vma).setWidth 64)
  have hal := (unused_window s.pages hs.frames _ (alloc_unused s.pages ha)).1
  refine ⟨_,
    by rw [doAnonFault, if_neg (by simp [hfile])]; dsimp only; rw [hround, if_pos ht.aligned],?_⟩
  generalize changeFlagsInParentPageTables (alloc s).1 addr cr3 ((vmaFlags vma).setWidth 64) = s₁ at *
  have hok := (map_supplied clearTable 0 s₁ s₁ addr (alloc s).2 (vmaFlags vma) cr3 false
    ⟨hch.1.frames,rfl,by rw [hrest.1]; exact hsup.2.2⟩).2.1
  obtain ⟨hforest,_,hperm⟩ := map_written ht clears_memset hs s₁ (vmaFlags vma) _ ha hch.1 hfl.1
    hfl.2 hok
    (fill_page _ hal)
  refine ⟨hforest,?_⟩
  intro need hneed
  exact (hperm need hneed).trans (hgr need)

end

theorem fillPage_written {files : KernelPtr → FileData} {s₁ : Machine} {file : Option KernelPtr}
    (hp : Aligned page) {req : ReadRequest} (h : fillPage files s₁ file page req = some s') :
    WritesFrame (frameOf page) s₁.mem s'.mem := by
  cases file with
  | none => simp [fillPage] at h
  | some fp =>
    have hmem : s'.mem = deliver s₁.mem (kernelAddr page) (files fp) req := by
      simp only [fillPage] at h
      split_ifs at h <;> exact (Option.some.inj h) ▸ rfl
    rw [hmem]
    exact deliver_page s₁.mem hp (files fp) req

section
variable {dom : Domain} {cr3 addr : Word} (ht : Target dom cr3 addr) {s : Machine}
  (hs : Forest dom 1 s)
include ht hs

theorem file_effect (files : KernelPtr → FileData) {mm : MmStruct} (hmm : mm.cr3 = cr3)
    (vma : Vma) (hround : pageRoundUp addr = addr) (hfree : 4 ≤ freeCount s.pages) :
    (doFileFault files s mm vma addr = none ↔ readRequest vma addr ≠ none ∧ mm.file = none) ∧
    ∀ s', doFileFault files s mm vma addr = some s' →
      ∀ need, need &&& addressMask = 0 → (Permitted s'.mem cr3 addr need ↔
        Grants (toAbsent ((vmaFlags vma).setWidth 64)) s.mem cr3 addr need) := by
  obtain ⟨hsup,ha⟩ := alloc_supplied ⟨hs.frames,rfl,hfree⟩
  have hal := (unused_window s.pages hs.frames _ (alloc_unused s.pages ha)).1
  have hfl := vmaFlags_present vma
  have hguard := (forest_guard ht.closed hs ha).1
  have hok := (map_supplied clearTable 0 (alloc s).1 (alloc s).1 addr (alloc s).2 (vmaFlags vma)
    cr3 false ⟨hsup.1,rfl,hsup.2.2⟩).2.1
  rw [doFileFault]
  dsimp only
  rw [hround, if_pos ht.aligned, hmm]
  have hfill := fill_page (mapVirtualAddressToPhysicalAddress clearTable (alloc s).1 addr
    (alloc s).2 (vmaFlags vma) cr3 false).mem hal
  have hperm := fun m' hw => (map_written ht clears_memset hs (alloc s).1 (vmaFlags vma) m' ha hguard
    hfl.1 hfl.2 hok hw).2.2
  generalize mapVirtualAddressToPhysicalAddress clearTable (alloc s).1 addr
    (alloc s).2 (vmaFlags vma) cr3 false = s₁ at *
  cases readRequest vma addr with
  | none =>
    refine ⟨by simp,?_⟩
    rintro s' hs'
    rw [← Option.some.inj hs']
    exact hperm _ hfill
  | some req =>
    constructor
    · cases mm.file with
      | none => simp [fillPage]
      | some fp =>
        simp only [fillPage]
        split_ifs <;> simp
    · intro s' hs'
      have hw := fillPage_written hal hs'
      exact hperm _ (writesFrame_trans hfill hw)

theorem shared_effect (page : Page) (hfree : 4 ≤ freeCount s.pages) :
    ∃ s', copySharedPage s addr cr3 page = some s' ∧
      ∀ need, need &&& addressMask = 0 → (Permitted s'.mem cr3 addr need ↔
        Grants (toAbsent (userFlags.setWidth 64)) s.mem cr3 addr need) := by
  obtain ⟨hsup,ha⟩ := alloc_supplied ⟨hs.frames,rfl,hfree⟩
  have hal := (unused_window s.pages hs.frames _ (alloc_unused s.pages ha)).1
  obtain ⟨hguard,hnot⟩ := forest_guard ht.closed hs ha
  have hcopy := copy_page s.mem (alloc s).2 hal (kernelAddr (walkPml4 s.mem cr3 addr))
  have hre := forest_refill ht.closed hguard hnot hcopy
  have hent := (forest_write ht.closed hguard hnot hcopy).2
  refine ⟨_,by rw [copySharedPage, if_pos ht.aligned],?_⟩
  dsimp only
  generalize copyBytes s.mem (kernelAddr (alloc s).2)
    (kernelAddr (walkPml4 s.mem cr3 addr)) 4095 = m at *
  have hok := (map_supplied clearTable 0 { (alloc s).1 with mem := m } { (alloc s).1 with mem := m }
    addr (alloc s).2 userFlags cr3 false ⟨hsup.1,rfl,hsup.2.2⟩).2.1
  have hperm := (map_written ht clears_memset hs { (alloc s).1 with mem := m } userFlags _ ha hre
    (by decide)
    (by decide) hok (fun _ _ => rfl)).2.2
  intro need hneed
  rw [hperm need hneed]
  apply grants_iff
  intro q j hpre
  rw [pathEntry, pathEntry, hent _ q j (target_path ht hpre)]
  rfl

end

/-- The reference count that a copy-on-write fault finds for a frame. Looking
it up takes a frame, which may be the very one that is looked up. -/
def seenCount (pages : List Page) (physAddr : Word) : BitVec 32 :=
  match pageOf pages physAddr with
  | none => 0
  | some p =>
    if p.isFreePage = false ∧ physAddr = (physMemAlloc pages).2 then p.referenceCount+1
    else p.referenceCount

theorem seenCount_eq {pages : List Page} (hd : (addresses pages).Nodup)
    (hcount : ∀ p ∈ pages, p.isFreePage = true → p.referenceCount ≠ 0)
    (ha : (physMemAlloc pages).2 ≠ 0) (physAddr : Word) :
    ((pageOf (physMemAlloc pages).1 physAddr).getD nullPage).referenceCount =
      seenCount pages physAddr := by
  obtain ⟨⟨p,hp,hfree,htaken⟩,hrest⟩ := pageOf_alloc hd ha
  unfold seenCount
  by_cases he : physAddr = (physMemAlloc pages).2
  · rw [he, hp, htaken]
    simp [hfree, taken]
  · rcases hrest physAddr he with hsame | ⟨q,hq,hused,hrep⟩
    · rw [hsame]
      cases pageOf pages physAddr with
      | none => rfl
      | some q => simp [he]
    · rw [hrep, hq]
      simp only [Option.getD_some, hused, Bool.true_eq_false, false_and, if_false, repaired,
        if_neg (hcount q (pageOf_mem _ _ _ hq) hused)]

theorem work_page (s : Machine) (physAddr : Word) : Work 1 s (getPageFromPhysAddr s physAddr).1 :=
  work_cleared clears_memset s

theorem cow_effect (ht : Target dom cr3 addr) (hs : Forest dom 1 s)
    (hfree : 5 ≤ freeCount s.pages)
    (hcount : ∀ p ∈ s.pages, p.isFreePage = true → p.referenceCount ≠ 0) :
    ∃ s', doCopyOnWriteFault s cr3 addr = some s' ∧
      ∀ need, need &&& addressMask = 0 → userFlags.setWidth 64 &&& need = need →
        Permitted s.mem cr3 addr present →
        (Permitted s'.mem cr3 addr need ↔
          seenCount s.pages (walkPml4 s.mem cr3 addr) = 1 ∨
          1 < seenCount s.pages (walkPml4 s.mem cr3 addr) ∧
            Grants (toAbsent (userFlags.setWidth 64)) s.mem cr3 addr need ∨
          seenCount s.pages (walkPml4 s.mem cr3 addr) = 0 ∧ Permitted s.mem cr3 addr need) := by
  obtain ⟨hsup,ha⟩ := alloc_supplied ⟨hs.frames,rfl,hfree⟩
  have hseen := seenCount_eq (framesOk_nodup hs.frames) hcount ha (walkPml4 s.mem cr3 addr)
  have hwork := work_page s (walkPml4 s.mem cr3 addr)
  obtain ⟨hforest,_,hent⟩ := fresh_forest ht.closed hs (hwork.fresh hs.frames hsup.2.1)
  have hsame : ∀ add need, Grants add (findPageFromVirt s addr cr3).1.mem cr3 addr need ↔
      Grants add s.mem cr3 addr need := by
    intro add need
    apply grants_iff
    intro q j hpre
    rw [pathEntry, pathEntry]
    exact congrArg (fun o => add q.length (Option.getD o 0) &&& need)
      (hent _ q j (target_path ht hpre))
  have hcount' : (findPageFromVirt s addr cr3).2.referenceCount =
      seenCount s.pages (walkPml4 s.mem cr3 addr) := hseen
  have hfree' : 4 ≤ freeCount (findPageFromVirt s addr cr3).1.pages := hsup.2.2
  change Forest dom 1 (findPageFromVirt s addr cr3).1 at hforest
  rw [doCopyOnWriteFault, hcount']
  generalize findPageFromVirt s addr cr3 = found at *
  generalize seenCount s.pages (walkPml4 s.mem cr3 addr) = n at *
  by_cases h1 : n = 1
  · rw [if_pos h1]
    refine ⟨_,rfl,?_⟩
    intro need hneed hsub hpr
    refine iff_of_true ?_ (Or.inl h1)
    exact changeFlags_permitted ht hforest _ (by decide) hsub ((hsame _ _).mpr hpr)
  · rw [if_neg h1]
    by_cases h2 : 1 < n
    · rw [if_pos h2]
      obtain ⟨s',hs',hperm⟩ := shared_effect ht hforest found.2 hfree'
      refine ⟨s',hs',?_⟩
      intro need hneed hsub hpr
      rw [hperm need hneed, hsame]
      have h0 : n ≠ 0 := by
        rintro rfl
        exact absurd h2 (by decide)
      simp only [h1, h2, h0, true_and, false_and, or_false, false_or]
    · rw [if_neg h2]
      refine ⟨_,rfl,?_⟩
      intro need hneed hsub hpr
      have h0 : n = 0 := by
        have hn : ¬ 1 < n.toNat := h2
        have hne : n.toNat ≠ 1 := fun he => h1 (BitVec.eq_of_toNat_eq he)
        apply BitVec.eq_of_toNat_eq
        show n.toNat = 0
        omega
      rw [or_iff_right h1, or_iff_right (fun h => h2 h.1), and_iff_right h0]
      exact hsame _ need

end PreemptiveOS.PageFaults
