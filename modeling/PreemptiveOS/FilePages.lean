import PreemptiveOS.ExecArguments
import PreemptiveOS.FaultProgress
import PreemptiveOS.FreeAreas

/-!
# The page that a file fault builds

A file fault maps a new frame, clears it and then reads the part of the file
that belongs to the page. For a segment of an executable the page then holds
the bytes of the segment and zeros. A read that gives too little is noticed
only in the page that starts with the VMA; the frame is handed back then, and
it stays mapped.
-/

set_option autoImplicit false

namespace PreemptiveOS.FilePages
open ByteMemory PhysMmgr VirtMmgr PageTree PageFlags PageRecords FreshFrames DataFrames Vmas
open KernelObjects PageFaults Fork FaultProgress Ownership Exec
open ExecArguments (userFrame userByte)
open VmaRuns (mmapRegion_mapped shortPhdr)
open FreeAreas (mmapRegion_low)

def Short (file : FileData) (req : ReadRequest) : Prop :=
  (numRead file req).sle 0 ∨ (numRead file req).slt req.toRead

instance (file : FileData) (req : ReadRequest) : Decidable (Short file req) :=
  inferInstanceAs (Decidable (_ ∨ _))

def fileFault (clear : Mem → ℕ → Mem) (files : KernelPtr → FileData) (s : Machine) (mm : MmStruct)
    (vma : Vma) (address : Word) : Option (Machine × ℤ) :=
  let addr := pageRoundUp address
  if Aligned addr then
    let page := (alloc s).2
    let s₁ := mapVirtualAddressToPhysicalAddress clear (alloc s).1 addr page (vmaFlags vma)
      mm.cr3 false
    let s₂ := { s₁ with mem := fill s₁.mem (kernelAddr page) 4096 0 }
    match readRequest vma addr with
    | none => some (s₂,1)
    | some req =>
      match mm.file with
      | none => none
      | some fp =>
        let s₃ := { s₂ with mem := deliver s₂.mem (kernelAddr page) (files fp) req }
        if req.strict ∧ Short (files fp) req then
          some ({ s₃ with pages := physMemFree page s₃.pages },0)
        else some (s₃,1)
  else none

theorem fileFault_effect (files : KernelPtr → FileData) (s : Machine) (mm : MmStruct) (vma : Vma)
    (address : Word) :
    (fileFault clearTable files s mm vma address).map Prod.fst =
      doFileFault files s mm vma address := by
  rw [fileFault, doFileFault]
  dsimp only
  generalize mapVirtualAddressToPhysicalAddress clearTable (alloc s).1 (pageRoundUp address)
    (alloc s).2 (vmaFlags vma) mm.cr3 false = s₁
  by_cases hal : Aligned (pageRoundUp address)
  · rw [if_pos hal, if_pos hal]
    cases readRequest vma (pageRoundUp address) with
    | none => rfl
    | some req =>
      cases mm.file with
      | none => rfl
      | some fp =>
        dsimp only [fillPage]
        by_cases hshort : req.strict ∧ Short (files fp) req
        · rw [if_pos hshort, if_pos (show _ ∧ (_ ∨ _) from hshort)]
          rfl
        · rw [if_neg hshort, if_neg (show ¬ (_ ∧ (_ ∨ _)) from hshort)]
          rfl
  · rw [if_neg hal, if_neg hal]
    rfl

def Fails (file : FileData) (req : Option ReadRequest) : Prop :=
  ∃ q ∈ req, q.strict = true ∧ Short file q

def filled (m : Mem) (page : Word) (file : FileData) : Option ReadRequest → Mem
  | none => fill m (kernelAddr page) 4096 0
  | some req => deliver (fill m (kernelAddr page) 4096 0) (kernelAddr page) file req

def pageByte (file : FileData) : Option ReadRequest → ℕ → Byte
  | none, _ => 0
  | some req, o =>
    if req.diff ≤ o ∧ o < req.diff+(numRead file req).toInt.toNat then
      file.bytes ((req.toOffset.signExtend 64).toNat+(o-req.diff))
    else 0

variable {file : FileData} {m : Mem} {page : Word} {o : ℕ}

theorem filled_byte {req : Option ReadRequest} (ho : o < 4096) :
    filled m page file req (kernelAddr page+o) = pageByte file req o := by
  have hzero : fill m (kernelAddr page) 4096 0 (kernelAddr page+o) = 0 := by
    rw [fill, if_pos (by omega)]
  cases req with
  | none => exact hzero
  | some req =>
    rw [filled, deliver, hzero, pageByte]
    apply if_congr
    · omega
    · congr 2
      omega
    · rfl

theorem filled_page (hp : Aligned page) (file : FileData) (req : Option ReadRequest) :
    WritesFrame (frameOf page) m (filled m page file req) := by
  have hfill := fill_page m hp
  cases req with
  | none => exact hfill
  | some req => exact writesFrame_trans hfill (deliver_page _ hp file req)

section
variable (clear : Mem → ℕ → Mem) (files : KernelPtr → FileData) (s : Machine) (mm : MmStruct)
  (vma : Vma) (address : Word) (fp : KernelPtr) (hfile : mm.file = some fp)

def mapped : Machine :=
  mapVirtualAddressToPhysicalAddress clear (alloc s).1 (pageRoundUp address) (alloc s).2
    (vmaFlags vma) mm.cr3 false

include hfile

theorem fileFault_failed (hal : Aligned (pageRoundUp address))
    (hfail : Fails (files fp) (readRequest vma (pageRoundUp address))) :
    fileFault clear files s mm vma address = some
      ({ mapped clear s mm vma address with
        mem := filled (mapped clear s mm vma address).mem (alloc s).2 (files fp)
          (readRequest vma (pageRoundUp address)),
        pages := physMemFree (alloc s).2 (mapped clear s mm vma address).pages },0) := by
  obtain ⟨req,hreq,hshort⟩ := hfail
  rw [Option.mem_def] at hreq
  rw [fileFault]
  dsimp only
  rw [if_pos hal, hreq, hfile]
  dsimp only
  rw [if_pos hshort]
  rfl

theorem fileFault_done (hal : Aligned (pageRoundUp address))
    (hdone : ¬ Fails (files fp) (readRequest vma (pageRoundUp address))) :
    fileFault clear files s mm vma address = some
      ({ mapped clear s mm vma address with
        mem := filled (mapped clear s mm vma address).mem (alloc s).2 (files fp)
          (readRequest vma (pageRoundUp address)) },1) := by
  rw [fileFault]
  dsimp only
  rw [if_pos hal, hfile]
  cases hreq : readRequest vma (pageRoundUp address) with
  | none => rfl
  | some req =>
    dsimp only
    rw [if_neg (fun hshort => hdone ⟨req,hreq,hshort⟩)]
    rfl

omit hfile in
end

variable {vma : Vma}

section
variable {dom : Domain} {cr3 addr : Word} (ht : Target dom cr3 addr) {margin : ℕ}
  {clear : Mem → ℕ → Mem} (hclear : Clears clear margin) {s : Machine} (hs : Forest dom margin s)
include ht hclear hs

theorem mapped_leaf {mm : MmStruct} {address : Word} (hcr3 : mm.cr3 = cr3)
    (haddr : pageRoundUp address = addr) (hfree : 4 ≤ freeCount s.pages) {m' : Mem}
    (hw : WritesFrame (frameOf (alloc s).2) (mapped clear s mm vma address).mem m') :
    ∃ e, leaf m' cr3 addr = some e ∧ e &&& present = present ∧ e &&& addressMask = (alloc s).2 := by
  obtain ⟨hsup,ha⟩ := alloc_supplied ⟨hs.frames,rfl,hfree⟩
  have hfl := vmaFlags_present vma
  have hguard := (forest_guard ht.closed hs ha).1
  have hwin := unused_window s.pages hs.frames _ (alloc_unused s.pages ha)
  have hmask := aligned_masked (alloc s).2 hwin.1 (by rw [alloc_frame]; omega)
  have hok := (map_supplied clear 0 (alloc s).1 (alloc s).1 addr (alloc s).2 (vmaFlags vma) cr3
    false ⟨hsup.1,rfl,hsup.2.2⟩).2.1
  rw [mapped, hcr3, haddr] at hw
  refine ⟨_,(map_written ht hclear hs (alloc s).1 (vmaFlags vma) m' ha hguard hfl.1 hfl.2 hok hw).2.1,
    ?_,retarget_address _ _ _ hmask hfl.2⟩
  rw [retarget_bits _ _ _ hmask (by decide)]
  exact BitFields.set_inside _ hfl.1

end

theorem leaf_byte {cr3 v x e : Word} (hleaf : leaf m cr3 v = some e)
    (hpresent : e &&& present = present) (hx : x.toNat/4096 = v.toNat/4096) :
    userByte m cr3 x = some (m (kernelAddr (e &&& addressMask)+x.toNat%4096)) := by
  have hpage : pageNumber x = pageNumber v := by
    rw [pageNumber, pageNumber, hx]
  rw [userByte, userFrame, pte_same_page m cr3 hpage, pte, hleaf, Option.getD_some,
    child_present hpresent, Option.map_some, kernelAddr_aligned _ (masked_aligned e)]

theorem signExtend_emod (x : BitVec 32) : ((x.signExtend 64).toNat : ℤ) = x.toInt%2^64 := by
  have hint : (x.signExtend 64).toInt = x.toInt := BitVec.toInt_signExtend_of_le (by decide)
  have hcond := BitVec.toInt_eq_toNat_cond (x.signExtend 64)
  have hlt := (x.signExtend 64).isLt
  rw [← hint, hcond]
  split_ifs <;> omega

theorem toInt_nonneg {x : BitVec 32} (h : x.toNat < 2^31) : x.toInt = x.toNat :=
  BitVec.toInt_eq_toNat_of_lt (by omega)

theorem signExtend_nonneg (x : BitVec 32) (h : x.toNat < 2^31) :
    (x.signExtend 64).toNat = x.toNat := by
  have hmod := signExtend_emod x
  rw [toInt_nonneg h] at hmod
  omega

theorem readSize_inside (file : FileData) (size offset : Word) (hz : file.size.toNat < 2^31)
    (ht : size.toNat < 2^31) (ho : offset.toNat ≤ file.size.toNat) :
    (tarfsReadSize file size offset).toNat = min size.toNat (file.size.toNat-offset.toNat) := by
  have hsize := signExtend_nonneg file.size hz
  rw [tarfsReadSize]
  by_cases hlast : file.size.signExtend 64 ≤ offset+size
  · rw [if_pos hlast, BitVec.toNat_sub, hsize]
    rw [BitVec.le_def, BitVec.toNat_add, hsize] at hlast
    omega
  · rw [if_neg hlast]
    rw [BitVec.le_def, BitVec.toNat_add, hsize] at hlast
    omega

variable {req : ReadRequest}

theorem numRead_inside (hz : file.size.toNat < 2^31) (ht : req.toRead.toNat < 2^31)
    (ho : req.toOffset.toNat ≤ file.size.toNat) :
    (numRead file req).toNat = min req.toRead.toNat (file.size.toNat-req.toOffset.toNat) := by
  have hread := signExtend_nonneg req.toRead ht
  have hoff := signExtend_nonneg req.toOffset (by omega)
  have hinside := readSize_inside file (req.toRead.signExtend 64) (req.toOffset.signExtend 64) hz
    (by rwa [hread]) (by rwa [hoff])
  rw [hread, hoff] at hinside
  rw [numRead, BitVec.toNat_setWidth, hinside]
  omega

structure Segment (file : FileData) (vma : Vma) : Prop where
  start : 4096 ≤ vma.startAddr.toNat
  low : vma.startAddr.toNat ≤ kernbase.toNat
  ending : vma.endAddr.toNat = vma.startAddr.toNat+vma.filesize.toNat
  size : file.size.toNat < 2^31
  inside : vma.fileoffset.toNat+vma.filesize.toNat ≤ file.size.toNat

def segmentByte (file : FileData) (vma : Vma) (x : ℕ) : Byte :=
  if vma.startAddr.toNat ≤ x ∧ x < vma.endAddr.toNat then
    file.bytes (vma.fileoffset.toNat+(x-vma.startAddr.toNat))
  else 0

def Overrun (file : FileData) (vma : Vma) : Prop :=
  ∃ i, vma.fileoffset.toNat+vma.filesize.toNat ≤ i ∧ i < file.size.toNat ∧
    vma.startAddr.toNat+(i-vma.fileoffset.toNat) < 2^64 ∧ file.bytes i ≠ 0

theorem pageByte_inside (hz : file.size.toNat < 2^31) (ht : req.toRead.toNat < 2^31)
    (ho : req.toOffset.toNat ≤ file.size.toNat) (o : ℕ) :
    pageByte file (some req) o =
      if req.diff ≤ o ∧
          o < req.diff+min req.toRead.toNat (file.size.toNat-req.toOffset.toNat) then
        file.bytes (req.toOffset.toNat+(o-req.diff))
      else 0 := by
  have hread := numRead_inside hz ht ho
  rw [pageByte, signExtend_nonneg _ (by omega), toInt_nonneg (by omega), hread, Int.toNat_natCast]

section
variable {file : FileData} {vma : Vma} (h : Segment file vma) (addr : Word)
include h

theorem segment_small : vma.filesize.toNat < 2^31 ∧ vma.fileoffset.toNat < 2^31 := by
  have hsize := h.size
  have hinside := h.inside
  omega

theorem request_byte (hdiff : addr.toNat+req.diff = max vma.startAddr.toNat addr.toNat)
    (hread : addr.toNat+req.diff+req.toRead.toNat = min (addr.toNat+4096) vma.endAddr.toNat)
    (hoff : req.toOffset.toNat = vma.fileoffset.toNat+(addr.toNat+req.diff-vma.startAddr.toNat))
    (ho : o < 4096) : pageByte file (some req) o = segmentByte file vma (addr.toNat+o) := by
  have hsmall := segment_small h
  have hending := h.ending
  have hinside := h.inside
  rw [pageByte_inside h.size (by omega) (by omega), segmentByte, hending]
  apply if_congr
  · omega
  · congr 1
    omega
  · rfl

theorem segment_offset (d : Word) (hd : d.toNat ≤ vma.filesize.toNat) :
    ((vma.fileoffset+d).setWidth 32).toNat = vma.fileoffset.toNat+d.toNat := by
  have hsmall := segment_small h
  have hinside := h.inside
  have hsize := h.size
  rw [BitVec.toNat_setWidth, BitVec.toNat_add]
  omega

theorem start_offset : (vma.fileoffset.setWidth 32).toNat = vma.fileoffset.toNat := by
  have hsmall := segment_small h
  rw [BitVec.toNat_setWidth]
  omega

omit h in
theorem request_length (b last : Word) (hpage : addr.toNat+4096 < 2^64)
    (hb : b.toNat ≤ addr.toNat+4096) (hlast : b.toNat ≤ last.toNat)
    (hshort : last.toNat < b.toNat+2^31) :
    b.toNat+(if addr+4096 ≤ last then (addr+4096-b).setWidth 32
      else (last-b).setWidth 32 : BitVec 32).toNat = min (addr.toNat+4096) last.toNat := by
  have hnext : (addr+4096).toNat = addr.toNat+4096 := by
    rw [BitVec.toNat_add, show (4096 : Word).toNat = 4096 from rfl]
    omega
  split_ifs with hle
  · rw [BitVec.le_def, hnext] at hle
    rw [BitVec.toNat_setWidth, BitVec.toNat_sub_of_le (hb.trans hnext.ge), hnext]
    omega
  · rw [BitVec.le_def, hnext] at hle
    rw [BitVec.toNat_setWidth, BitVec.toNat_sub_of_le hlast]
    omega

omit h in
theorem whole_page : (4096 : BitVec 32) = (addr+4096-addr).setWidth 32 := by
  rw [BitVec.add_comm, BitVec.add_sub_cancel]
  rfl

theorem segment_before (hpage : addr.toNat+4096 < 2^64) (hfirst : addr < vma.startAddr)
    (hreach : vma.startAddr.toNat < addr.toNat+4096) (ho : o < 4096) :
    pageByte file (readRequest vma addr) o = segmentByte file vma (addr.toNat+o) := by
  have hsmall := segment_small h
  have hending := h.ending
  have hoff := start_offset h
  have hlen := request_length addr vma.startAddr vma.endAddr hpage hreach.le (by omega) (by omega)
  rw [readRequest, if_pos hfirst]
  rw [BitVec.lt_def] at hfirst
  have hdiff : (vma.startAddr-addr).toNat = vma.startAddr.toNat-addr.toNat :=
    BitVec.toNat_sub_of_le hfirst.le
  apply request_byte h addr _ _ _ ho
  all_goals
    dsimp only
    omega

/-- A page in the middle gets the bytes of the file up to the length that is asked for. -/
theorem within_byte (hfirst : vma.startAddr < addr) (hlast : addr < vma.endAddr) (len : BitVec 32)
    (hlen : (if addr+4096 ≤ vma.endAddr then 4096 else (vma.endAddr-addr).setWidth 32) = len)
    (hsize : len.toNat < 2^31) (o : ℕ) :
    pageByte file (readRequest vma addr) o =
      if o < len.toNat ∧
          addr.toNat+o < vma.startAddr.toNat+(file.size.toNat-vma.fileoffset.toNat) then
        file.bytes (vma.fileoffset.toNat+(addr.toNat+o-vma.startAddr.toNat))
      else 0 := by
  have hending := h.ending
  have hinside := h.inside
  rw [readRequest, if_neg (BitVec.not_lt.mpr (BitVec.le_of_lt hfirst)), if_pos ⟨hfirst,hlast⟩, hlen]
  rw [BitVec.lt_def] at hfirst hlast
  have hdiff : (addr-vma.startAddr).toNat = addr.toNat-vma.startAddr.toNat :=
    BitVec.toNat_sub_of_le hfirst.le
  have hoff := segment_offset h (addr-vma.startAddr) (by omega)
  rw [pageByte_inside h.size hsize (by dsimp only; omega)]
  dsimp only
  refine if_congr (by omega) (congrArg _ ?_) rfl
  omega

theorem segment_within (hpage : addr.toNat+4096 < 2^64) (hfirst : vma.startAddr < addr)
    (hlast : addr < vma.endAddr) (ho : o < 4096) :
    pageByte file (readRequest vma addr) o = segmentByte file vma (addr.toNat+o) := by
  have hsmall := segment_small h
  have hending := h.ending
  have hinside := h.inside
  have hfirst' := BitVec.lt_def.mp hfirst
  have hlast' := BitVec.lt_def.mp hlast
  have hlen := request_length addr addr vma.endAddr hpage (by omega) hlast'.le (by omega)
  rw [← whole_page] at hlen
  rw [within_byte h addr hfirst hlast _ rfl (by omega), segmentByte]
  exact if_congr (by omega) rfl rfl

theorem segment_start (hpage : addr.toNat+4096 < 2^64) (hstart : vma.startAddr = addr)
    (ho : o < 4096) :
    pageByte file (readRequest vma addr) o = segmentByte file vma (addr.toNat+o) := by
  have hsmall := segment_small h
  have hending := h.ending
  have hoff := start_offset h
  have hnat : vma.startAddr.toNat = addr.toNat := congrArg BitVec.toNat hstart
  have hlen := request_length addr addr vma.endAddr hpage (by omega) (by omega) (by omega)
  rw [← whole_page] at hlen
  rw [readRequest, hstart, if_neg (BitVec.lt_irrefl addr),
    if_neg (fun hc => BitVec.lt_irrefl addr hc.1), if_pos rfl]
  apply request_byte h addr _ _ _ ho
  all_goals
    dsimp only
    omega

omit h in
theorem segment_behind (hfirst : vma.startAddr < addr) (hlast : vma.endAddr ≤ addr) (o : ℕ) :
    pageByte file (readRequest vma addr) o = segmentByte file vma (addr.toNat+o) := by
  rw [readRequest, if_neg (BitVec.not_lt.mpr (BitVec.le_of_lt hfirst)),
    if_neg (fun hc => BitVec.not_lt.mpr hlast hc.2),
    if_neg (show vma.startAddr ≠ addr from fun hc => BitVec.lt_irrefl addr (hc ▸ hfirst)), pageByte,
    segmentByte]
  rw [BitVec.le_def] at hlast
  rw [if_neg (by omega)]

/-- Every page of a segment is right but the last one of the address space. -/
theorem segment_page (hpage : addr.toNat+4096 < 2^64 ∨ vma.endAddr.toNat ≤ addr.toNat)
    (hreach : vma.startAddr.toNat < addr.toNat+4096) (o : ℕ) (ho : o < 4096) :
    pageByte file (readRequest vma addr) o = segmentByte file vma (addr.toNat+o) := by
  have hending := h.ending
  have hlow := h.low
  rw [show kernbase.toNat = 2^64-2^31 from rfl] at hlow
  by_cases hbefore : addr < vma.startAddr
  · have hlt := BitVec.lt_def.mp hbefore
    exact segment_before h addr (by omega) hbefore hreach ho
  by_cases hstart : vma.startAddr = addr
  · have hnat := congrArg BitVec.toNat hstart
    exact segment_start h addr (by omega) hstart ho
  have hfirst : vma.startAddr < addr :=
    BitVec.lt_of_le_ne (BitVec.not_lt.mp hbefore) hstart
  by_cases hlast : addr < vma.endAddr
  · have hlt := BitVec.lt_def.mp hlast
    exact segment_within h addr (by omega) hfirst hlast ho
  · exact segment_behind addr hfirst (BitVec.not_lt.mp hlast) o

/-- A page of a segment is right unless it is the last one of the address space,
the segment ends in it, and the file goes on with other bytes than zeros. -/
theorem segment_page_iff (hpage : addr.toNat ≤ 2^64-4096)
    (hreach : vma.startAddr.toNat < addr.toNat+4096) :
    (∀ o < 4096, pageByte file (readRequest vma addr) o = segmentByte file vma (addr.toNat+o)) ↔
      ¬ (2^64-4096 ≤ addr.toNat ∧ addr.toNat < vma.endAddr.toNat ∧ Overrun file vma) := by
  by_cases hlast : 2^64-4096 ≤ addr.toNat ∧ addr.toNat < vma.endAddr.toNat
  · have hending := h.ending
    have hlow := h.low
    rw [show kernbase.toNat = 2^64-2^31 from rfl] at hlow
    -- the end of the page is 0, so that a whole page is asked for
    have hnext : addr+4096 = 0 := by
      apply BitVec.eq_of_toNat_eq
      rw [BitVec.toNat_add, show (4096 : Word).toNat = 4096 from rfl]
      show _ = 0
      omega
    have hbyte := within_byte h addr (BitVec.lt_def.mpr (by omega)) (BitVec.lt_def.mpr hlast.2) 4096
      (if_pos (hnext ▸ Nat.zero_le _)) (by decide)
    have hwhole : (4096 : BitVec 32).toNat = 4096 := rfl
    constructor
    · rintro hall ⟨_,_,i,hle,hlt,hfit,hne⟩
      have hi := hall (vma.startAddr.toNat+(i-vma.fileoffset.toNat)-addr.toNat) (by omega)
      rw [hbyte, if_pos (by omega), segmentByte, if_neg (by omega)] at hi
      apply hne
      rw [← hi]
      congr 1
      omega
    · intro hnot o ho
      rw [hbyte, segmentByte]
      by_cases hin : addr.toNat+o < vma.endAddr.toNat
      · have hinside := h.inside
        rw [if_pos (by omega), if_pos (by omega)]
      · rw [if_neg (by omega : ¬ (vma.startAddr.toNat ≤ addr.toNat+o ∧ _))]
        split_ifs
        · by_contra hne
          exact hnot ⟨hlast.1,hlast.2,_,by omega,by omega,by omega,hne⟩
        · rfl
  · exact iff_of_true (segment_page h addr (by omega) hreach) (fun hc => hlast ⟨hc.1,hc.2.1⟩)

end

def firstRequest (vma : Vma) : ReadRequest :=
  ⟨0,if vma.startAddr+4096 ≤ vma.endAddr then 4096
    else (vma.endAddr-vma.startAddr).setWidth 32,vma.fileoffset.setWidth 32,true⟩

theorem readRequest_start (vma : Vma) :
    readRequest vma vma.startAddr = some (firstRequest vma) := by
  rw [readRequest, if_neg (BitVec.lt_irrefl _), if_neg (fun hc => BitVec.lt_irrefl _ hc.1),
    if_pos rfl]
  rfl

theorem readRequest_other {addr : Word} (hne : vma.startAddr ≠ addr)
    (h : readRequest vma addr = some req) : req.strict = false := by
  rw [readRequest, if_neg hne] at h
  by_cases hbefore : addr < vma.startAddr
  · rw [if_pos hbefore] at h
    rw [← Option.some.inj h]
  · rw [if_neg hbefore] at h
    by_cases hwithin : vma.startAddr < addr ∧ addr < vma.endAddr
    · rw [if_pos hwithin] at h
      rw [← Option.some.inj h]
    · rw [if_neg hwithin] at h
      cases h

theorem fails_iff (file : FileData) (vma : Vma) (addr : Word) :
    Fails file (readRequest vma addr) ↔
      vma.startAddr = addr ∧ Short file (firstRequest vma) := by
  constructor
  · rintro ⟨req,hreq,hstrict,hshort⟩
    have hstart : vma.startAddr = addr := by
      by_contra hne
      rw [readRequest_other hne hreq] at hstrict
      cases hstrict
    rw [← hstart, readRequest_start] at hreq
    obtain rfl := Option.some.inj hreq
    exact ⟨hstart,hshort⟩
  · rintro ⟨rfl,hshort⟩
    exact ⟨_,readRequest_start vma,rfl,hshort⟩

/-- The VMA that a program header gives is a segment, if it is where a process
can have it and its bytes are in the file. -/
theorem elfMap_segment (file : FileData) {k k' : Kernel} {vmas vmas' : List Vma} {fp : KernelPtr}
    {phdr : Elf64Phdr} (h : elfMap k vmas fp phdr = (k',.mapped vmas' vma))
    (hstart : 4096 ≤ vma.startAddr.toNat) (hmem : vma.memsize.toNat < 2^31)
    (hinside : (vma.fileoffset.toNat+vma.filesize.toNat : ℤ) ≤ file.size.toInt) :
    Segment file vma := by
  have hsize : file.size.toNat < 2^31 ∧ vma.fileoffset.toNat+vma.filesize.toNat ≤
      file.size.toNat := by
    have hmsb := BitVec.toInt_eq_toNat_cond file.size
    have hlt := file.size.isLt
    split_ifs at hmsb with hneg <;> omega
  have hlow := mmapRegion_low h
  obtain ⟨hfit,rfl,_⟩ := mmapRegion_mapped h
  have hfit' : phdr.pFilesz.toNat ≤ phdr.pMemsz.toNat := hfit
  have hlow' : phdr.pVaddr.toNat ≤ kernbase.toNat := hlow
  constructor
  case start => exact hstart
  case low => exact hlow'
  case ending =>
    have hmem' : phdr.pMemsz.toNat < 2^31 := hmem
    rw [show kernbase.toNat = 2^64-2^31 from rfl] at hlow'
    show (phdr.pVaddr+phdr.pFilesz).toNat = phdr.pVaddr.toNat+phdr.pFilesz.toNat
    rw [BitVec.toNat_add]
    omega
  case size => exact hsize.1
  case inside => exact hsize.2

section
variable (clear : Mem → ℕ → Mem) (margin : ℕ) (hclear : Clears clear margin)
  (files : KernelPtr → FileData) (s : Machine) (mm : MmStruct) (vma : Vma) (address : Word)
  (fp : KernelPtr) (hfile : mm.file = some fp) (hcr3 : Aligned mm.cr3)
  (hs : Forest (treeAt mm.cr3) margin s) (hfree : 4 ≤ freeCount s.pages)
include hclear hfile hcr3 hs hfree

theorem fileFault_bytes (haddr : 4096 ≤ address.toNat) (s' : Machine) (r : ℤ)
    (hs' : fileFault clear files s mm vma address = some (s',r)) (x : Word)
    (hx : x.toNat/4096 = address.toNat/4096) :
    userByte s'.mem mm.cr3 x = some (pageByte (files fp)
      (readRequest vma (pageRoundUp address)) (x.toNat%4096)) := by
  have hal := (pageRoundUp_page haddr).1
  have hround := pageRoundUp_toNat address haddr
  have hmem : s'.mem = filled (mapped clear s mm vma address).mem (alloc s).2 (files fp)
      (readRequest vma (pageRoundUp address)) := by
    by_cases hfail : Fails (files fp) (readRequest vma (pageRoundUp address))
    · rw [fileFault_failed clear files s mm vma address fp hfile hal hfail] at hs'
      exact (congrArg (fun r => r.1.mem) (Option.some.inj hs')).symm
    · rw [fileFault_done clear files s mm vma address fp hfile hal hfail] at hs'
      exact (congrArg (fun r => r.1.mem) (Option.some.inj hs')).symm
  rw [hmem]
  have ht := treeAt_target hcr3 (pageRoundUp_page haddr).1
  obtain ⟨e,hleaf,hpresent,hframe⟩ := mapped_leaf ht hclear
    hs rfl rfl hfree (filled_page (alloc_aligned hs.frames) (files fp)
      (readRequest vma (pageRoundUp address)))
  rw [leaf_byte hleaf hpresent (by omega), hframe,
    filled_byte (Nat.mod_lt _ (by decide))]

end

/-- The bytes of a file of the archive are somewhere in the kernel image. -/
def InImage (file : FileData) : Prop :=
  ∃ place, kernmem.toNat ≤ place ∧ place+file.size.toNat ≤ 2^64

/-- A file fault in a segment of the executable that returns 1 gives the page the
bytes of the segment and zeros: no segment of a file that is in the image reaches
into the last page of the address space. -/
theorem file_fault_builds_page (k k' : Kernel) (vmas vmas' : List Vma) (fp : KernelPtr)
    (phdr : Elf64Phdr) (vma : Vma) (files : KernelPtr → FileData) (s : Machine) (mm : MmStruct)
    (address : Word) (hmap : elfMap k vmas fp phdr = (k',.mapped vmas' vma))
    (hfile : mm.file = some fp) (hstart : 4096 ≤ vma.startAddr.toNat)
    (hmem : vma.memsize.toNat < 2^31)
    (hinside : (vma.fileoffset.toNat+vma.filesize.toNat : ℤ) ≤ (files fp).size.toInt)
    (himage : InImage (files fp)) (hfirst : vma.startAddr.toNat ≤ address.toNat)
    (hlast : address.toNat < vma.startAddr.toNat+vma.memsize.toNat) (hcr3 : Aligned mm.cr3)
    (hs : Forest (treeAt mm.cr3) 0 s) (hfree : 4 ≤ freeCount s.pages) (s' : Machine)
    (hs' : fileFault clearTableExactly files s mm vma address = some (s',1)) (x : Word)
    (hx : x.toNat/4096 = address.toNat/4096) :
    userByte s'.mem mm.cr3 x = some (segmentByte (files fp) vma x.toNat) := by
  have haddr : 4096 ≤ address.toNat := by omega
  have hseg := elfMap_segment (files fp) hmap hstart hmem hinside
  have hround := pageRoundUp_toNat address haddr
  have hbyte := fileFault_bytes clearTableExactly 0 clears_exactly files s mm vma address fp hfile
    hcr3 hs hfree haddr s' 1 hs' x hx
  have hend : vma.endAddr.toNat ≤ 2^64-4096 := by
    obtain ⟨_,hlow,hending,_,hin⟩ := hseg
    obtain ⟨place,hplace,hend⟩ := himage
    rw [show kernmem.toNat = 2^64-2^31+0x200000 from rfl] at hplace
    rw [show kernbase.toNat = 2^64-2^31 from rfl] at hlow
    omega
  rw [hbyte, (segment_page_iff hseg (pageRoundUp address) (by omega) (by omega)).mpr
    (fun hc => by omega) _ (Nat.mod_lt _ (by decide))]
  congr 2
  omega

theorem idle_root : Aligned 0x9000 := by decide

def idleMm (fp : KernelPtr) : MmStruct := ⟨[],0x9000,some fp⟩

def evenFile (size : BitVec 32) (b : Byte) : FileData := ⟨size,fun _ => b⟩

def onlySegment (fp : KernelPtr) (phdr : Elf64Phdr) : Vma :=
  regionVma (object idle).2 (some fp) phdr.pVaddr phdr.pFilesz phdr.pMemsz phdr.pOffset
    (elfProt phdr.pFlags)

theorem idle_elfMap (fp : KernelPtr) (phdr : Elf64Phdr) (hlow : phdr.pVaddr ≤ kernbase)
    (hfit : phdr.pFilesz ≤ phdr.pMemsz) :
    elfMap ⟨idle,fun _ => 0⟩ [] fp phdr =
      (⟨(object idle).1,fun _ => 0⟩,.mapped [onlySegment fp phdr] (onlySegment fp phdr)) := by
  rw [elfMap, mmapRegion, if_neg (BitVec.not_lt.mpr hlow),
    if_neg (show (alloc idle).2 ≠ 0 by decide)]
  dsimp only
  rw [if_neg (BitVec.not_lt.mpr hfit)]
  rfl

theorem file_fault_builds_page_text : ∃ k' vmas' vma s',
    elfMap ⟨idle,fun _ => 0⟩ [] (kernelPtr 0) (shortPhdr 0x800) = (k',.mapped vmas' vma) ∧
    fileFault clearTableExactly (fun _ => evenFile 0x1000 7) idle (idleMm (kernelPtr 0)) vma
      0x400123 = some (s',1) ∧
    userByte s'.mem 0x9000 0x4007FF = some 7 ∧ userByte s'.mem 0x9000 0x400800 = some 0 := by
  have hmap := idle_elfMap (kernelPtr 0) (shortPhdr 0x800) (by decide) (by decide)
  have hright := file_fault_builds_page _ _ _ _ _ _ _ (fun _ => evenFile 0x1000 7) idle
    (idleMm (kernelPtr 0)) 0x400123 hmap rfl (by decide) (by decide) (by decide)
    ⟨kernmem.toNat,le_rfl,by decide⟩ (by decide) (by decide) (by decide)
    ⟨idle_forest.separate,idle_forest.frames,
      fun a ha d hd => idle_forest.outside a ha d (hd.trans (Nat.zero_le 1))⟩ (by decide)
  have hdone := fileFault_done clearTableExactly (fun _ => evenFile 0x1000 7) idle
    (idleMm (kernelPtr 0)) (onlySegment (kernelPtr 0) (shortPhdr 0x800)) 0x400123 (kernelPtr 0) rfl
    (by decide) (by rw [fails_iff]; decide)
  exact ⟨_,_,_,_,hmap,hdone,hright _ hdone 0x4007FF (by decide),
    hright _ hdone 0x400800 (by decide)⟩

def Dangling (s : Machine) (cr3 frame : Word) : Prop :=
  Unused s.pages frame ∧ ∃ w, PageMapped s.mem cr3 w ∧ frameAt s.mem cr3 w = frame

section
variable (clear : Mem → ℕ → Mem) (margin : ℕ) (hclear : Clears clear margin)
  (files : KernelPtr → FileData) (s : Machine) (mm : MmStruct) (vma : Vma) (address : Word)
  (fp : KernelPtr) (hfile : mm.file = some fp) (hal : Aligned (pageRoundUp address))
  (hcr3 : Aligned mm.cr3) (hs : Forest (treeAt mm.cr3) margin s) (hfree : 4 ≤ freeCount s.pages)
include hal hs hfree

omit hal in
theorem handed_back (hcount : ∀ p ∈ s.pages, p.isFreePage = false → p.referenceCount = 0) :
    Unused (physMemFree (alloc s).2 (mapped clear s mm vma address).pages) (alloc s).2 := by
  obtain ⟨_,ha⟩ := alloc_supplied ⟨hs.frames,rfl,hfree⟩
  obtain ⟨⟨p,hp,hunused,htaken⟩,_⟩ := pageOf_alloc (framesOk_nodup hs.frames) ha
  have hzero := hcount p (pageOf_mem _ _ p hp) hunused
  have hone : (taken p).referenceCount = 1 := by
    rw [taken, hzero]
    rfl
  have hkept := (keeps_map clear (alloc s).1 (pageRoundUp address) (alloc s).2 (vmaFlags vma) mm.cr3
    false (framesOk_congr (addresses_alloc s.pages) hs.frames)).counted _ _ htaken rfl
    (by rw [hone]; decide)
  have hback := pageOf_free (mapped clear s mm vma address).pages (alloc s).2 (alloc s).2
  rw [if_pos rfl] at hback
  have hrecord := hback.trans (congrArg (Option.map _) hkept)
  refine ⟨_,pageOf_mem _ _ _ hrecord,pageOf_address _ _ _ hrecord,?_⟩
  dsimp only
  rw [if_pos (show (taken p).isFreePage = true from rfl), dropped, hone]
  rfl

omit hal in
theorem handed_out_again {s' : Machine}
    (hs' : s'.pages = physMemFree (alloc s).2 (mapped clear s mm vma address).pages)
    (hback : Unused s'.pages (alloc s).2) : (alloc s').2 = (alloc s).2 := by
  obtain ⟨_,ha⟩ := alloc_supplied ⟨hs.frames,rfl,hfree⟩
  have hf₁ := framesOk_congr (addresses_alloc s.pages) hs.frames
  have hlater : Later s.pages (mapped clear s mm vma address).pages :=
    later_trans (later_alloc hs.frames) (keeps_map clear (alloc s).1
      (pageRoundUp address) (alloc s).2 (vmaFlags vma) mm.cr3 false hf₁)
  have hf' : FramesOk s'.pages := by
    rw [hs']
    exact framesOk_congr ((addresses_free _ _).trans hlater.addresses) hs.frames
  have hsome : 1 ≤ freeCount s'.pages := by
    obtain ⟨p,hp,_,hunused⟩ := hback
    exact List.countP_pos_iff.mpr ⟨p,hp,by rw [hunused]; rfl⟩
  have ha' := (alloc_supplied ⟨hf',rfl,hsome⟩).2
  have hle := alloc_lowest hf' ha' hback
  by_contra hne
  obtain ⟨p,hp,hunused⟩ := pageOf_unused s'.pages hf' (alloc s').2 (alloc_unused s'.pages ha')
  have hsame := pageOf_free (mapped clear s mm vma address).pages (alloc s).2 (alloc s').2
  rw [if_neg hne, ← hs', hp] at hsame
  have hold := later_unused _ _ hs.frames hlater _
    ⟨p,pageOf_mem _ _ p hsame.symm,pageOf_address _ _ p hsame.symm,hunused⟩
  exact hne (BitVec.eq_of_toNat_eq (le_antisymm hle (alloc_lowest hs.frames ha hold)))

include hclear hfile hcr3

/-- A fault that fails leaves the frame it hands back in the page tables, and the
next allocation hands it out. -/
theorem failed_dangles (hcount : ∀ p ∈ s.pages, p.isFreePage = false → p.referenceCount = 0)
    (hfail : Fails (files fp) (readRequest vma (pageRoundUp address))) :
    ∃ s', fileFault clear files s mm vma address = some (s',0) ∧
      Unused s'.pages (alloc s).2 ∧ (alloc s').2 = (alloc s).2 ∧
      PageMapped s'.mem mm.cr3 (pageRoundUp address) ∧
      frameAt s'.mem mm.cr3 (pageRoundUp address) = (alloc s).2 := by
  have ht := treeAt_target hcr3 hal
  obtain ⟨e,hleaf,hpresent,hframe⟩ := mapped_leaf ht hclear hs rfl rfl hfree
    (filled_page (alloc_aligned hs.frames) (files fp) (readRequest vma (pageRoundUp address)))
  have hback := handed_back clear margin s mm vma address hs hfree hcount
  refine ⟨_,fileFault_failed clear files s mm vma address fp hfile hal hfail,hback,
    handed_out_again clear margin s mm vma address hs hfree rfl hback,⟨e,hleaf,hpresent⟩,?_⟩
  rw [frameAt, pte, hleaf]
  exact hframe

end

def firstLength (vma : Vma) : ℤ :=
  if vma.startAddr+4096 ≤ vma.endAddr then 4096
  else ((vma.endAddr-vma.startAddr).setWidth 32).toInt

def Complete (file : FileData) (vma : Vma) : Prop :=
  let offset := (vma.fileoffset.setWidth 32).toInt
  let rest := (file.size.toInt-offset).bmod (2^32)
  if (offset+firstLength vma)%2^64 < file.size.toInt%2^64 then 0 < firstLength vma
  else 0 < rest ∧ firstLength vma ≤ rest

theorem sub_width (x y : BitVec 32) : (x.signExtend 64-y.signExtend 64).setWidth 32 = x-y := by
  have hmod : ∀ z : BitVec 32, (z.signExtend 64).toNat%2^32 = z.toNat := by
    intro z
    have hext := signExtend_emod z
    have hcond := BitVec.toInt_eq_toNat_cond z
    have hlt := z.isLt
    split_ifs at hcond <;> omega
  have hx := hmod x
  have hy := hmod y
  have hlt := (y.signExtend 64).isLt
  apply BitVec.eq_of_toNat_eq
  rw [BitVec.toNat_setWidth, BitVec.toNat_sub, BitVec.toNat_sub]
  omega

theorem numRead_toInt (file : FileData) (req : ReadRequest) :
    (numRead file req).toInt =
      if file.size.toInt%2^64 ≤ (req.toOffset.toInt+req.toRead.toInt)%2^64 then
        (file.size.toInt-req.toOffset.toInt).bmod (2^32)
      else req.toRead.toInt := by
  have hz := signExtend_emod file.size
  have ho := signExtend_emod req.toOffset
  have ht := signExtend_emod req.toRead
  have hle : file.size.signExtend 64 ≤ req.toOffset.signExtend 64+req.toRead.signExtend 64 ↔
      file.size.toInt%2^64 ≤ (req.toOffset.toInt+req.toRead.toInt)%2^64 := by
    rw [BitVec.le_def, BitVec.toNat_add]
    omega
  have hread : (req.toRead.signExtend 64).setWidth 32 = req.toRead := by
    have hsub := sub_width req.toRead 0
    simpa using hsub
  rw [numRead, tarfsReadSize]
  by_cases hlast : file.size.signExtend 64 ≤ req.toOffset.signExtend 64+req.toRead.signExtend 64
  · rw [if_pos hlast, if_pos (hle.mp hlast), sub_width, BitVec.toInt_sub]
  · rw [if_neg hlast, if_neg (fun hc => hlast (hle.mpr hc)), hread]

theorem short_iff : Short file (firstRequest vma) ↔ ¬ Complete file vma := by
  have hlen : (firstRequest vma).toRead.toInt = firstLength vma := by
    unfold firstRequest firstLength
    split_ifs <;> rfl
  have hread := numRead_toInt file (firstRequest vma)
  rw [hlen, show (firstRequest vma).toOffset = vma.fileoffset.setWidth 32 from rfl] at hread
  rw [Short, BitVec.sle_iff_toInt_le, BitVec.slt_iff_toInt_lt, hlen, hread, Complete,
    show (0 : BitVec 32).toInt = 0 from rfl]
  split_ifs <;> omega

/-- No file fault of a process with the executable leaves a frame mapped that it
hands back, whatever the tables and the frames are like, exactly if the bytes are
there when the page starts with the VMA. -/
theorem failed_fault_unmapped_iff (files : KernelPtr → FileData) (fp : KernelPtr) (vma : Vma)
    (address : Word) :
    (∀ (s : Machine) (mm : MmStruct), mm.file = some fp → Aligned mm.cr3 →
      Forest (treeAt mm.cr3) 1 s → ∀ s', fileFault clearTable files s mm vma address = some (s',0) →
        ¬ Dangling s' mm.cr3 (alloc s).2) ↔
      (Aligned (pageRoundUp address) → vma.startAddr = pageRoundUp address →
        Complete (files fp) vma) := by
  constructor
  · intro hall hal hstart
    by_contra hshort
    have hfail := (fails_iff (files fp) vma (pageRoundUp address)).mpr
      ⟨hstart,(short_iff).mpr hshort⟩
    obtain ⟨s',hs',hunused,_,hmapped,hframe⟩ := failed_dangles clearTable 1 clears_memset files idle
      (idleMm fp) vma address fp rfl hal idle_root idle_forest (by decide) (by decide) hfail
    exact hall idle (idleMm fp) rfl idle_root idle_forest s' hs' ⟨hunused,_,hmapped,hframe⟩
  · intro hcomplete s mm hfile _ _ s' hs' _
    by_cases hal : Aligned (pageRoundUp address)
    · have hdone : ¬ Fails (files fp) (readRequest vma (pageRoundUp address)) := by
        rw [fails_iff, short_iff]
        exact fun hc => hc.2 (hcomplete hal hc.1)
      rw [fileFault_done clearTable files s mm vma address fp hfile hal hdone] at hs'
      exact absurd (congrArg Prod.snd (Option.some.inj hs')) one_ne_zero
    · rw [fileFault] at hs'
      rw [if_neg hal] at hs'
      cases hs'

/-- A file that has been cut to half of its only segment: the next allocation
hands out the frame that the process has mapped. -/
theorem cut_file_leaves_mapping : ∃ s',
    fileFault clearTable (fun _ => evenFile 0x400 7) idle (idleMm (kernelPtr 0))
      (onlySegment (kernelPtr 0) (shortPhdr 0x800)) 0x400123 = some (s',0) ∧
    PageMapped s'.mem 0x9000 0x400000 ∧ frameAt s'.mem 0x9000 0x400000 = 0x1000 ∧
    (alloc s').2 = 0x1000 := by
  have hfail : Fails (evenFile 0x400 7) (readRequest (onlySegment (kernelPtr 0) (shortPhdr 0x800))
      (pageRoundUp 0x400123)) := by
    rw [fails_iff]
    decide
  obtain ⟨s',hs',_,hagain,hmapped,hframe⟩ := failed_dangles clearTable 1 clears_memset
    (fun _ => evenFile 0x400 7) idle (idleMm (kernelPtr 0)) _ 0x400123 (kernelPtr 0) rfl (by decide)
    idle_root idle_forest (by decide) (by decide) hfail
  exact ⟨s',hs',hmapped,hframe,hagain⟩

end PreemptiveOS.FilePages
