import PreemptiveOS.PageFaults

/-!
# When a user page fault makes progress

A fault is answered if the access is permitted when the handler returns, if
the stack has grown over the address, or if the process has a segmentation
signal pending or has exited. The handler sends no signal to the current
process and never grows the stack, so an access outside every VMA, a write
to a VMA without write protection bit and a write to a shared frame below
read-only tables all come back as they were. The exact condition is read off
the state before the fault.
-/

set_option autoImplicit false

namespace PreemptiveOS.FaultProgress
open ByteMemory PhysMmgr VirtMmgr PageTree PageFlags Vmas PageFaults

def needed (errorCode : BitVec 32) : Word :=
  if isWrite errorCode then present ||| readWrite ||| userSupervisor
  else present ||| userSupervisor

structure Raised (m : Mem) (cr3 : Word) (errorCode : BitVec 32) (address : Word) : Prop where
  nonneg : errorCode.msb = false
  user : errorCode &&& 4 = 4
  presence : isPresent errorCode ↔ Permitted m cr3 address present
  denied : ¬ Permitted m cr3 address (needed errorCode)

def Signalled (p : Process) : Prop := p.isSigsegvPending = true ∨ p.exited = true

def StackGrown (before after : Process) (address : Word) : Prop :=
  stackLimit ≤ address ∧ address < stackStart ∧
    ∃ vma ∈ after.mm.vma, covers address vma = true ∧ vma ∉ before.mm.vma

def Progress (before : Process) (errorCode : BitVec 32) (address : Word) : Option Handled → Prop
  | none => False
  | some h => h.nullVma = false ∧
      (Permitted h.machine.mem before.mm.cr3 address (needed errorCode) ∨
        StackGrown before h.process address ∨ Signalled h.process)

def Answerable (s : Machine) (p : Process) (errorCode : BitVec 32) (address : Word) : Prop :=
  match findVma p.mm.vma address with
  | none => findClosestVma p.mm.vma address ≠ none ∧ Signalled p
  | some vma =>
    if isPresent errorCode ∧ isWrite errorCode then
      Signalled p ∨ vma.protection &&& protWrite ≠ 0 ∧
        (seenCount s.pages (walkPml4 s.mem p.mm.cr3 address) = 1 ∨
          1 < seenCount s.pages (walkPml4 s.mem p.mm.cr3 address) ∧
            Grants (toAbsent (userFlags.setWidth 64)) s.mem p.mm.cr3 address (needed errorCode))
    else
      match vma.fault with
      | .doAnonFault => Signalled p ∨ vma.file = none ∧
          Grants (toAll ((vmaFlags vma).setWidth 64)) s.mem p.mm.cr3 address (needed errorCode)
      | .doFileFault => (readRequest vma (pageRoundUp address) = none ∨ p.mm.file ≠ none) ∧
          (Signalled p ∨
            Grants (toAbsent ((vmaFlags vma).setWidth 64)) s.mem p.mm.cr3 address
              (needed errorCode))

variable {errorCode : BitVec 32}

theorem needed_masked : needed errorCode &&& addressMask = 0 := by
  unfold needed
  split_ifs <;> decide

theorem needed_user : userFlags.setWidth 64 &&& needed errorCode = needed errorCode := by
  unfold needed
  split_ifs <;> decide

theorem raised_user (hn : errorCode.msb = false) (hu : errorCode &&& 4 = 4) :
    errorCode.slt 4 = false := by
  have hle : (4 : BitVec 32).toNat ≤ errorCode.toNat := by
    have h := congrArg BitVec.toNat hu
    rw [BitVec.toNat_and] at h
    rw [← h]
    exact Nat.and_le_left
  have hi : errorCode.toInt = errorCode.toNat := BitVec.toInt_eq_toNat_of_msb hn
  have h4 : (4 : BitVec 32).toInt = 4 := by decide
  have h4' : (4 : BitVec 32).toNat = 4 := by decide
  rw [BitVec.slt_eq_decide, hi, h4, decide_eq_false_iff_not]
  omega

theorem progress_same (p : Process) (errorCode : BitVec 32) (address : Word) (s' : Machine) :
    Progress p errorCode address (some ⟨s',p,false⟩) ↔
      Signalled p ∨ Permitted s'.mem p.mm.cr3 address (needed errorCode) := by
  have hnot : ¬ StackGrown p p address := by
    rintro ⟨_,_,vma,hin,_,hout⟩
    exact hout hin
  simp only [Progress, true_and, hnot, false_or]
  exact Or.comm

theorem sysKill_self (p : Process) : sysKill p.pid p.pid segfault p = p := by
  simp [sysKill]

variable {cr3 v w : Word}

theorem grants_page (add : ℕ → Word → Word) (m : Mem) {need : Word}
    (h : pageNumber v = pageNumber w) : Grants add m cr3 v need ↔ Grants add m cr3 w need := by
  obtain ⟨hu,hl⟩ := (same_page_iff v w).mpr h
  have hp : fullPath v = fullPath w := by rw [fullPath, fullPath, hu, hl]
  unfold Grants
  rw [hp]

theorem walk_page {m : Mem} (h : pageNumber v = pageNumber w) :
    walkPml4 m cr3 v = walkPml4 m cr3 w := by
  have hpath := (same_page_iff v w).mpr h
  simp only [upperPath, List.cons.injEq, and_true] at hpath
  obtain ⟨⟨h₁,h₂,h₃⟩,h₄⟩ := hpath
  simp only [walkPml4, h₁, h₂, h₃, h₄]

theorem treeAt_target {addr : Word} (hcr3 : Aligned cr3) (ha : Aligned addr) :
    Target (treeAt cr3) cr3 addr := by
  refine ⟨treeAt_closed cr3,hcr3,ha,⟨rfl,le_rfl⟩,?_⟩
  rintro j ⟨_,hlen⟩
  simp [upperPath] at hlen

section
variable (s : Machine) (p : Process) (errorCode : BitVec 32) (address : Word)
  (htree : Forest (treeAt p.mm.cr3) 1 s) (hcr3 : Aligned p.mm.cr3)
  (hfree : 5 ≤ freeCount s.pages) (ha : 4096 ≤ address.toNat)
  (hr : Raised s.mem p.mm.cr3 errorCode address)

include hr in
theorem noVma_progress (atNull : Word) :
    Progress p errorCode address (some (noVma atNull s p address)) ↔
      findClosestVma p.mm.vma address ≠ none ∧ Signalled p := by
  unfold noVma
  cases findClosestVma p.mm.vma address with
  | none =>
    dsimp only
    split_ifs <;> simp [Progress]
  | some vma =>
    dsimp only
    rw [sysKill_self, progress_same, or_iff_left hr.denied]
    simp

include htree hcr3 hfree ha

theorem file_progress (files : KernelPtr → FileData) (vma : Vma) :
    Progress p errorCode address
        ((doFileFault files s p.mm vma (pageRoundUp address)).map (fun s' => ⟨s',p,false⟩)) ↔
      (readRequest vma (pageRoundUp address) = none ∨ p.mm.file ≠ none) ∧
        (Signalled p ∨ Grants (toAbsent ((vmaFlags vma).setWidth 64)) s.mem p.mm.cr3 address
          (needed errorCode)) := by
  obtain ⟨hal,hround,hpage⟩ := pageRoundUp_page ha
  have ht := treeAt_target hcr3 hal
  obtain ⟨hnone,heff⟩ := file_effect ht htree files rfl vma hround (by omega)
  cases hres : doFileFault files s p.mm vma (pageRoundUp address) with
  | none =>
    obtain ⟨hreq,hfile⟩ := hnone.mp hres
    rw [Option.map_none]
    refine iff_of_false id ?_
    rintro ⟨hreq' | hfile',_⟩
    · exact hreq hreq'
    · exact hfile' hfile
  | some s' =>
    have hok : readRequest vma (pageRoundUp address) = none ∨ p.mm.file ≠ none := by
      by_contra hc
      rw [not_or, not_not] at hc
      rw [hnone.mpr hc] at hres
      simp at hres
    have hiff := heff s' hres (needed errorCode) (needed_masked)
    unfold Permitted at hiff
    rw [grants_page _ _ hpage, grants_page _ s.mem hpage] at hiff
    rw [Option.map_some, progress_same, and_iff_right hok]
    exact or_congr_right hiff

include hr

theorem cow_progress (hcount : ∀ q ∈ s.pages, q.isFreePage = true → q.referenceCount ≠ 0)
    (hpr : isPresent errorCode) :
    Progress p errorCode address
        ((doCopyOnWriteFault s p.mm.cr3 (pageRoundUp address)).map (fun s' => ⟨s',p,false⟩)) ↔
      Signalled p ∨
        (seenCount s.pages (walkPml4 s.mem p.mm.cr3 address) = 1 ∨
          1 < seenCount s.pages (walkPml4 s.mem p.mm.cr3 address) ∧
            Grants (toAbsent (userFlags.setWidth 64)) s.mem p.mm.cr3 address
              (needed errorCode)) := by
  have hpage := (pageRoundUp_page ha).2.2
  have ht := treeAt_target hcr3 (pageRoundUp_page ha).1
  obtain ⟨s',hs',heff⟩ := cow_effect ht htree hfree hcount
  have hpres : Permitted s.mem p.mm.cr3 (pageRoundUp address) present :=
    (grants_page _ _ hpage).mpr (hr.presence.mp hpr)
  have hiff := heff (needed errorCode) (needed_masked) (needed_user) hpres
  unfold Permitted at hiff
  rw [grants_page _ _ hpage, grants_page _ s.mem hpage,
    grants_page (fun _ e => e) s.mem hpage, walk_page hpage] at hiff
  rw [hs', Option.map_some, progress_same]
  apply or_congr_right
  refine hiff.trans ?_
  rw [or_congr_right (or_iff_left (fun h => hr.denied h.2))]

theorem anon_progress (vma : Vma) :
    Progress p errorCode address
        ((doAnonFault s p.mm.cr3 vma (pageRoundUp address)).map (fun s' => ⟨s',p,false⟩)) ↔
      Signalled p ∨ vma.file = none ∧
        Grants (toAll ((vmaFlags vma).setWidth 64)) s.mem p.mm.cr3 address
          (needed errorCode) := by
  obtain ⟨_,hround,hpage⟩ := pageRoundUp_page ha
  cases hfile : vma.file with
  | some fp =>
    rw [doAnonFault, if_pos (by simp [hfile]), Option.map_some, progress_same,
      or_iff_left hr.denied]
    simp
  | none =>
    have ht := treeAt_target hcr3 (pageRoundUp_page ha).1
    obtain ⟨s',hs',_,heff⟩ := anon_effect ht htree hround hfile (by omega)
    have hiff := heff (needed errorCode) (needed_masked)
    unfold Permitted at hiff
    rw [grants_page _ _ hpage, grants_page _ s.mem hpage] at hiff
    rw [hs', Option.map_some, progress_same, and_iff_right rfl]
    exact or_congr_right hiff

omit hfree ha in
/-- A user fault makes progress exactly when the condition holds: for every
list of VMAs, every tree of tables in distinct frames and every fault that the
processor can raise. Where a VMA covers the address and a page is to be mapped,
the address is not in the first page and there are five frames to spare. -/
theorem fault_progress_iff (files : KernelPtr → FileData) (atNull : Word)
    (hroom : ∀ vma, findVma p.mm.vma address = some vma →
      (isPresent errorCode ∧ isWrite errorCode → vma.protection &&& protWrite ≠ 0) →
      4096 ≤ address.toNat ∧ 5 ≤ freeCount s.pages)
    (hcount : ∀ q ∈ s.pages, q.isFreePage = true → q.referenceCount ≠ 0) :
    Progress p errorCode address (doPageFault files atNull s p errorCode address) ↔
      Answerable s p errorCode address := by
  have huser := raised_user hr.nonneg hr.user
  rw [doPageFault, if_neg (fun h => absurd h.2 (by rw [huser]; exact Bool.false_ne_true)),
    Answerable]
  cases hvma : findVma p.mm.vma address with
  | none => exact noVma_progress s p errorCode address hr atNull
  | some vma =>
    dsimp only
    have hroom' := hroom vma hvma
    by_cases hpw : isPresent errorCode ∧ isWrite errorCode
    · rw [if_pos hpw, if_pos hpw]
      by_cases hprot : vma.protection &&& protWrite ≠ 0
      · obtain ⟨ha,hfree⟩ := hroom' (fun _ => hprot)
        rw [if_pos hprot, and_iff_right hprot]
        exact cow_progress s p errorCode address htree hcr3 hfree ha hr hcount hpw.1
      · rw [if_neg hprot, progress_same, or_iff_left hr.denied,
          or_iff_left (fun h => hprot h.1)]
    · obtain ⟨ha,hfree⟩ := hroom' (fun h => absurd h hpw)
      rw [if_neg hpw, if_neg hpw]
      unfold vmaFault
      cases vma.fault with
      | doAnonFault => exact anon_progress s p errorCode address htree hcr3 hfree ha hr vma
      | doFileFault => exact file_progress s p errorCode address htree hcr3 hfree ha files vma

end

def idle : Machine :=
  ⟨fun _ => 0,[⟨0x1000,0,false⟩,⟨0x2000,0,false⟩,⟨0x3000,0,false⟩,⟨0x4000,0,false⟩,
    ⟨0x5000,0,false⟩],0x9000,0x9000,0⟩

def untouched : Process :=
  ⟨2,false,false,
    ⟨[⟨kernelPtr 0x6000,0x400000,0x400FFF,0,4096,0,protWrite,none,.doAnonFault⟩,
      ⟨kernelPtr 0x7000,stackStart,stackStart-3*4096,0,3*4096,0,protWrite,none,.doAnonFault⟩],
      0x9000,none⟩⟩

theorem idle_forest : Forest (treeAt 0x9000) 1 idle := by
  constructor
  · rintro r p r' p' t ⟨hr,_⟩ ⟨hr',_⟩ ht ht'
    exact ⟨hr.trans hr'.symm,(blank_descend ht).1.trans (blank_descend ht').1.symm⟩
  · constructor <;> simp [idle, addresses]
  · rintro a ha d hd ⟨r,p,⟨hr,_⟩,ht⟩
    have hra := (blank_descend ht).2
    rw [hr, frameOf_eq, frameOf_eq] at hra
    have hmem := unused_address ha
    simp only [idle, addresses, List.map_cons, List.map_nil, List.mem_cons, List.not_mem_nil,
      or_false] at hmem
    rcases hmem with rfl | rfl | rfl | rfl | rfl <;> simp at hra <;> omega

theorem idle_raised {address : Word} : Raised idle.mem 0x9000 6 address := by
  have habsent : ∀ need : Word, need &&& present = present →
      ¬ Permitted idle.mem 0x9000 address need := by
    intro need hneed hp
    have h : pathEntry idle.mem 0x9000 [] (getIndexOfPml4 address) &&& need = need :=
      hp [] (getIndexOfPml4 address) ⟨_,rfl⟩
    have hz : pathEntry idle.mem 0x9000 [] (getIndexOfPml4 address) = 0 :=
      blank_tables (frameOf 0x9000) (getIndexOfPml4 address)
    have hzero : need = 0 := by
      rw [← h, hz]
      exact BitVec.zero_and
    rw [hzero] at hneed
    exact absurd hneed (by decide)
  constructor
  case nonneg => decide
  case user => decide
  case presence => exact iff_of_false (by decide) (habsent present (by decide))
  case denied => exact habsent _ (by decide)

def noFiles (_ : KernelPtr) : FileData := ⟨0,fun _ => 0⟩

theorem fault_progress_iff_heap :
    Progress untouched 6 0x400123 (doPageFault noFiles 0 idle untouched 6 0x400123) := by
  refine (fault_progress_iff idle untouched 6 0x400123 idle_forest (by decide) (idle_raised)
    noFiles 0 (fun _ _ _ => ⟨by decide,by decide⟩) (by decide)).mpr ?_
  refine Or.inr ⟨rfl,?_⟩
  intro q j _
  have hadd : ∀ e : Word, (e ||| 7) &&& needed 6 = needed 6 :=
    fun e => BitFields.set_inside e (by decide)
  exact hadd _

/-- An address between the heap and the stack: the signal goes to the current
process, for which it is dropped, and the fault comes back as it was. -/
theorem fault_outside_comes_back :
    Raised idle.mem 0x9000 6 0x600000 ∧
      ¬ Progress untouched 6 0x600000 (doPageFault noFiles 0 idle untouched 6 0x600000) := by
  refine ⟨idle_raised,?_⟩
  have hnone : doPageFault noFiles 0 idle untouched 6 0x600000 =
      some (noVma 0 idle untouched 0x600000) := rfl
  rw [hnone, noVma_progress idle untouched 6 0x600000 (idle_raised)]
  rintro ⟨_,hs⟩
  exact absurd hs (by simp [Signalled, untouched])

end PreemptiveOS.FaultProgress
