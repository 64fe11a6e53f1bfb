import PreemptiveOS.VirtMmgr

/-!
# Lists of VMAs

The list functions of `memory.c`. A VMA is a record with the address of its
node, and the doubly linked list of an address space is a list of such
records. A VMA may be inverted, with its start above its end; the stack's
always is. The search for the place of a new VMA can end without setting the
predecessor it reports, and the insertion then goes through a pointer that
was never written; that outcome is kept apart from an ordinary failure.
-/

set_option autoImplicit false

namespace PreemptiveOS.Vmas
open ByteMemory PhysMmgr VirtMmgr

def stackStart : Word := 0x00007ffffffff000
def stackLimit : Word := stackStart-4*4096
def protWrite : Word := 2
def protExec : Word := 4

def pageRoundUp (addr : Word) : Word := if addr < 4096 then addr else addr &&& ~~~0xFFF

def pageRoundDown (addr : Word) : Word := (addr+0xFFF) &&& ~~~0xFFF

def KernelPtr := { a : Word // a &&& kernbase = kernbase }

instance : DecidableEq KernelPtr := inferInstanceAs (DecidableEq (Subtype _))

def kernelPtr (f : Word) : KernelPtr :=
  ⟨f ||| kernbase,BitFields.set_inside f BitVec.and_self⟩

inductive FaultHandler where
  | doAnonFault
  | doFileFault
  deriving DecidableEq, Repr

structure Vma where
  node : KernelPtr
  startAddr : Word
  endAddr : Word
  filesize : Word
  memsize : Word
  fileoffset : Word
  protection : Word
  file : Option KernelPtr
  fault : FaultHandler
  deriving DecidableEq

structure MmStruct where
  vma : List Vma
  cr3 : Word
  file : Option KernelPtr
  deriving DecidableEq

def isOverlappingVma (curr vma : Vma) : Bool :=
  (curr.startAddr = vma.startAddr ∧ curr.endAddr = vma.startAddr) ∨
  (curr.startAddr < vma.startAddr ∧ vma.endAddr < curr.endAddr) ∨
  (vma.startAddr < curr.endAddr ∧ curr.endAddr ≤ vma.endAddr) ∨
  (vma.startAddr ≤ curr.startAddr ∧ curr.startAddr < vma.endAddr)

inductive Prev where
  | overlaps
  | null
  | entry (i : ℕ)
  | unset
  deriving DecidableEq, Repr

def findVmaPrevFrom (vma : Vma) : ℕ → List Vma → Prev
  | _, [] => .unset
  | i, curr::rest =>
    if isOverlappingVma curr vma then .overlaps
    else
      match rest with
      | [] => if curr.endAddr ≤ vma.startAddr then .entry i else .unset
      | next::_ =>
        if curr.endAddr ≤ vma.startAddr ∧ vma.endAddr ≤ next.startAddr then .entry i
        else findVmaPrevFrom vma (i+1) rest

def findVmaPrev (vmas : List Vma) (vma : Vma) : Prev :=
  match vmas with
  | [] => .null
  | curr::_ => if vma.endAddr ≤ curr.startAddr then .null else findVmaPrevFrom vma 0 vmas

inductive AddVma where
  | added (vmas : List Vma)
  | failed
  | wild
  deriving DecidableEq

def addVma (vmas : List Vma) (vma : Vma) : AddVma :=
  match findVmaPrev vmas vma with
  | .overlaps => .failed
  | .null => .added (vma::vmas)
  | .entry i => .added (vmas.insertIdx (i+1) vma)
  | .unset => .wild

def lookupEnd (vma : Vma) : Word :=
  if vma.file.isSome ∧ vma.filesize < vma.memsize then vma.startAddr+vma.memsize else vma.endAddr

def covers (addr : Word) (vma : Vma) : Bool :=
  if lookupEnd vma < vma.startAddr then lookupEnd vma ≤ addr ∧ addr ≤ vma.startAddr
  else vma.startAddr ≤ addr ∧ addr ≤ lookupEnd vma

def findVma (vmas : List Vma) (addr : Word) : Option Vma := vmas.find? (covers addr)

def findClosestVmaFrom (address : Word) : Option Vma → List Vma → Option Vma
  | _, [] => none
  | prev, vma::rest =>
    if address < vma.startAddr then
      match prev with
      | none => some vma
      | some p =>
        if ((vma.startAddr-address).setWidth 32).sle ((address-p.endAddr).setWidth 32) then some vma
        else some p
    else findClosestVmaFrom address (some vma) rest

def findClosestVma (vmas : List Vma) (address : Word) : Option Vma :=
  findClosestVmaFrom address none vmas

def expandStack (address : Word) : List Vma → List Vma × Bool
  | [] => ([],true)
  | vma::rest =>
    if vma.endAddr = stackStart then
      if address &&& ~~~4095 < stackLimit then (vma::rest,false)
      else ({ vma with startAddr := address }::(expandStack address rest).1,
        (expandStack address rest).2)
    else (vma::(expandStack address rest).1, (expandStack address rest).2)

def doFirstFitFrom (len : Word) : Word → Vma → List Vma → Word
  | _, last, [] => if kernbase < last.endAddr+len then -1 else last.endAddr+1
  | addr, curr, next::rest =>
    if curr.endAddr ≤ addr ∧ addr+4096+len ≤ next.startAddr then addr
    else doFirstFitFrom len (next.endAddr+1) next rest

/-- The search reads the first VMA without a check that there is one. -/
def doFirstFitSearch (vmas : List Vma) (addr len : Word) : Option Word :=
  match vmas with
  | [] => none
  | first::rest =>
    if addr < first.startAddr ∧ addr+len < first.endAddr then some addr
    else some (doFirstFitFrom len addr first rest)

def getUnmappedArea (vmas : List Vma) (addr len : Word) : Option Word :=
  doFirstFitSearch vmas (if addr = 0 then kernbase/3 else addr) len

def lowerBound (vma : Vma) : Word :=
  if vma.endAddr < vma.startAddr then vma.endAddr else vma.startAddr

def upperBound (vma : Vma) : Word :=
  if vma.endAddr < vma.startAddr then vma.startAddr else vma.endAddr

theorem masked_toNat (a : Word) : (a &&& ~~~(0xFFF : Word)).toNat = a.toNat/4096*4096 := by
  have hs : a &&& ~~~(0xFFF : Word) = (a >>> 12) <<< 12 := by
    apply BitVec.eq_of_getLsbD_eq
    intro i hi
    have hm : (~~~(0xFFF : Word)).getLsbD i = decide (12 ≤ i) := by
      revert i
      decide
    rw [BitVec.getLsbD_and, hm, BitVec.getLsbD_shiftLeft, BitVec.getLsbD_ushiftRight]
    by_cases h12 : 12 ≤ i
    · have hlt : ¬ i < 12 := by omega
      simp [h12, hlt, hi]
    · simp [h12, Nat.lt_of_not_le h12]
  rw [hs, BitVec.toNat_shiftLeft, BitVec.toNat_ushiftRight, Nat.shiftLeft_eq,
    Nat.shiftRight_eq_div_pow]
  omega

theorem pageRoundUp_toNat (a : Word) (h : 4096 ≤ a.toNat) :
    (pageRoundUp a).toNat = a.toNat/4096*4096 := by
  have hn : ¬ a < 4096 := not_lt.mpr h
  rw [pageRoundUp, if_neg hn, masked_toNat]

theorem pageRoundUp_page {a : Word} (h : 4096 ≤ a.toNat) :
    Aligned (pageRoundUp a) ∧ pageRoundUp (pageRoundUp a) = pageRoundUp a ∧
      pageNumber (pageRoundUp a) = pageNumber a := by
  have ht := pageRoundUp_toNat a h
  refine ⟨?_,?_,?_⟩
  · unfold Aligned
    omega
  · apply BitVec.eq_of_toNat_eq
    rw [pageRoundUp_toNat _ (by omega)]
    omega
  · rw [pageNumber, pageNumber, ht]
    congr 1
    omega

end PreemptiveOS.Vmas
