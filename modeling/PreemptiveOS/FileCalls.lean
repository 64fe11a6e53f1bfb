import PreemptiveOS.Console
import PreemptiveOS.SequentialReads
import PreemptiveOS.TerminalLine

/-!
# Calls on descriptors

A descriptor leads to an open file, and the file to the functions of its file
system. `sys_close` calls the one that drops a reference and leaves the slot of
the descriptor as it is. So the descriptor goes on to work, and every open of a
process uses up one of its slots.
-/

set_option autoImplicit false

namespace PreemptiveOS.FileCalls
open ByteMemory PhysMmgr Vmas KernelObjects Tarfs TarfsLookup OpenPaths Console SequentialReads
open TerminalLine

inductive ReadOp where
  | tarfsRead
  | terminalRead
  deriving DecidableEq

inductive WriteOp where
  | terminalWrite
  deriving DecidableEq

inductive CloseOp where
  | tarfsClose
  | terminalClose
  deriving DecidableEq

structure FileOperations where
  read : Option ReadOp
  write : Option WriteOp
  close : Option CloseOp
  deriving DecidableEq

def tarfsOperations : FileOperations := ⟨some .tarfsRead,none,some .tarfsClose⟩

structure FileObject where
  file : File
  fOp : FileOperations

structure Process where
  fd : List (Option KernelPtr)
  files : KernelPtr → FileObject
  pages : List Page
  tty : Tty
  screen : Screen

def dropReference (fp : KernelPtr) (x : Process) : Process :=
  let object := x.files fp
  let n := object.file.fRefcount-1
  { x with
    files := Function.update x.files fp { object with file := { object.file with fRefcount := n } }
    pages := if n = 0 then physMemFree fp.val x.pages else x.pages }

def tarfsClose := dropReference
def terminalClose := dropReference

def vfsClose (fp : KernelPtr) (x : Process) : Process × BitVec 32 :=
  match (x.files fp).fOp.close with
  | none => (x,-1)
  | some .tarfsClose => (tarfsClose fp x,0)
  | some .terminalClose => (terminalClose fp x,0)

def sysClose (d : ℕ) (x : Process) : Process × BitVec 32 :=
  match x.fd.getD d none with
  | none => (x,-1)
  | some fp => vfsClose fp x

def vfsRead (fs : FileSystem) (behind : ℕ → ℕ → Byte) (fp : KernelPtr) (buf : ℕ) (size : Word)
    (x : Process) : Option (Process × Word) :=
  match (x.files fp).fOp.read with
  | none => some (x,0)
  | some .tarfsRead =>
    let object := x.files fp
    let read := tarfsRead fs behind x.tty.mem object.file buf size object.file.fOffset
    some ({ x with
      tty := { x.tty with mem := read.1 }
      files := Function.update x.files fp { object with file := read.2.1 } },read.2.2)
  | some .terminalRead =>
    (terminalRead buf size.toNat x.tty).map (fun r => ({ x with tty := r.1 },BitVec.ofNat 64 r.2.2))

def sysRead (fs : FileSystem) (behind : ℕ → ℕ → Byte) (d buf : ℕ) (count : Word) (x : Process) :
    Option (Process × Word) :=
  match x.fd.getD d none with
  | none => some (x,-1)
  | some fp => vfsRead fs behind fp buf count x

def vfsWrite (fp : KernelPtr) (buf : ℕ) (size : Word) (x : Process) : Process × Word :=
  match (x.files fp).fOp.write with
  | none => (x,0)
  | some .terminalWrite =>
    ({ x with screen := (kputs (bytesAt x.tty.mem buf size.toNat) x.screen).1 },size)

def sysWrite (d buf : ℕ) (count : Word) (x : Process) : Process × Word :=
  match x.fd.getD d none with
  | none => (x,-1)
  | some fp => vfsWrite fp buf count x

structure Released (fs : FileSystem) (behind : ℕ → ℕ → Byte) (d : ℕ) (x : Process) : Prop where
  read : ∀ buf count, (sysRead fs behind d buf count x).map Prod.snd = some (-1)
  write : ∀ buf count, (sysWrite d buf count x).2 = -1
  close : (sysClose d x).2 = -1
  slot : x.fd.getD d none = none

theorem dropReference_ops (fp q : KernelPtr) (x : Process) :
    ((dropReference fp x).files q).fOp = (x.files q).fOp := by
  by_cases hq : q = fp
  · rw [hq, dropReference]
    simp
  · rw [dropReference]
    simp [Function.update_of_ne hq]

theorem sysClose_keeps (d : ℕ) (x : Process) : (sysClose d x).1.fd = x.fd ∧
    ∀ q, ((sysClose d x).1.files q).fOp = (x.files q).fOp := by
  rw [sysClose]
  cases x.fd.getD d none with
  | none => exact ⟨rfl,fun q => rfl⟩
  | some fp =>
    dsimp only
    rw [vfsClose]
    rcases (x.files fp).fOp.close with _ | _ | _
    · exact ⟨rfl,fun q => rfl⟩
    · exact ⟨rfl,fun q => dropReference_ops fp q x⟩
    · exact ⟨rfl,fun q => dropReference_ops fp q x⟩

theorem sysClose_result (d : ℕ) (x : Process) : (sysClose d x).2 =
    bif (x.fd.getD d none).any (fun fp => (x.files fp).fOp.close.isSome) then 0 else -1 := by
  rw [sysClose]
  cases x.fd.getD d none with
  | none => rfl
  | some fp =>
    rw [Option.any_some]
    dsimp only
    rw [vfsClose]
    rcases (x.files fp).fOp.close with _ | _ | _ <;> rfl

theorem sysClose_again (d : ℕ) (x : Process) :
    (sysClose d (sysClose d x).1).2 = (sysClose d x).2 := by
  obtain ⟨hfd,hops⟩ := sysClose_keeps d x
  rw [sysClose_result d (sysClose d x).1, sysClose_result d x, hfd]
  simp only [hops]

variable {x : Process}

theorem closed_not_released (fs : FileSystem) (behind : ℕ → ℕ → Byte) {d : ℕ}
    (hclosed : (sysClose d x).2 = 0) : ¬ Released fs behind d (sysClose d x).1 := by
  intro h
  have hagain := h.close
  rw [sysClose_again, hclosed] at hagain
  exact absurd hagain (by decide)

variable {slot : ℕ}

section
variable (fs : FileSystem) (behind : ℕ → ℕ → Byte) (cwd pathname : List Byte)
  (flags mode : BitVec 32)

def openFile (frame : KernelPtr × List Byte) (x : Process) : Option (Process × ℕ) :=
  (sysOpen fs behind cwd x.fd frame.1 flags mode frame.2 pathname).map (fun o =>
    ({ x with
      fd := o.fd
      files := Function.update x.files frame.1 ⟨o.file,tarfsOperations⟩ },o.slot))

def openClose (frame : KernelPtr × List Byte) (x : Process) : Option Process :=
  (openFile fs behind cwd pathname flags mode frame x).bind (fun r =>
    if (sysClose r.2 r.1).2 = 0 then some (sysClose r.2 r.1).1 else none)

def openCloses : List (KernelPtr × List Byte) → Process → Option Process
  | [], x => some x
  | frame::frames, x =>
    (openClose fs behind cwd pathname flags mode frame x).bind (openCloses frames)

def Found (frames : List (KernelPtr × List Byte)) : Prop :=
  ∀ frame ∈ frames, (doFindDentry fs behind cwd
    (rebuilt (copied (string pathname) frame.2))).isSome

theorem openFile_some {frame : KernelPtr × List Byte}
    (hfound : Found fs behind cwd pathname [frame]) (hslot : availableFd x.fd = some slot) :
    ∃ y, openFile fs behind cwd pathname flags mode frame x = some (y,slot) ∧
      y.fd = x.fd.set slot (some frame.1) ∧ (y.files frame.1).fOp = tarfsOperations := by
  obtain ⟨dentry,hdentry⟩ := Option.isSome_iff_exists.mp (hfound frame List.mem_cons_self)
  have hopen : sysOpen fs behind cwd x.fd frame.1 flags mode frame.2 pathname =
      some (install x.fd frame.1 flags mode slot dentry) := by
    rw [sysOpen, OpenPaths.tarfsOpen, hslot, hdentry]
    rfl
  rw [openFile, hopen]
  refine ⟨_,rfl,rfl,?_⟩
  simp

theorem openClose_some (frame : KernelPtr × List Byte)
    (hfound : Found fs behind cwd pathname [frame]) (hslot : availableFd x.fd = some slot) :
    ∃ y, openClose fs behind cwd pathname flags mode frame x = some y ∧
      y.fd = x.fd.set slot (some frame.1) := by
  obtain ⟨y,hy,hfd,hop⟩ := openFile_some fs behind cwd pathname flags mode hfound hslot
  obtain ⟨hlt,-,-⟩ := List.findIdx?_eq_some_iff_getElem.mp hslot
  have hget : y.fd.getD slot none = some frame.1 := by
    rw [hfd, List.getD_eq_getElem?_getD, List.getElem?_set_self hlt, Option.getD_some]
  have hcloses : (sysClose slot y).2 = 0 := by
    rw [sysClose_result, hget, Option.any_some, hop]
    rfl
  rw [openClose, hy, Option.bind_some, if_pos hcloses]
  exact ⟨_,rfl,(sysClose_keeps slot y).1.trans hfd⟩

theorem available_none (fd : List (Option KernelPtr)) :
    availableFd fd = none ↔ fd.count none = 0 := by
  rw [availableFd, List.findIdx?_eq_none_iff, List.count_eq_zero]
  constructor
  · intro h hmem
    exact absurd (h none hmem) (by decide)
  · intro h slot hslot
    cases slot with
    | none => exact absurd hslot h
    | some fp => rfl

theorem count_after (fd : List (Option KernelPtr)) (slot : ℕ) (fp : KernelPtr)
    (h : availableFd fd = some slot) : (fd.set slot (some fp)).count none+1 = fd.count none := by
  obtain ⟨hlt,hfree,-⟩ := List.findIdx?_eq_some_iff_getElem.mp h
  have hnone : fd[slot] = none := Option.isNone_iff_eq_none.mp hfree
  have hpos : 0 < fd.count none := List.count_pos_iff.mpr (hnone ▸ List.getElem_mem hlt)
  rw [List.count_set hlt, hnone]
  simp
  omega

theorem openCloses_iff {frames : List (KernelPtr × List Byte)} (x : Process)
    (hfound : Found fs behind cwd pathname frames) :
    (openCloses fs behind cwd pathname flags mode frames x).isSome ↔
      frames.length ≤ x.fd.count none := by
  induction frames generalizing x with
  | nil => simp [openCloses]
  | cons frame frames ih =>
    rw [openCloses, List.length_cons]
    cases hslot : availableFd x.fd with
    | none =>
      rw [openClose, openFile, sysOpen, OpenPaths.tarfsOpen, hslot, (available_none x.fd).mp hslot]
      simp
    | some slot =>
      obtain ⟨y,hy,hfd⟩ := openClose_some fs behind cwd pathname flags mode frame
        (fun f hf => hfound f (by simp [List.mem_singleton.mp hf])) hslot
      have hcount := count_after x.fd slot frame.1 hslot
      rw [hy, Option.bind_some, ih y (fun f hf => hfound f (List.mem_cons_of_mem _ hf)), hfd]
      omega

/-- After a close the descriptor is still open, and opening and closing a file that
exists succeeds as often as there are free slots. -/
theorem close_keeps_descriptor (x : Process) (d : ℕ) (fp : KernelPtr)
    (hopen : x.fd.getD d none = some fp) (hclosed : (sysClose d x).2 = 0) :
    ¬ Released fs behind d (sysClose d x).1 ∧ (sysClose d x).1.fd.getD d none = some fp ∧
      ∀ frames, Found fs behind cwd pathname frames →
        ((openCloses fs behind cwd pathname flags mode frames x).isSome ↔
          frames.length ≤ x.fd.count none) := by
  refine ⟨closed_not_released fs behind hclosed,?_,?_⟩
  · rw [(sysClose_keeps d x).1, hopen]
  · exact fun frames hfound => openCloses_iff fs behind cwd pathname flags mode x hfound

end

def oneFile : Process where
  fd := some (kernelPtr 4096)::List.replicate 255 none
  files := fun _ => ⟨⟨0,1,0,0,1⟩,tarfsOperations⟩
  pages := []
  tty := ⟨fun _ => 0,kernelPtr 8192,0,0⟩
  screen := ⟨0,0⟩

theorem oneFile_closes : (sysClose 0 oneFile).2 = 0 := rfl

theorem close_keeps_descriptor_one : (sysClose 0 oneFile).2 = 0 ∧
    ¬ Released blankTarfs (fun _ _ => 0) 0 (sysClose 0 oneFile).1 :=
  ⟨oneFile_closes,(close_keeps_descriptor blankTarfs (fun _ _ => 0) [47] [47] 0 0 oneFile 0
    (kernelPtr 4096) rfl oneFile_closes).1⟩

/-- The file can be closed a second time. -/
theorem closed_twice : (sysClose 0 oneFile).2 = 0 ∧ (sysClose 0 (sysClose 0 oneFile).1).2 = 0 ∧
    ¬ Released blankTarfs (fun _ _ => 0) 0 (sysClose 0 oneFile).1 :=
  ⟨oneFile_closes,(sysClose_again 0 oneFile).trans oneFile_closes,
    closed_not_released blankTarfs (fun _ _ => 0) oneFile_closes⟩

end PreemptiveOS.FileCalls
