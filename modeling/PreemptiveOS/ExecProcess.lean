import PreemptiveOS.ExecArguments

/-!
# The process that calls exec

`do_execve` opens the file, overwrites the command line of its caller and gives
it an empty address space under a new root before it looks at anything that can
go wrong. A call that fails returns into a process that has lost its mappings.
-/

set_option autoImplicit false

namespace PreemptiveOS.ExecProcess
open ByteMemory PhysMmgr VirtMmgr PageTree PageRecords FreshFrames Vmas KernelObjects PageFaults
open Exec ExecLeaves Supply ExecArguments

structure ProcessMm extends MmStruct where
  exec : Word
  rip : Word

structure Command where
  page : KernelPtr
  text : List Byte

structure Process where
  mm : ProcessMm
  command : Option Command
  fd : List (Option KernelPtr)

structure Request where
  filename : List Byte
  relative : Bool
  named : Bool
  argv : List (List Byte)
  envp : List (List Byte)

def execArgs (p : Process) (q : Request) : ExecArgs where
  command := p.command.map Command.page
  relative := q.relative
  found := q.named && (availableFd p.fd).isSome
  argv := q.argv
  envp := q.envp

def openedFd (fd : List (Option KernelPtr)) (file : KernelPtr) : List (Option KernelPtr) :=
  match availableFd fd with
  | none => fd
  | some i => fd.set i (some file)

def entryPoint (s : Machine) (file : FileData) : Word :=
  match (loadElfEhdr s file).2 with
  | none => 0
  | some ehdr =>
    if checkElfFileValidity (loadElfEhdr s file).1.mem ehdr then
      load (loadElfEhdr s file).1.mem (ehdr.val.toNat+24)
    else 0

def stackPointer (loaded : Kernel × Stage) (q : Request) : Word :=
  match loaded.2 with
  | .ok vmas =>
    match (doHeapVma loaded.1.machine vmas).2 with
    | .ok _ => mmExec q.argv q.envp
    | _ => 0
  | _ => 0

def renamed (command : Option Command) (filename : List Byte) : Option Command :=
  command.map (fun c => { c with text := filename })

inductive Result where
  | done (p : Process)
  | failed (p : Process)
  | noFile (p : Process)
  | wild

def newRoot (k : Kernel) (p : Process) (q : Request) : Machine × Word :=
  copyPageTables (beforeRoot k (execArgs p q)).1.machine
    (beforeRoot k (execArgs p q)).1.machine.pml4 4

def execve (files : KernelPtr → FileData) (k : Kernel) (p : Process) (q : Request) : Result :=
  let root := newRoot k p q
  match (beforeRoot k (execArgs p q)).2 with
  | none => .noFile ⟨⟨⟨[],root.2,none⟩,0,0⟩,renamed p.command q.filename,p.fd⟩
  | some file =>
    match doExecve files k (execArgs p q) with
    | none => .wild
    | some img =>
      let loaded := loadElfBinary files
        { (beforeRoot k (execArgs p q)).1 with machine := root.1 } file
      let mm := ⟨img.mm,stackPointer loaded q,entryPoint root.1 (files file)⟩
      let p' := ⟨mm,renamed p.command q.filename,openedFd p.fd file⟩
      if img.ok then .done p' else .failed p'

variable {files : KernelPtr → FileData}

theorem doExecve_cr3 {k : Kernel} {args : ExecArgs} {img : Image}
    (h : doExecve files k args = some img) :
    img.mm.cr3 = (copyPageTables (beforeRoot k args).1.machine
      (beforeRoot k args).1.machine.pml4 4).2 := by
  simp only [doExecve] at h
  split at h
  · cases h
  · split at h
    · exact (image_eq h).2.1
    · exact (image_eq h).2.1

section
variable (k : Kernel) (p : Process) (q : Request) (hf : FramesOk k.machine.pages)
include hf

theorem newRoot_new : (newRoot k p q).2 = 0 ∨ Unused k.machine.pages (newRoot k p q).2 := by
  have hlater := beforeRoot_keeps k (execArgs p q) hf
  have hframes := framesOk_congr hlater.addresses hf
  rw [newRoot, copyPageTables_root]
  generalize (beforeRoot k (execArgs p q)).1.machine = s₁ at *
  by_cases ha : (alloc s₁).2 = 0
  · left
    rw [ha]
    decide
  · right
    have hu : Unused s₁.pages (alloc s₁).2 := alloc_unused s₁.pages ha
    rw [alias_strip (unused_window _ hframes _ hu).2]
    exact later_unused _ _ hf hlater _ hu

theorem execve_cr3 {p' : Process} (hroot : p.mm.cr3 ≠ 0)
    (hused : ¬ Unused k.machine.pages p.mm.cr3)
    (h : execve files k p q = .failed p' ∨ execve files k p q = .noFile p') :
    p'.mm.cr3 ≠ p.mm.cr3 := by
  have hcr3 : p'.mm.cr3 = (newRoot k p q).2 := by
    simp only [execve] at h
    split at h
    · rcases h with h | h
      · cases h
      · cases h
        rfl
    · split at h
      · rcases h with h | h <;> cases h
      · rename_i himg
        have hnew := doExecve_cr3 himg
        split_ifs at h
        · rcases h with h | h <;> cases h
        · rcases h with h | h
          · cases h
            exact hnew
          · cases h
  rw [hcr3]
  rcases newRoot_new k p q hf with hz | hu
  · rw [hz]
    exact hroot.symm
  · intro he
    exact hused (he ▸ hu)

/-- No failed exec leaves its caller as it was. -/
theorem failed_exec_changes (files : KernelPtr → FileData) (p' : Process) (hroot : p.mm.cr3 ≠ 0)
    (hused : ¬ Unused k.machine.pages p.mm.cr3)
    (h : execve files k p q = .failed p' ∨ execve files k p q = .noFile p') : p' ≠ p := by
  intro he
  exact execve_cr3 k p q hf hroot hused h (he ▸ rfl)

end

theorem invalid_header (s : Machine) {file : FileData} (hwhole : 64 ≤ file.size.toInt)
    (hbyte : file.bytes 0 ≠ 0x7f) :
    (loadElfEhdr s file).2 = some (object s).2 ∧
    checkElfFileValidity (loadElfEhdr s file).1.mem (object s).2 = false := by
  obtain ⟨hsome,hread⟩ := ehdr_read file hwhole s
  refine ⟨hsome,?_⟩
  rw [checkElfFileValidity, decide_eq_false_iff_not]
  rintro ⟨hmagic,_⟩
  rw [checkElfMagic, decide_eq_true_eq] at hmagic
  exact hbyte ((hread 0 (by decide)).symm.trans hmagic.1)

section
variable (files : KernelPtr → FileData) (k : Kernel) (p : Process) (q : Request)

theorem execve_bad_file (hnamed : q.named = true) {i : ℕ} (hfd : availableFd p.fd = some i)
    (hwhole : ∀ file, 64 ≤ (files file).size.toInt) (hbyte : ∀ file, (files file).bytes 0 ≠ 0x7f) :
    ∃ file, execve files k p q = .failed ⟨⟨⟨[],(newRoot k p q).2,some file⟩,0,0⟩,
      renamed p.command q.filename,p.fd.set i (some file)⟩ := by
  have hfound : (execArgs p q).found = true := by simp [execArgs, hnamed, hfd]
  obtain ⟨file,hfile⟩ : ∃ file, (beforeRoot k (execArgs p q)).2 = some file := by
    simp only [beforeRoot, doOpenExec, hfound, if_true]
    exact ⟨_,rfl⟩
  obtain ⟨hsome,hinvalid⟩ :=
    invalid_header (newRoot k p q).1 (hwhole file) (hbyte file)
  have hload : (loadElfBinary files { (beforeRoot k (execArgs p q)).1 with
      machine := (newRoot k p q).1 } file).2 = .failed [] := by
    unfold loadElfBinary
    rw [hsome]
    dsimp only
    rw [if_neg (by rw [hinvalid]; exact Bool.false_ne_true)]
  have hstack : stackPointer (loadElfBinary files { (beforeRoot k (execArgs p q)).1 with
      machine := (newRoot k p q).1 } file) q = 0 := by
    unfold stackPointer
    rw [hload]
  have hentry : entryPoint (newRoot k p q).1 (files file) = 0 := by
    unfold entryPoint
    rw [hsome]
    dsimp only
    rw [if_neg (by rw [hinvalid]; exact Bool.false_ne_true)]
  have hopened : openedFd p.fd file = p.fd.set i (some file) := by
    rw [openedFd, hfd]
  obtain ⟨k',himg⟩ : ∃ k', doExecve files k (execArgs p q) =
      some ⟨k',⟨[],(newRoot k p q).2,some file⟩,false⟩ := by
    rw [newRoot] at hload
    simp only [doExecve, hfile, hload]
    exact ⟨_,rfl⟩
  refine ⟨file,?_⟩
  unfold execve
  rw [hfile]
  dsimp only
  rw [himg]
  dsimp only
  rw [hstack, hentry, hopened, if_neg Bool.false_ne_true]

end

def blankFile : FileData := ⟨64,fun _ => 0⟩

def firstProcess : Process :=
  ⟨⟨⟨[],0x8000,none⟩,0,0⟩,some ⟨kernelPtr 0x200000,[0x73,0x68]⟩,List.replicate 256 none⟩

def firstRequest (named : Bool) : Request := ⟨[0x2f,0x61],false,named,[],[]⟩

theorem firstProcess_used : ¬ Unused firstKernel.machine.pages firstProcess.mm.cr3 := by
  intro hu
  obtain ⟨i,_,hi⟩ := evenFrames_mem 80 (by decide) _ (unused_address hu)
  rw [show firstProcess.mm.cr3.toNat = 0x8000 from rfl] at hi
  omega

/-- The path does not name a file. -/
theorem failed_exec_changes_first : ∃ p',
    execve (fun _ => blankFile) firstKernel firstProcess (firstRequest false) = .noFile p' ∧
    p' ≠ firstProcess :=
  ⟨_,rfl,failed_exec_changes firstKernel firstProcess (firstRequest false)
    (evenFrames_ok 80 (by decide)) (fun _ => blankFile) _ (by decide) firstProcess_used
    (Or.inr rfl)⟩

/-- The file is no executable: the caller gets -1 and has another root, another
command line and another table of descriptors. -/
theorem bad_file_replaces_process : ∃ p',
    execve (fun _ => blankFile) firstKernel firstProcess (firstRequest true) = .failed p' ∧
    p'.mm.cr3 ≠ firstProcess.mm.cr3 ∧ p'.command ≠ firstProcess.command ∧
    p'.fd ≠ firstProcess.fd := by
  obtain ⟨file,hfailed⟩ := execve_bad_file (fun _ => blankFile) firstKernel firstProcess
    (firstRequest true) rfl rfl (fun _ => by decide) (fun _ => by decide)
  refine ⟨_,hfailed,?_,?_,?_⟩
  · exact execve_cr3 firstKernel firstProcess (firstRequest true) (evenFrames_ok 80 (by decide))
      (by decide) firstProcess_used (Or.inl hfailed)
  · intro he
    have htext : some ([0x2f,0x61] : List Byte) = some [0x73,0x68] :=
      congrArg (Option.map Command.text) he
    exact absurd htext (by decide)
  · intro he
    have hhead : some (some file) = some none := congrArg List.head? he
    cases hhead

end PreemptiveOS.ExecProcess
