import PreemptiveOS.FileCalls
import PreemptiveOS.VmaSharing

/-!
# The descriptors of forked processes

A fork copies the descriptors up to the first empty slot. That is all of them, as
a file is always put into the first empty slot and a close leaves its slot as it
is.
-/

set_option autoImplicit false

namespace PreemptiveOS.DescriptorTables
open ByteMemory Vmas KernelObjects PageFaults Tarfs OpenPaths

abbrev Fds := List (Option KernelPtr)

def NoHoles (fd : Fds) : Prop :=
  ∃ (files : List KernelPtr) (n : ℕ), fd = files.map some++List.replicate n none

variable {d : ℕ}

theorem available_first {files : List KernelPtr} {n : ℕ}
    (h : availableFd (files.map some++List.replicate n none) = some d) :
    d = files.length ∧ 0 < n := by
  have hfiles : (files.map some).findIdx? Option.isNone = none := by
    simp [List.findIdx?_eq_none_iff]
  rw [availableFd, List.findIdx?_append, hfiles, Option.none_or] at h
  cases n with
  | zero => simp at h
  | succ n => simpa [List.replicate_succ, List.findIdx?_cons, eq_comm] using h

variable {fd : Fds}

theorem noHoles_set (fp : KernelPtr) (h : NoHoles fd) (hd : availableFd fd = some d) :
    NoHoles (fd.set d (some fp)) := by
  obtain ⟨files,n,rfl⟩ := h
  obtain ⟨rfl,hn⟩ := available_first hd
  cases n with
  | zero => exact absurd hn (lt_irrefl 0)
  | succ n =>
    refine ⟨files++[fp],n,?_⟩
    rw [List.set_append_right _ _ (by simp)]
    simp [List.replicate_succ]

theorem noHoles_copy (fd : Fds) :
    NoHoles (VmaSharing.copyFds fd) ∧ (VmaSharing.copyFds fd).length = fd.length := by
  induction fd with
  | nil => exact ⟨⟨[],0,rfl⟩,rfl⟩
  | cons slot rest ih =>
    cases slot with
    | none => exact ⟨⟨[],rest.length+1,by simp [VmaSharing.copyFds, List.replicate_succ]⟩,
        by simp [VmaSharing.copyFds]⟩
    | some fp =>
      obtain ⟨⟨files,n,he⟩,hlen⟩ := ih
      refine ⟨⟨fp::files,n,?_⟩,?_⟩
      · rw [VmaSharing.copyFds, he, List.map_cons, List.cons_append]
      · rw [VmaSharing.copyFds, List.length_cons, List.length_cons, hlen]

theorem copy_noHoles (h : NoHoles fd) : VmaSharing.copyFds fd = fd := by
  obtain ⟨files,n,rfl⟩ := h
  induction files with
  | nil => cases n <;> simp [VmaSharing.copyFds, List.replicate_succ]
  | cons fp files ih => rw [List.map_cons, List.cons_append, VmaSharing.copyFds, ih]

def Opens (fd fd' : Fds) : Prop :=
  fd' = fd ∨ ∃ d fp, availableFd fd = some d ∧ fd' = fd.set d (some fp)

structure Filled (fd : Fds) : Prop where
  slots : fd.length = 256
  noHoles : NoHoles fd

theorem filled_opens {fd' : Fds} (h : Filled fd) (ho : Opens fd fd') : Filled fd' := by
  rcases ho with rfl | ⟨d,fp,hd,rfl⟩
  · exact h
  · exact ⟨by rw [List.length_set, h.slots],noHoles_set fp h.noHoles hd⟩

/-- A close comes with the open files and the terminal that it works on. -/
inductive Call where
  | tarfsOpen (fs : FileSystem) (behind : ℕ → ℕ → Byte) (cwd : List Byte) (fp : KernelPtr)
      (flags mode : BitVec 32) (pathname : List Byte)
  | terminalOpen (k : Kernel)
  | doOpenExec (fs : FileSystem) (behind : ℕ → ℕ → Byte) (cwd : List Byte) (fp : KernelPtr)
      (flags mode : BitVec 32) (old filename : List Byte)
  | sysClose (x : FileCalls.Process) (d : ℕ)
  | doFork (child : ℕ)
  | exit

abbrev Tables := ℕ → Option Fds

def callBy (t : Tables) (i : ℕ) (fd : Fds) : Call → Tables
  | .tarfsOpen fs behind cwd fp flags mode pathname =>
    Function.update t i (some ((tarfsOpen fs behind cwd fd fp flags mode pathname).elim fd
      Opened.fd))
  | .terminalOpen k =>
    Function.update t i (some ((VmaSharing.terminalOpen k fd).2.elim fd
      (fun r => fd.set r.1 (some r.2))))
  | .doOpenExec fs behind cwd fp flags mode old filename =>
    Function.update t i (some ((doOpenExec fs behind cwd fd fp flags mode old filename).elim fd
      Opened.fd))
  | .sysClose x d =>
    Function.update t i (some (FileCalls.sysClose d { x with fd := fd }).1.fd)
  | .doFork child =>
    if (t child).isSome then t else Function.update t child (some (VmaSharing.copyFds fd))
  | .exit => Function.update t i none

def call (t : Tables) (c : ℕ × Call) : Tables := (t c.1).elim t (fun fd => callBy t c.1 fd c.2)

def calls (t : Tables) (cs : List (ℕ × Call)) : Tables := cs.foldl call t

variable {flags mode : BitVec 32} {fs : FileSystem} {fp : KernelPtr} {cwd pathname : List Byte}
  {behind : ℕ → ℕ → Byte}

theorem tarfsOpen_opens :
    Opens fd ((tarfsOpen fs behind cwd fd fp flags mode pathname).elim fd Opened.fd) := by
  rw [OpenPaths.tarfsOpen]
  cases hd : availableFd fd with
  | none => exact Or.inl rfl
  | some d =>
    cases TarfsLookup.doFindDentry fs behind cwd (rebuilt pathname) with
    | none => exact Or.inl rfl
    | some dentry => exact Or.inr ⟨d,fp,hd,rfl⟩

variable {k : Kernel}

theorem terminalOpen_opens :
    Opens fd ((VmaSharing.terminalOpen k fd).2.elim fd (fun r => fd.set r.1 (some r.2))) := by
  rw [VmaSharing.terminalOpen]
  cases hd : availableFd fd with
  | none => exact Or.inl rfl
  | some d => exact Or.inr ⟨d,_,hd,rfl⟩

theorem doOpenExec_opens {old filename : List Byte} :
    Opens fd ((doOpenExec fs behind cwd fd fp flags mode old filename).elim fd Opened.fd) := by
  rw [doOpenExec]
  split
  case h_1 => exact Or.inl rfl
  case h_2 dentry _ =>
    cases hd : availableFd fd with
    | none => exact Or.inl rfl
    | some d => exact Or.inr ⟨d,fp,hd,rfl⟩

def AllFilled (t : Tables) : Prop := ∀ i fd, t i = some fd → Filled fd

variable {t : Tables}

theorem filled_update (i : ℕ) (h : AllFilled t) (hfd : Filled fd) :
    AllFilled (Function.update t i (some fd)) := by
  intro j fd' hj
  by_cases hji : j = i
  · rw [hji, Function.update_self, Option.some.injEq] at hj
    exact hj ▸ hfd
  · rw [Function.update_of_ne hji] at hj
    exact h j fd' hj

theorem filled_removed (i : ℕ) (h : AllFilled t) : AllFilled (Function.update t i none) := by
  intro j fd hj
  by_cases hji : j = i
  · rw [hji, Function.update_self] at hj
    cases hj
  · rw [Function.update_of_ne hji] at hj
    exact h j fd hj

theorem call_filled (c : ℕ × Call) (h : AllFilled t) : AllFilled (call t c) := by
  obtain ⟨i,c⟩ := c
  rw [call]
  cases hfd : t i with
  | none => exact h
  | some fd =>
    have hopen : ∀ fd', Opens fd fd' → AllFilled (Function.update t i (some fd')) :=
      fun fd' ho => filled_update i h (filled_opens (h i fd hfd) ho)
    cases c with
    | tarfsOpen => exact hopen _ (tarfsOpen_opens)
    | terminalOpen => exact hopen _ (terminalOpen_opens)
    | doOpenExec => exact hopen _ (doOpenExec_opens)
    | sysClose x d => exact hopen _ (Or.inl (FileCalls.sysClose_keeps d { x with fd := fd }).1)
    | doFork child =>
      obtain ⟨hnoHoles,hlen⟩ := noHoles_copy fd
      rw [Option.elim_some, callBy]
      split_ifs
      · exact h
      · exact filled_update child h ⟨hlen.trans (h i fd hfd).slots,hnoHoles⟩
    | exit => exact filled_removed i h

theorem calls_filled (t : Tables) (cs : List (ℕ × Call)) (h : AllFilled t) :
    AllFilled (calls t cs) := by
  induction cs generalizing t with
  | nil => exact h
  | cons c cs ih => exact ih (call t c) (call_filled c h)

/-- After any calls the open files of each process come first, and a fork hands all
slots on. -/
theorem fork_copies_table (t : Tables)
    (hboot : ∀ i fd, t i = some fd → fd = List.replicate 256 none) (cs : List (ℕ × Call))
    (i : ℕ) (fd : Fds) (h : calls t cs i = some fd) :
    fd.length = 256 ∧
      (∃ (files : List KernelPtr) (n : ℕ), fd = files.map some++List.replicate n none) ∧
      ∀ child, calls t cs child = none →
        call (calls t cs) (i,.doFork child) child = some fd := by
  have hfilled := calls_filled t cs (fun i fd hfd =>
    hboot i fd hfd ▸ ⟨List.length_replicate,[],256,rfl⟩) i fd h
  refine ⟨hfilled.slots,hfilled.noHoles,fun child hchild => ?_⟩
  rw [call, h, Option.elim_some, callBy, hchild, Option.isSome_none, if_neg Bool.false_ne_true,
    Function.update_self, copy_noHoles hfilled.noHoles]

def oneTable : Tables := fun i => if i = 0 then some (List.replicate 256 none) else none

theorem fork_copies_table_terminal :
    call (calls oneTable [(0,.terminalOpen Supply.firstKernel),(0,.sysClose FileCalls.oneFile 0)])
        (0,.doFork 1) 1 =
      calls oneTable [(0,.terminalOpen Supply.firstKernel),(0,.sysClose FileCalls.oneFile 0)] 0 := by
  have hboot : ∀ i fd, oneTable i = some fd → fd = List.replicate 256 none := by
    intro i fd h
    rw [oneTable, Option.ite_none_right_eq_some] at h
    exact (Option.some.inj h.2).symm
  exact (fork_copies_table oneTable hboot _ 0 _ rfl).2.2 1 rfl

end PreemptiveOS.DescriptorTables
