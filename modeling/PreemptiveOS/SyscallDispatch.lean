import PreemptiveOS.KernelStack

/-!
# The dispatch of system calls

`do_syscalls` compares the number of a system call with the address of
`syscall_max`, not with its value, so that nearly every number reaches the
call through `sys_call_table`, which has fourteen entries. On the way back it
stores `rax` over the error code that was pushed for a number without a call.
-/

set_option autoImplicit false

namespace PreemptiveOS.SyscallDispatch
open ByteMemory KernelStack
open PhysMmgr (kernmem)

inductive Syscall where
  | sysRead
  | sysWrite
  | sysFork
  | sysExecve
  | sysWait
  | sysExit
  | sysOpen
  | sysClose
  | sysGetdents
  | sysGetprocs64
  | sysMmap
  | sysSleep
  | sysKill
  | sysMunmap
  deriving DecidableEq, Repr

def sysCallTable : List Syscall :=
  [.sysRead,.sysWrite,.sysFork,.sysExecve,.sysWait,.sysExit,.sysOpen,.sysClose,.sysGetdents,
    .sysGetprocs64,.sysMmap,.sysSleep,.sysKill,.sysMunmap]

def Symbol := { a : Word // kernmem ≤ a ∧ a.toNat+2 ≤ 2^64 }

inductive Dispatch where
  | call (offset : Word)
  | skip
  deriving DecidableEq, Repr

def dispatch (syscallMax : Symbol) (rax : Word) : Dispatch :=
  if syscallMax.val < rax then .skip else .call (8*rax)

def entryAt (offset : Word) : Option Syscall :=
  if offset.toNat%8 = 0 then sysCallTable[offset.toNat/8]? else none

def sysret (c : Stack) (rax : Word) (u : User) : User :=
  let m := store c.mem (c.rsp+80) rax
  { u with
    rip := load m (c.rsp+128), rcx := load m (c.rsp+128), r11 := load m (c.rsp+144),
    rflags := load m (c.rsp+144), r10 := load m (c.rsp+56), r9 := load m (c.rsp+64),
    r8 := load m (c.rsp+72), rax := load m (c.rsp+80), rdx := load m (c.rsp+96),
    rsi := load m (c.rsp+104), rdi := load m (c.rsp+112), rsp := load m (c.rsp+152) }

def skipped (kRsp : ℕ) (u : User) (m : Mem) : User :=
  sysret (doSyscalls kRsp (syscallInstruction u) m) u.rax u

def Dispatched (syscallMax : Symbol) (kRsp : ℕ) (u : User) (m : Mem) : Prop :=
  (∃ offset f, dispatch syscallMax u.rax = .call offset ∧ entryAt offset = some f ∧
    sysCallTable[u.rax.toNat]? = some f) ∨
  dispatch syscallMax u.rax = .skip ∧ (skipped kRsp u m).rax = -1

theorem skipped_rax (kRsp : ℕ) (u : User) (m : Mem) : (skipped kRsp u m).rax = u.rax :=
  load_store_same _ _ u.rax

theorem entry_called {rax : Word} (h : rax.toNat < 14) :
    entryAt (8*rax) = sysCallTable[rax.toNat]? := by
  have hoffset : (8*rax).toNat = 8*rax.toNat := by
    rw [BitVec.toNat_mul]
    show 8*rax.toNat%2^64 = _
    omega
  rw [entryAt, hoffset, if_pos (by omega), Nat.mul_div_cancel_left _ (by decide)]

theorem dispatched_only {syscallMax : Symbol} {kRsp : ℕ} {u : User} {m : Mem}
    (h : Dispatched syscallMax kRsp u m) : u.rax.toNat < 14 ∨ u.rax = -1 := by
  rcases h with ⟨_,f,_,_,hf⟩ | ⟨_,hrax⟩
  · obtain ⟨hlt,_⟩ := List.getElem?_eq_some_iff.mp hf
    exact Or.inl hlt
  · rw [skipped_rax] at hrax
    exact Or.inr hrax

/-- Only the last number of all is skipped and looks like the error code. -/
theorem dispatched_iff (syscallMax : Symbol) (kRsp : ℕ) (u : User) (m : Mem) :
    Dispatched syscallMax kRsp u m ↔ u.rax.toNat < 14 ∨ u.rax = -1 := by
  have hlow : kernmem.toNat ≤ syscallMax.val.toNat := syscallMax.property.1
  have hhigh := syscallMax.property.2
  have hkern : kernmem.toNat = 0xffffffff80200000 := rfl
  constructor
  · exact dispatched_only
  · rintro (hlt | hlast)
    · obtain ⟨f,hf⟩ : ∃ f, sysCallTable[u.rax.toNat]? = some f :=
        ⟨_,List.getElem?_eq_getElem hlt⟩
      have hcall : ¬ syscallMax.val < u.rax := by
        rw [BitVec.lt_def]
        omega
      refine Or.inl ⟨8*u.rax,f,?_,?_,hf⟩
      · rw [dispatch, if_neg hcall]
      · rw [entry_called hlt, hf]
    · have hskip : syscallMax.val < u.rax := by
        rw [BitVec.lt_def, hlast]
        show _ < 2^64-1
        omega
      refine Or.inr ⟨?_,?_⟩
      · rw [dispatch, if_pos hskip]
      · rw [skipped_rax, hlast]

def someSymbol : Symbol := ⟨0xffffffff80210000,by decide,by decide⟩

/-- The first number behind the table calls through an entry that was never set. -/
theorem unset_entry_called : dispatch someSymbol 14 = .call 112 ∧ entryAt 112 = none ∧
    ¬ Dispatched someSymbol 0x20000 { caller 0 with rax := 14 } (fun _ => 0) := by
  refine ⟨by decide,by decide,?_⟩
  intro h
  have hrax := dispatched_only h
  exact absurd hrax (by decide)

end PreemptiveOS.SyscallDispatch
