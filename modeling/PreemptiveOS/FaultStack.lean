import PreemptiveOS.KernelStack

/-!
# The kernel stack in a page fault

The processor pushes the fault frame, and the handler saves the registers below
it. Then the whole register list is copied to the top of the kernel stack,
whatever is there. From user mode this is where it already is; in the middle of
a system call it is where the system call has saved the registers of the user.
-/

set_option autoImplicit false

namespace PreemptiveOS.FaultStack
open ByteMemory KernelStack

def kernelCs : Word := 8

def faultFrame (r : RegList) : List Word := [r.ss,r.sp,r.rflags,r.cs,r.rip,r.origRax]

def deliver (rsp : ℕ) (r : RegList) (m : Mem) : Stack :=
  (Stack.mk (rsp/16*16) m).pushAll (faultFrame r)

def savedRegs (r : RegList) : List (ℕ × Word) :=
  [(6,r.r11),(7,r.r10),(8,r.r9),(9,r.r8),(10,r.rax),(11,r.rcx),(12,r.rdx),(13,r.rsi),(14,r.rdi),
    (5,r.rbx),(4,r.rbp),(3,r.r12),(2,r.r13),(1,r.r14),(0,r.r15)]

def saveRegs (rsp : ℕ) (r : RegList) (copyReturn : Word) (m : Mem) : Stack :=
  let c := (deliver rsp r m).reserve 120
  ⟨c.rsp,store (storeAt c.mem c.rsp (savedRegs r)) (c.rsp-8) copyReturn⟩

def i86PageFaultHandler (esp0 rsp : ℕ) (r : RegList) (copyReturn faultReturn : Word) (m : Mem) :
    Stack :=
  let c := saveRegs rsp r copyReturn m
  let m₁ := storeRegs c.mem (taskRegList esp0) (loadRegs c.mem c.rsp)
  let m₂ := store m₁ (taskRegList esp0+8*15) (-1)
  ⟨taskRegList esp0-8,store m₂ (taskRegList esp0-8) faultReturn⟩

def resumed (handler : Mem → Mem) (c : Stack) : RegList := loadRegs (handler c.mem) (c.rsp+8)

def Undamaged (esp0 rsp : ℕ) (r : RegList) (copyReturn faultReturn : Word) (m : Mem) : Prop :=
  (∀ b, rsp/16*16 ≤ b → b+8 ≤ esp0 →
    load (i86PageFaultHandler esp0 rsp r copyReturn faultReturn m).mem b = load m b) ∧
  ∀ handler, KeepsFrame handler (taskRegList esp0) →
    resumed handler (i86PageFaultHandler esp0 rsp r copyReturn faultReturn m) =
      { r with origRax := -1 }

def InSyscall (esp0 : ℕ) (m : Mem) : Prop :=
  ∃ calls u m₀, KeepsFrame calls (taskRegList esp0) ∧ m = calls (doSyscalls esp0 u m₀).mem

def Interrupted (esp0 rsp : ℕ) (r : RegList) (m : Mem) : Prop :=
  r.cs = userCs ∧ rsp = esp0 ∨ r.cs = kernelCs ∧ rsp+168 ≤ esp0 ∧ InSyscall esp0 m

variable {slot : ℕ × Word}

section
variable (rsp : ℕ) (r : RegList) (copyReturn : Word) (m : Mem) (hroom : 192 ≤ rsp)

theorem faultFrame_length : (faultFrame r).length = 6 := rfl

theorem savedRegs_bound (h : slot ∈ savedRegs r) : slot.1 < 15 := by
  have hmem : slot.1 ∈ (savedRegs r).map Prod.fst := List.mem_map_of_mem h
  exact (show ∀ i ∈ [6,7,8,9,10,11,12,13,14,5,4,3,2,1,0], i < 15 by decide) _ hmem

theorem savedRegs_nodup : ((savedRegs r).map Prod.fst).Nodup := by
  show [6,7,8,9,10,11,12,13,14,5,4,3,2,1,0].Nodup
  decide

theorem saveRegs_rsp : (saveRegs rsp r copyReturn m).rsp = rsp/16*16-168 := by
  unfold saveRegs Stack.reserve deliver
  rw [pushAll_rsp, faultFrame_length]
  dsimp only
  omega

include hroom

theorem saveRegs_frame (i : ℕ) (w : Word) (hi : i < 6) (hw : (faultFrame r)[5-i]? = some w) :
    load (saveRegs rsp r copyReturn m).mem (rsp/16*16-168+8*(i+15)) = w := by
  have hrsp := saveRegs_rsp rsp r copyReturn m
  have hload := pushAll_load ⟨rsp/16*16,m⟩ (5-i) (by rw [faultFrame_length]; dsimp only; omega) hw
  dsimp only at hload
  unfold saveRegs at hrsp ⊢
  dsimp only at hrsp ⊢
  rw [hrsp, load_store_apart _ _ (by omega), storeAt_apart]
  · rw [show rsp/16*16-168+8*(i+15) = rsp/16*16-8*(5-i+1) by omega]
    exact hload
  · intro slot hslot
    have hlt := savedRegs_bound r hslot
    omega

theorem saveRegs_saved {i : ℕ} {w : Word} (hw : (i,w) ∈ savedRegs r) :
    load (saveRegs rsp r copyReturn m).mem (rsp/16*16-168+8*i) = w := by
  have hrsp := saveRegs_rsp rsp r copyReturn m
  unfold saveRegs at hrsp ⊢
  dsimp only at hrsp ⊢
  rw [hrsp, load_store_apart _ _ (by omega)]
  exact storeAt_load _ _ (savedRegs_nodup r) hw

omit hroom in
theorem slots_saved (h : slot ∈ r.slots) : slot ∈ savedRegs r ∨ slot ∈ r.slots.drop 15 := by
  have hsplit : r.slots = r.slots.take 6++((r.slots.take 15).drop 6++r.slots.drop 15) := rfl
  have hsaved : savedRegs r = (r.slots.take 15).drop 6++(r.slots.take 6).reverse := rfl
  rw [hsplit, List.mem_append, List.mem_append] at h
  rw [hsaved, List.mem_append, List.mem_reverse]
  rcases h with hfirst | hnext | hlast
  · exact Or.inl (Or.inr hfirst)
  · exact Or.inl (Or.inl hnext)
  · exact Or.inr hlast

theorem saveRegs_load : loadRegs (saveRegs rsp r copyReturn m).mem (rsp/16*16-168) = r := by
  have hf := saveRegs_frame rsp r copyReturn m hroom
  apply loadRegs_eq
  intro slot hslot
  rcases slots_saved r hslot with hsaved | hframe
  · exact saveRegs_saved rsp r copyReturn m hroom hsaved
  · simp only [RegList.slots, List.drop_succ_cons, List.drop_zero, List.mem_cons, List.not_mem_nil,
      or_false] at hframe
    rcases hframe with rfl | rfl | rfl | rfl | rfl | rfl
    · exact hf 0 _ (by decide) rfl
    · exact hf 1 _ (by decide) rfl
    · exact hf 2 _ (by decide) rfl
    · exact hf 3 _ (by decide) rfl
    · exact hf 4 _ (by decide) rfl
    · exact hf 5 _ (by decide) rfl

variable (esp0 : ℕ) (faultReturn : Word) (hesp : rsp ≤ esp0)
include hesp

theorem handler_top (i : ℕ) (w : Word) (hw : (i,w) ∈ r.slots) (hi : i ≠ 15) :
    load (i86PageFaultHandler esp0 rsp r copyReturn faultReturn m).mem (taskRegList esp0+8*i) =
      w := by
  have htop : taskRegList esp0 = esp0-168 := rfl
  have hlt := slots_bound hw
  unfold i86PageFaultHandler
  dsimp only
  rw [saveRegs_rsp, saveRegs_load rsp r copyReturn m hroom, load_store_apart _ _ (by omega),
    load_store_apart _ _ (by omega)]
  exact storeRegs_load _ _ hw

omit hroom hesp in
theorem handler_error :
    load (i86PageFaultHandler esp0 rsp r copyReturn faultReturn m).mem (taskRegList esp0+8*15) =
      -1 := by
  have htop : taskRegList esp0 = esp0-168 := rfl
  unfold i86PageFaultHandler
  dsimp only
  rw [load_store_apart _ _ (by omega), load_store_same]

theorem handler_resumed (handler : Mem → Mem) (hk : KeepsFrame handler (taskRegList esp0)) :
    resumed handler (i86PageFaultHandler esp0 rsp r copyReturn faultReturn m) =
      { r with origRax := -1 } := by
  have htop : taskRegList esp0 = esp0-168 := rfl
  have hrsp : (i86PageFaultHandler esp0 rsp r copyReturn faultReturn m).rsp+8 = taskRegList esp0 := by
    show taskRegList esp0-8+8 = taskRegList esp0
    omega
  rw [resumed, hrsp]
  apply loadRegs_eq
  intro slot hslot
  rw [hk _ slot.1 (slots_bound hslot)]
  rcases slots_origRax hslot with rfl | ⟨hold,hne⟩
  · exact handler_error rsp r copyReturn m esp0 faultReturn
  · exact handler_top rsp r copyReturn m hroom esp0 faultReturn hesp slot.1 slot.2 hold hne

end

theorem inSyscall_cs (esp0 : ℕ) (m : Mem) (hesp : 168 ≤ esp0) (h : InSyscall esp0 m) :
    load m (taskRegList esp0+8*17) = userCs := by
  obtain ⟨calls,u,m₀,hk,rfl⟩ := h
  rw [hk _ 17 (by decide)]
  exact doSyscalls_pushed esp0 m₀ hesp (by decide) rfl

section
variable (esp0 rsp : ℕ) (r : RegList) (copyReturn faultReturn : Word) (m : Mem)
  (hroom : 192 ≤ rsp)
include hroom

theorem syscall_damaged (hcs : r.cs = kernelCs) (hdepth : rsp+168 ≤ esp0) (h : InSyscall esp0 m) :
    ¬ Undamaged esp0 rsp r copyReturn faultReturn m := by
  intro hu
  have htop : taskRegList esp0 = esp0-168 := rfl
  have hsame := hu.1 (taskRegList esp0+8*17) (by omega) (by omega)
  rw [handler_top rsp r copyReturn m hroom esp0 faultReturn (by omega) 17 r.cs
    (by simp [RegList.slots]) (by decide), hcs, inSyscall_cs esp0 m (by omega) h] at hsame
  exact absurd hsame (by decide)

theorem user_undamaged (h16 : esp0%16 = 0) (hrsp : rsp = esp0) :
    Undamaged esp0 rsp r copyReturn faultReturn m := by
  refine ⟨?_,handler_resumed rsp r copyReturn m hroom esp0 faultReturn hrsp.le⟩
  intro b hb hb'
  omega

/-- A fault brings back all registers exactly if it comes from user mode. -/
theorem fault_undamaged_iff (h16 : esp0%16 = 0) (h : Interrupted esp0 rsp r m) :
    Undamaged esp0 rsp r copyReturn faultReturn m ↔ r.cs = userCs := by
  rcases h with ⟨hcs,hrsp⟩ | ⟨hcs,hdepth,hsys⟩
  · exact ⟨fun _ => hcs,fun _ => user_undamaged esp0 rsp r copyReturn faultReturn m hroom h16 hrsp⟩
  · constructor
    · intro hu
      exact absurd hu (syscall_damaged esp0 rsp r copyReturn faultReturn m hroom hcs hdepth hsys)
    · intro hu
      exact absurd (hcs.symm.trans hu) (by decide)

end

def userContext : RegList :=
  ⟨15,14,13,12,5,11,0x202,10,9,8,1,0x400000,3,2,1,6,0x400000,userCs,0x202,0x7fffffffe000,userSs⟩

theorem fault_undamaged_iff_user : Interrupted 0x11000 0x11000 userContext (fun _ => 1) ∧
    Undamaged 0x11000 0x11000 userContext 0 0 (fun _ => 1) := by
  have h : Interrupted 0x11000 0x11000 userContext (fun _ => 1) := Or.inl ⟨rfl,rfl⟩
  exact ⟨h,(fault_undamaged_iff 0x11000 0x11000 userContext 0 0 (fun _ => 1) (by decide)
    (by decide) h).mpr rfl⟩

/-- The kernel writes to a page of the user, with its own stack pointer and segments. -/
def kernelContext : RegList :=
  ⟨15,14,13,12,5,11,0x202,10,9,8,1,0x400000,3,2,1,2,0xffffffff80201000,kernelCs,0x202,0x10e00,0x10⟩

/-- The first access of a system call to a page of the user that is not mapped
yet. -/
theorem syscall_fault_damages :
    Interrupted 0x11000 0x10e00 kernelContext (doSyscalls 0x11000 (caller 1) (fun _ => 0)).mem ∧
      ¬ Undamaged 0x11000 0x10e00 kernelContext 0 0
        (doSyscalls 0x11000 (caller 1) (fun _ => 0)).mem := by
  have hsys : InSyscall 0x11000 (doSyscalls 0x11000 (caller 1) (fun _ => 0)).mem :=
    ⟨id,caller 1,fun _ => 0,fun _ _ _ => rfl,rfl⟩
  exact ⟨Or.inr ⟨rfl,by decide,hsys⟩,
    syscall_damaged 0x11000 0x10e00 kernelContext 0 0 _ (by decide) rfl (by decide) hsys⟩

end PreemptiveOS.FaultStack
