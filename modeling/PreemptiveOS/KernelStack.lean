import PreemptiveOS.VirtMmgr

/-!
# The registers of a system call on the kernel stack

On entry `do_syscalls` pushes fifteen words on the kernel stack of the process
and leaves room for six more, which make up a `struct reg_list` at the top of
the stack. A fork copies the stack, and the child starts in `ret_from_fork`
with the registers it loads from there.
-/

set_option autoImplicit false

namespace PreemptiveOS.KernelStack
open ByteMemory
open VirtMmgr (myMemset memsetLoop_eq)

structure RegList where
  r15 : Word
  r14 : Word
  r13 : Word
  r12 : Word
  rbp : Word
  rbx : Word
  r11 : Word
  r10 : Word
  r9 : Word
  r8 : Word
  rax : Word
  rcx : Word
  rdx : Word
  rsi : Word
  rdi : Word
  origRax : Word
  rip : Word
  cs : Word
  rflags : Word
  sp : Word
  ss : Word
  deriving DecidableEq

def RegList.slots (r : RegList) : List (ℕ × Word) :=
  [(0,r.r15),(1,r.r14),(2,r.r13),(3,r.r12),(4,r.rbp),(5,r.rbx),(6,r.r11),(7,r.r10),(8,r.r9),
    (9,r.r8),(10,r.rax),(11,r.rcx),(12,r.rdx),(13,r.rsi),(14,r.rdi),(15,r.origRax),(16,r.rip),
    (17,r.cs),(18,r.rflags),(19,r.sp),(20,r.ss)]

def storeRegs (m : Mem) (a : ℕ) (r : RegList) : Mem := storeAt m a r.slots

def loadRegs (m : Mem) (a : ℕ) : RegList where
  r15 := load m (a+8*0)
  r14 := load m (a+8*1)
  r13 := load m (a+8*2)
  r12 := load m (a+8*3)
  rbp := load m (a+8*4)
  rbx := load m (a+8*5)
  r11 := load m (a+8*6)
  r10 := load m (a+8*7)
  r9 := load m (a+8*8)
  r8 := load m (a+8*9)
  rax := load m (a+8*10)
  rcx := load m (a+8*11)
  rdx := load m (a+8*12)
  rsi := load m (a+8*13)
  rdi := load m (a+8*14)
  origRax := load m (a+8*15)
  rip := load m (a+8*16)
  cs := load m (a+8*17)
  rflags := load m (a+8*18)
  sp := load m (a+8*19)
  ss := load m (a+8*20)

theorem loadRegs_eq (m : Mem) (a : ℕ) (r : RegList)
    (h : ∀ slot ∈ r.slots, load m (a+8*slot.1) = slot.2) : loadRegs m a = r := by
  cases r
  simpa [RegList.slots, loadRegs] using h

variable {i : ℕ}

theorem slots_nodup (r : RegList) : (r.slots.map Prod.fst).Nodup := by
  show [0,1,2,3,4,5,6,7,8,9,10,11,12,13,14,15,16,17,18,19,20].Nodup
  decide

variable {r : RegList} {slot : ℕ × Word}

theorem slots_bound (h : slot ∈ r.slots) : slot.1 < 21 := by
  have hmem : slot.1 ∈ r.slots.map Prod.fst := List.mem_map_of_mem h
  exact List.mem_range.mp (show slot.1 ∈ List.range 21 from hmem)

theorem slots_origRax {v : Word} (h : slot ∈ { r with origRax := v }.slots) :
    slot = (15,v) ∨ slot ∈ r.slots ∧ slot.1 ≠ 15 := by
  simp only [RegList.slots, List.mem_cons, List.not_mem_nil, or_false] at h ⊢
  rcases h with rfl | rfl | rfl | rfl | rfl | rfl | rfl | rfl | rfl | rfl | rfl | rfl | rfl | rfl |
    rfl | rfl | rfl | rfl | rfl | rfl | rfl <;> simp

variable {w : Word}

theorem storeRegs_load (m : Mem) (a : ℕ) (hi : (i,w) ∈ r.slots) :
    load (storeRegs m a r) (a+8*i) = w :=
  storeAt_load m a (slots_nodup r) hi

variable {m : Mem} {a b : ℕ}

theorem storeRegs_apart (hb : a+168 ≤ b ∨ b+8 ≤ a) : load (storeRegs m a r) b = load m b := by
  apply storeAt_apart
  intro slot hslot
  have hlt := slots_bound hslot
  omega

structure User where
  r15 : Word
  r14 : Word
  r13 : Word
  r12 : Word
  rbp : Word
  rbx : Word
  r11 : Word
  r10 : Word
  r9 : Word
  r8 : Word
  rax : Word
  rcx : Word
  rdx : Word
  rsi : Word
  rdi : Word
  rip : Word
  rflags : Word
  rsp : Word

def syscallInstruction (u : User) : User := { u with rcx := u.rip, r11 := u.rflags }

def userSs : Word := 0x23

def userCs : Word := 0x2B

def pushed (u : User) : List Word :=
  [userSs,u.rsp,u.r11,userCs,u.rcx,u.rax,u.rdi,u.rsi,u.rdx,u.rcx,-1,u.r8,u.r9,u.r10,u.r11]

/-- The entry up to the call of the system call function. The places of the six
registers that a called function saves itself are skipped. -/
def doSyscalls (kRsp : ℕ) (u : User) (m : Mem) : Stack :=
  ((Stack.mk kRsp m).pushAll (pushed u)).reserve 48

def taskRegList (esp0 : ℕ) : ℕ := esp0-168

def forkFrame (child : ℕ) : ℕ := taskRegList (child+4096)-56

def copyStack (parent child : ℕ) (ret : Word) (m : Mem) : Mem :=
  let m₁ := copyWords parent child 512 (myMemset m child 0 4096)
  let m₂ := storeRegs m₁ (forkFrame child+56) (loadRegs m₁ (taskRegList (child+4096)))
  store m₂ (forkFrame child+48) ret

def copyRegs (parent child : ℕ) (m : Mem) : Mem :=
  let m₁ := storeRegs m (taskRegList (child+4096)) (loadRegs m (taskRegList (parent+4096)))
  store m₁ (taskRegList (child+4096)+80) 0

def copyThread (kthread : Bool) (parent child : ℕ) (stackStart stackSize ret : Word) (m : Mem) :
    Stack :=
  let m₁ := copyStack parent child ret m
  if kthread then
    let m₂ := myMemset m₁ (taskRegList (child+4096)) 0 168
    ⟨forkFrame child,
      store (store m₂ (forkFrame child+32) stackStart) (forkFrame child+24) stackSize⟩
  else
    let m₂ := copyRegs parent child (store m₁ (forkFrame child+32) 0)
    ⟨forkFrame child,
      if stackStart = 0 then m₂ else store m₂ (taskRegList (child+4096)+152) stackStart⟩

structure Resumed where
  r15 : Word
  r14 : Word
  r13 : Word
  r12 : Word
  rbx : Word
  rbp : Word
  ret : Word
  rsp : ℕ

def doSwitch (c : Stack) : Resumed where
  r15 := load c.mem c.rsp
  r14 := load c.mem (c.rsp+8)
  r13 := load c.mem (c.rsp+16)
  r12 := load c.mem (c.rsp+24)
  rbx := load c.mem (c.rsp+32)
  rbp := load c.mem (c.rsp+40)
  ret := load c.mem (c.rsp+48)
  rsp := c.rsp+56

/-- The call of `switch_to_user_cr3` pushes its return address; then the
registers are loaded, and `iretq` takes the last five words. A kernel thread
calls its function first. -/
def retFromFork (r : Resumed) (cr3Return : Word) (m : Mem) : Option RegList :=
  if r.rbx = 0 then some (loadRegs (store m (r.rsp-8) cr3Return) r.rsp) else none

def forkedRegs (parent child : ℕ) (calls : Mem → Mem) (ret cr3Return : Word) (u : User) (m : Mem) :
    Option RegList :=
  let c := copyThread false parent child 0 0 ret
    (calls (doSyscalls (parent+4096) (syscallInstruction u) m).mem)
  retFromFork (doSwitch c) cr3Return c.mem

def Inherits (u : User) (r : RegList) : Prop :=
  r.r15 = u.r15 ∧ r.r14 = u.r14 ∧ r.r13 = u.r13 ∧ r.r12 = u.r12 ∧ r.rbp = u.rbp ∧ r.rbx = u.rbx ∧
  r.r10 = u.r10 ∧ r.r9 = u.r9 ∧ r.r8 = u.r8 ∧ r.rdx = u.rdx ∧ r.rsi = u.rsi ∧ r.rdi = u.rdi ∧
  r.rip = u.rip ∧ r.sp = u.rsp ∧ r.rax = 0

theorem pushed_length (u : User) : (pushed u).length = 15 := rfl

theorem doSyscalls_mem (k : ℕ) (u : User) (m : Mem) :
    (doSyscalls k u m).mem = ((Stack.mk k m).pushAll (pushed u)).mem := by
  rw [doSyscalls, Stack.reserve]

variable {u : User}

theorem doSyscalls_pushed (k : ℕ) (m : Mem) (hk : 168 ≤ k) (hi : i < 15)
    (hw : (pushed u)[14-i]? = some w) : load (doSyscalls k u m).mem (k-168+8*(i+6)) = w := by
  rw [doSyscalls_mem, show k-168+8*(i+6) = k-8*(14-i+1) by omega]
  apply pushAll_load ⟨k,m⟩ (14-i) _ hw
  rw [pushed_length]
  dsimp only
  omega

theorem doSyscalls_below {k : ℕ} (m : Mem) (hk : 168 ≤ k) (hb : b+8 ≤ k-120) :
    load (doSyscalls k u m).mem b = load m b := by
  rw [doSyscalls_mem]
  refine pushAll_apart ⟨k,m⟩ ?_ (Or.inr ?_)
  · rw [pushed_length]
    dsimp only
    omega
  · rw [pushed_length]
    exact hb

theorem taskRegList_top (kstack : ℕ) : taskRegList (kstack+4096) = kstack+3928 := by
  unfold taskRegList
  omega

theorem forkFrame_top (child : ℕ) : forkFrame child = child+3872 := by
  rw [forkFrame, taskRegList_top]
  omega

theorem load_memset_apart {s n : ℕ} {c : Byte} (hb : b+8 ≤ s ∨ s+n < b) :
    load (myMemset m s c n) b = load m b := by
  rw [myMemset]
  split_ifs
  · rfl
  · rw [memsetLoop_eq, load_poke_apart (by omega), load_fill_apart _ (by omega)]

section
variable (parent child : ℕ) (m : Mem)

theorem copyRegs_below (hb : b+8 ≤ child+3928) : load (copyRegs parent child m) b = load m b := by
  rw [copyRegs, taskRegList_top, taskRegList_top, load_store_apart _ _ (by omega),
    storeRegs_apart (by omega)]

theorem copyRegs_rax : load (copyRegs parent child m) (child+3928+8*10) = 0 := by
  rw [copyRegs, taskRegList_top, taskRegList_top]
  exact load_store_same _ _ _

theorem copyRegs_other (hi : i < 21) (hrax : i ≠ 10) :
    load (copyRegs parent child m) (child+3928+8*i) = load m (parent+3928+8*i) := by
  have hslot : (i,load m (parent+3928+8*i)) ∈ (loadRegs m (parent+3928)).slots := by
    interval_cases i <;> simp [RegList.slots, loadRegs]
  rw [copyRegs, taskRegList_top, taskRegList_top, load_store_apart _ _ (by omega),
    storeRegs_load _ _ hslot]

/-- The byte behind the new stack is cleared as well. -/
theorem copyStack_apart {ret : Word} (hb : b+8 ≤ child ∨ child+4096 < b) :
    load (copyStack parent child ret m) b = load m b := by
  rw [copyStack, taskRegList_top, forkFrame_top, load_store_apart _ _ (by omega),
    storeRegs_apart (by omega), copyWords_apart (by omega), load_memset_apart (by omega)]

end

def childRegs (parent : ℕ) (u : User) (m : Mem) : RegList where
  r15 := load m (parent+3928)
  r14 := load m (parent+3936)
  r13 := load m (parent+3944)
  r12 := load m (parent+3952)
  rbp := load m (parent+3960)
  rbx := load m (parent+3968)
  r11 := u.rflags
  r10 := u.r10
  r9 := u.r9
  r8 := u.r8
  rax := 0
  rcx := u.rip
  rdx := u.rdx
  rsi := u.rsi
  rdi := u.rdi
  origRax := u.rax
  rip := u.rip
  cs := userCs
  rflags := u.rflags
  sp := u.rsp
  ss := userSs

def KeepsFrame (calls : Mem → Mem) (frame : ℕ) : Prop :=
  ∀ m, ∀ i < 21, load (calls m) (frame+8*i) = load m (frame+8*i)

theorem forkedRegs_eq {parent child : ℕ} {calls : Mem → Mem} (ret cr3Return : Word) (u : User)
    (m : Mem) (hd : parent+4096 ≤ child ∨ child+4096 ≤ parent)
    (hcalls : KeepsFrame calls (parent+3928)) :
    forkedRegs parent child calls ret cr3Return u m = some (childRegs parent u m) := by
  have hentry : ∀ i w, i < 15 → (pushed (syscallInstruction u))[14-i]? = some w →
      load (doSyscalls (parent+4096) (syscallInstruction u) m).mem (parent+3928+8*(i+6)) = w := by
    intro i w hi hw
    have hload := doSyscalls_pushed (parent+4096) m (by omega) hi hw
    rwa [show parent+4096-168 = parent+3928 by omega] at hload
  have hbelow : ∀ i < 6, load (doSyscalls (parent+4096) (syscallInstruction u) m).mem
      (parent+3928+8*i) = load m (parent+3928+8*i) :=
    fun i hi => doSyscalls_below m (by omega) (by omega)
  simp only [forkedRegs, copyThread, Bool.false_eq_true, if_false, if_true]
  rw [forkFrame_top]
  generalize (doSyscalls (parent+4096) (syscallInstruction u) m).mem = m₀ at *
  -- the words of the child's register list are those the entry has left, except for the result
  generalize hm₁ : copyRegs parent child (store (copyStack parent child ret (calls m₀))
    (child+3872+32) 0) = m₁
  have hregs : ∀ i < 21, i ≠ 10 → load (store m₁ (child+3872+56-8) cr3Return)
      (child+3872+56+8*i) = load m₀ (parent+3928+8*i) := by
    intro i hi hrax
    rw [load_store_apart _ _ (by omega), show child+3872+56 = child+3928 by omega, ← hm₁,
      copyRegs_other _ _ _ hi hrax, load_store_apart _ _ (by omega),
      copyStack_apart _ _ _ (by omega), hcalls m₀ i hi]
  have hzero : load (store m₁ (child+3872+56-8) cr3Return) (child+3872+56+8*10) = 0 := by
    rw [load_store_apart _ _ (by omega), show child+3872+56 = child+3928 by omega, ← hm₁,
      copyRegs_rax]
  have hrbx : load m₁ (child+3872+32) = 0 := by
    rw [← hm₁, copyRegs_below _ _ _ (by omega), load_store_same]
  simp only [retFromFork, doSwitch, hrbx, if_true, loadRegs, childRegs, Option.some.injEq,
    RegList.mk.injEq]
  have hpushed : ∀ i w, i < 15 ∧ i ≠ 4 → (pushed (syscallInstruction u))[14-i]? = some w → _ = w :=
    fun i w hi hw => (hregs (i+6) (by omega) (by omega)).trans (hentry i w hi.1 hw)
  have hskipped := fun i hi => (hregs i (by omega) (by omega)).trans (hbelow i hi)
  exact ⟨hskipped 0 (by decide),hskipped 1 (by decide),hskipped 2 (by decide),
    hskipped 3 (by decide),hskipped 4 (by decide),hskipped 5 (by decide),
    hpushed 0 _ (by decide) rfl,hpushed 1 _ (by decide) rfl,hpushed 2 _ (by decide) rfl,
    hpushed 3 _ (by decide) rfl,hzero,hpushed 5 _ (by decide) rfl,hpushed 6 _ (by decide) rfl,
    hpushed 7 _ (by decide) rfl,hpushed 8 _ (by decide) rfl,hpushed 9 _ (by decide) rfl,
    hpushed 10 _ (by decide) rfl,hpushed 11 _ (by decide) rfl,hpushed 12 _ (by decide) rfl,
    hpushed 13 _ (by decide) rfl,hpushed 14 _ (by decide) rfl⟩

def SlotsHold (parent : ℕ) (u : User) (m : Mem) : Prop :=
  load m (parent+3928) = u.r15 ∧ load m (parent+3936) = u.r14 ∧ load m (parent+3944) = u.r13 ∧
  load m (parent+3952) = u.r12 ∧ load m (parent+3960) = u.rbp ∧ load m (parent+3968) = u.rbx

instance (parent : ℕ) (u : User) (m : Mem) : Decidable (SlotsHold parent u m) := by
  unfold SlotsHold
  infer_instance

theorem inherits_iff (parent : ℕ) (u : User) (m : Mem) :
    Inherits u (childRegs parent u m) ↔ SlotsHold parent u m := by
  simp [Inherits, SlotsHold, childRegs]

/-- The child gets the caller's registers exactly if the six slots that the entry does not
write held the callee-saved ones before the call. -/
theorem fork_keeps_registers_iff (parent child : ℕ) (calls : Mem → Mem) (ret cr3Return : Word)
    (u : User) (m : Mem) (hd : parent+4096 ≤ child ∨ child+4096 ≤ parent)
    (hcalls : KeepsFrame calls (parent+3928)) :
    (∃ r, forkedRegs parent child calls ret cr3Return u m = some r ∧ Inherits u r) ↔
      SlotsHold parent u m := by
  rw [forkedRegs_eq ret cr3Return u m hd hcalls, ← inherits_iff]
  constructor
  · rintro ⟨r,hr,h⟩
    obtain rfl := Option.some.inj hr
    exact h
  · intro h
    exact ⟨_,rfl,h⟩

def caller (saved : Word) : User :=
  ⟨saved,saved,saved,saved,saved,saved,0,10,9,8,57,0,3,2,1,0x400000,0x202,0x7fffffffe000⟩

/-- A kernel stack of ones, on which a called function has left a word further down. -/
theorem fork_keeps_registers_iff_ones : ∃ r,
    forkedRegs 0x10000 0x20000 (fun m => store m 0x10200 7) 0 0 (caller 0x0101010101010101)
      (fun _ => 1) = some r ∧ Inherits (caller 0x0101010101010101) r :=
  (fork_keeps_registers_iff 0x10000 0x20000 (fun m => store m 0x10200 7) 0 0
    (caller 0x0101010101010101) (fun _ => 1) (Or.inl (by decide))
    (fun m i hi => load_store_apart _ _ (by omega))).mpr (by decide)

/-- With a kernel stack of zeros the child has lost what was in the register. -/
theorem fork_loses_register : forkedRegs 0x10000 0x20000 id 0 0 (caller 1) (fun _ => 0) =
    some (childRegs 0x10000 (caller 1) (fun _ => 0)) ∧
      ¬ Inherits (caller 1) (childRegs 0x10000 (caller 1) (fun _ => 0)) := by
  refine ⟨forkedRegs_eq _ _ _ _ (Or.inl (by decide)) (fun _ _ _ => rfl),?_⟩
  rw [inherits_iff]
  decide

end PreemptiveOS.KernelStack
