import PreemptiveOS.KernelStack

/-!
# Switching between processes

`do_switch` pushes the registers that a called function keeps, leaves the stack
pointer in the process block and goes on with the stack of the next process. In
between a process works on its own stack and elsewhere, and a fork lays out the
stack of a child. Whatever the order of the switches, a process gets back what it
was switched away with, and a timer interrupt goes unnoticed.
-/

set_option autoImplicit false

namespace PreemptiveOS.ContextSwitch
open ByteMemory PhysMmgr VirtMmgr KernelStack

/-- The registers that `do_switch` saves with the place where the processor goes on, the
fields `rsp` and `kstack` of the process blocks, and what `post_stack_switch` sets. -/
structure Core where
  cpu : Resumed
  mem : Mem
  rsp : Word → ℕ
  kstack : Word → ℕ
  current : Word
  tssRsp0 : ℕ
  kRsp : ℕ
  uRsp : ℕ

def esp0 (s : Core) (process : Word) : ℕ := s.kstack process+4096

def postStackSwitch (next : Word) (s : Core) : Core :=
  { s with current := next, tssRsp0 := esp0 s next, kRsp := esp0 s next, uRsp := 0 }

/-- The call pushes its return address, and then `do_switch` six registers. -/
def switched (ret : Word) (s : Core) : Stack :=
  (Stack.mk s.cpu.rsp s.mem).pushAll
    [ret,s.cpu.rbp,s.cpu.rbx,s.cpu.r12,s.cpu.r13,s.cpu.r14,s.cpu.r15]

def switchTo (ret next : Word) (s : Core) : Core :=
  let c := switched ret s
  let saved := Function.update s.rsp s.current c.rsp
  postStackSwitch next { s with cpu := doSwitch ⟨saved next,c.mem⟩, mem := c.mem, rsp := saved }

structure Thread where
  kthread : Bool
  kstack : ℕ
  stackStart : Word
  stackSize : Word
  ret : Word

inductive Event where
  | work (cpu : Resumed) (mem : Mem)
  | fork (child : Word) (t : Thread)
  | switch (ret next : Word)

def forked (s : Core) (t : Thread) : Stack :=
  copyThread t.kthread (s.kstack s.current) t.kstack t.stackStart t.stackSize t.ret s.mem

def step (s : Core) : Event → Core
  | .work cpu mem => { s with cpu := cpu, mem := mem }
  | .fork child t => { s with
      mem := (forked s t).mem
      rsp := Function.update s.rsp child (forked s t).rsp
      kstack := Function.update s.kstack child t.kstack }
  | .switch ret next => switchTo ret next s

/-- What a process that does not run should find: its registers, and its stack. -/
structure Parked where
  regs : Resumed
  stack : Mem

abbrev Waiting := Word → Option Parked

def park (s : Core) (w : Waiting) : Event → Waiting
  | .work _ _ => w
  | .fork child t => Function.update w child (some ⟨doSwitch (forked s t),(forked s t).mem⟩)
  | .switch ret next =>
    Function.update (Function.update w s.current (some ⟨{ s.cpu with ret := ret },s.mem⟩)) next none

def run : List Event → Core × Waiting → Core × Waiting
  | [], x => x
  | e::es, x => run es (step x.1 e,park x.1 x.2 e)

def Apart (a b : ℕ) : Prop := a+4096 ≤ b ∨ b+4096 ≤ a

def SameStack (m m' : Mem) (a b : ℕ) : Prop := ∀ x, a ≤ x → x+8 ≤ b → load m x = load m' x

def Live (s : Core) (w : Waiting) (p : Word) : Prop := p = s.current ∨ w p ≠ none

/-- A process leaves the stacks of the others alone but for the lowest word, whose first byte
goes when the frame below is cleared. A child gets a frame for its stack that no process has,
and a switch finds room on the stack and the other process waiting. -/
def Allowed (s : Core) (w : Waiting) : Event → Prop
  | .work _ mem => ∀ p, w p ≠ none → SameStack mem s.mem (s.kstack p+8) (esp0 s p)
  | .fork child t => ¬ Live s w child ∧ ∀ p, Live s w p → Apart t.kstack (s.kstack p)
  | .switch _ next =>
    w next ≠ none ∧ s.kstack s.current+64 ≤ s.cpu.rsp ∧ s.cpu.rsp ≤ esp0 s s.current

/-- A stack that `phys_mem_alloc` hands out is apart from those of the live processes, whose
frames are in use. -/
theorem fork_allowed {s : Core} {w : Waiting} {child : Word} {t : Thread} {pages : List Page}
    (hf : FramesOk pages) (ha : (physMemAlloc pages).2 ≠ 0)
    (ht : t.kstack = kernelAddr (physMemAlloc pages).2) (hchild : ¬ Live s w child)
    (hlive : ∀ p, Live s w p →
      ∃ k ∈ addresses pages, ¬ Unused pages k ∧ s.kstack p = kernelAddr k) :
    Allowed s w (.fork child t) := by
  refine ⟨hchild,fun p hp => ?_⟩
  obtain ⟨k,hk,hused,hstack⟩ := hlive p hp
  have hnew := alloc_unused pages ha
  have hne : (physMemAlloc pages).2.toNat ≠ k.toNat :=
    fun he => hused (BitVec.eq_of_toNat_eq he ▸ hnew)
  have hmem := unused_address hnew
  have halign := hf.aligned _ hmem
  have halign' := hf.aligned k hk
  have hwin := hf.window _ hmem
  have hwin' := hf.window k hk
  rw [ht, hstack, Apart, kernelAddr_eq, kernelAddr_eq]
  omega

def RunAllowed : List Event → Core × Waiting → Prop
  | [], _ => True
  | e::es, x => Allowed x.1 x.2 e ∧ RunAllowed es (step x.1 e,park x.1 x.2 e)

structure Found (s : Core) (p : Word) (c : Parked) : Prop where
  low : s.kstack p+8 ≤ s.rsp p
  high : s.rsp p+56 ≤ esp0 s p
  regs : doSwitch ⟨s.rsp p,s.mem⟩ = c.regs
  stack : SameStack s.mem c.stack c.regs.rsp (esp0 s p)

structure Kept (s : Core) (w : Waiting) : Prop where
  runs : w s.current = none
  top : s.tssRsp0 = esp0 s s.current ∧ s.kRsp = esp0 s s.current
  apart : ∀ p q, Live s w p → Live s w q → p ≠ q → Apart (s.kstack p) (s.kstack q)
  found : ∀ p c, w p = some c → Found s p c

variable {m : Mem}

theorem doSwitch_same {m' : Mem} {a b rsp : ℕ} (h : SameStack m m' a b) (ha : a ≤ rsp)
    (hb : rsp+56 ≤ b) : doSwitch ⟨rsp,m⟩ = doSwitch ⟨rsp,m'⟩ := by
  have hword : ∀ i ≤ 48, load m (rsp+i) = load m' (rsp+i) :=
    fun i hi => h _ (by omega) (by omega)
  simp only [doSwitch, hword 8 (by decide), hword 16 (by decide), hword 24 (by decide),
    hword 32 (by decide), hword 40 (by decide), hword 48 (by decide)]
  rw [h rsp ha (by omega)]

variable {s : Core} {c : Parked} {p : Word}

/-- A process that does not run depends on its stack and its process block only. -/
theorem found_same {s' : Core} (h : Found s p c) (hrsp : s'.rsp p = s.rsp p)
    (hstack : s'.kstack p = s.kstack p) (hmem : SameStack s'.mem s.mem (s.kstack p+8) (esp0 s p)) :
    Found s' p c := by
  have hlow := h.low
  have hplace : c.regs.rsp = s.rsp p+56 := by
    rw [← h.regs]
    rfl
  constructor
  case low => rwa [hrsp, hstack]
  case high =>
    rw [hrsp, esp0, hstack]
    exact h.high
  case regs => rw [hrsp, doSwitch_same hmem h.low h.high, h.regs]
  case stack =>
    rw [esp0, hstack]
    intro x hx hend
    rw [hmem x (by omega) hend, h.stack x hx hend]

theorem switched_rsp (ret : Word) (s : Core) : (switched ret s).rsp = s.cpu.rsp-56 := pushAll_rsp _ _

section
variable {s : Core} {w : Waiting} (h : Kept s w) (ret : Word)
  (hlow : s.kstack s.current+64 ≤ s.cpu.rsp) (hhigh : s.cpu.rsp ≤ esp0 s s.current)
include hlow

theorem switched_apart {x : ℕ} (hx : s.cpu.rsp ≤ x ∨ x+8 ≤ s.cpu.rsp-56) :
    load (switched ret s).mem x = load s.mem x :=
  pushAll_apart _ (show 8*7 ≤ s.cpu.rsp by omega) hx

theorem switched_regs : doSwitch ⟨s.cpu.rsp-56,(switched ret s).mem⟩ = { s.cpu with ret := ret } := by
  have hword : ∀ i v, [ret,s.cpu.rbp,s.cpu.rbx,s.cpu.r12,s.cpu.r13,s.cpu.r14,s.cpu.r15][i]? = some v →
      load (switched ret s).mem (s.cpu.rsp-8*(i+1)) = v :=
    fun i v hv => pushAll_load ⟨s.cpu.rsp,s.mem⟩ i (show 8*7 ≤ s.cpu.rsp by omega) hv
  have hplace : ∀ i ≤ 6, s.cpu.rsp-56+(48-8*i) = s.cpu.rsp-8*(i+1) := by omega
  rw [doSwitch]
  congr 1
  · exact hword 6 _ rfl
  · rw [hplace 5 (by decide), hword 5 _ rfl]
  · rw [hplace 4 (by decide), hword 4 _ rfl]
  · rw [hplace 3 (by decide), hword 3 _ rfl]
  · rw [hplace 2 (by decide), hword 2 _ rfl]
  · rw [hplace 1 (by decide), hword 1 _ rfl]
  · rw [hplace 0 (by decide), hword 0 _ rfl]
  · dsimp only
    omega

include h hhigh

theorem switched_others (hp : w p ≠ none) :
    SameStack (switched ret s).mem s.mem (s.kstack p+8) (esp0 s p) := by
  intro x hx hend
  have hne : p ≠ s.current := fun he => hp (he ▸ h.runs)
  have hapart := h.apart p s.current (Or.inr hp) (Or.inl rfl) hne
  unfold Apart at hapart
  unfold esp0 at hend hhigh
  exact switched_apart ret hlow (by omega)

omit h in
theorem switched_found (next : Word) :
    Found (switchTo ret next s) s.current ⟨{ s.cpu with ret := ret },s.mem⟩ := by
  have hrsp : (switchTo ret next s).rsp s.current = s.cpu.rsp-56 :=
    (Function.update_self ..).trans (switched_rsp ret s)
  have hstack : (switchTo ret next s).kstack = s.kstack := rfl
  unfold esp0 at hhigh
  constructor
  case low => rw [hrsp, hstack]; omega
  case high => rw [hrsp, esp0, hstack]; omega
  case regs =>
    rw [hrsp]
    exact switched_regs ret hlow
  case stack => exact fun x hx _ => switched_apart ret hlow (Or.inl hx)

theorem switch_finds (next : Word) (hp : w p = some c) : Found (switchTo ret next s) p c := by
  have hwaits : w p ≠ none := by simp [hp]
  have hne : p ≠ s.current := fun he => hwaits (he ▸ h.runs)
  exact found_same (h.found p c hp) (Function.update_of_ne hne ..) rfl
    (switched_others h ret hlow hhigh hwaits)

theorem kept_switch {next : Word} (hnext : w next ≠ none) :
    Kept (switchTo ret next s) (park s w (.switch ret next)) := by
  have hlive : ∀ p, Live (switchTo ret next s) (park s w (.switch ret next)) p → Live s w p := by
    rintro p (rfl | hp)
    · exact Or.inr hnext
    · by_cases hpc : p = s.current
      · exact Or.inl hpc
      · right
        simp only [park, Function.update_apply, if_neg hpc] at hp
        split_ifs at hp
        · exact absurd rfl hp
        · exact hp
  constructor
  case runs => exact Function.update_self ..
  case top => exact ⟨rfl,rfl⟩
  case apart => exact fun p q hp hq hne => h.apart p q (hlive p hp) (hlive q hq) hne
  case found =>
    intro p c hp
    simp only [park, Function.update_apply] at hp
    split_ifs at hp with hn hc
    · obtain rfl := Option.some.inj hp
      rw [hc]
      exact switched_found ret hlow hhigh next
    · exact switch_finds h ret hlow hhigh next hp

end

theorem forked_apart (s : Core) (t : Thread) {x : ℕ} (hx : x+8 ≤ t.kstack ∨ t.kstack+4096 < x) :
    load (forked s t).mem x = load s.mem x := by
  rw [forked, copyThread, forkFrame_top, taskRegList_top]
  cases t.kthread with
  | true =>
    rw [if_pos rfl, load_store_apart _ _ (by omega), load_store_apart _ _ (by omega),
      load_memset_apart (by omega), copyStack_apart _ _ _ (by omega)]
  | false =>
    have hregs : load (copyRegs (s.kstack s.current) t.kstack (store (copyStack (s.kstack s.current)
        t.kstack t.ret s.mem) (t.kstack+3872+32) 0)) x = load s.mem x := by
      rw [copyRegs, taskRegList_top, taskRegList_top, load_store_apart _ _ (by omega),
        storeRegs_apart (by omega), load_store_apart _ _ (by omega), copyStack_apart _ _ _ (by omega)]
    simp only [Bool.false_eq_true, if_false]
    split_ifs
    · exact hregs
    · rw [load_store_apart _ _ (by omega), hregs]

theorem forked_rsp (s : Core) (t : Thread) : (forked s t).rsp = t.kstack+3872 := by
  rw [forked, copyThread, forkFrame_top]
  cases t.kthread <;> rfl

section
variable {s : Core} {w : Waiting} (h : Kept s w)
include h

theorem kept_fork {child : Word} {t : Thread} (ha : Allowed s w (.fork child t)) :
    Kept (step s (.fork child t)) (park s w (.fork child t)) := by
  obtain ⟨hnew,hfree⟩ := ha
  have hne : ∀ p, Live s w p → p ≠ child := fun p hp he => hnew (he ▸ hp)
  have hold : ∀ p, Live s w p → (step s (.fork child t)).kstack p = s.kstack p :=
    fun p hp => Function.update_of_ne (hne p hp) ..
  have hchild : (step s (.fork child t)).kstack child = t.kstack := Function.update_self ..
  have hcurrent : Live s w s.current := Or.inl rfl
  have hlive : ∀ p, Live (step s (.fork child t)) (park s w (.fork child t)) p →
      p = child ∨ Live s w p := by
    rintro p (hp | hp)
    · exact Or.inr (Or.inl hp)
    · by_cases hpc : p = child
      · exact Or.inl hpc
      · rw [park, Function.update_of_ne hpc] at hp
        exact Or.inr (Or.inr hp)
  constructor
  case runs => exact (Function.update_of_ne (hne _ hcurrent) ..).trans h.runs
  case top =>
    have hsame : esp0 (step s (.fork child t)) s.current = esp0 s s.current :=
      congrArg (·+4096) (hold _ hcurrent)
    exact ⟨h.top.1.trans hsame.symm,h.top.2.trans hsame.symm⟩
  case apart =>
    intro p q hp hq hpq
    rcases hlive p hp with rfl | hp' <;> rcases hlive q hq with rfl | hq'
    · exact absurd rfl hpq
    · rw [hchild, hold q hq']
      exact hfree q hq'
    · rw [hchild, hold p hp']
      exact Or.symm (hfree p hp')
    · rw [hold p hp', hold q hq']
      exact h.apart p q hp' hq' hpq
  case found =>
    intro p c hp
    by_cases hpc : p = child
    · rw [hpc, park, Function.update_self] at hp
      obtain rfl := Option.some.inj hp
      have hrsp : (step s (.fork child t)).rsp child = (forked s t).rsp := Function.update_self ..
      have hplace := forked_rsp s t
      rw [hpc]
      constructor
      case low => rw [hrsp, hchild]; omega
      case high => rw [hrsp, esp0, hchild]; omega
      case regs => rw [hrsp]; rfl
      case stack => exact fun x _ _ => rfl
    · rw [park, Function.update_of_ne hpc] at hp
      have hp' : Live s w p := Or.inr (by simp [hp])
      apply found_same (h.found p c hp) (Function.update_of_ne hpc ..) (hold p hp')
      intro x hx hend
      have hapart := hfree p hp'
      unfold Apart at hapart
      unfold esp0 at hend
      exact forked_apart s t (by omega)

theorem kept_step {e : Event} (ha : Allowed s w e) : Kept (step s e) (park s w e) := by
  cases e with
  | work cpu mem =>
    constructor
    case runs => exact h.runs
    case top => exact h.top
    case apart => exact h.apart
    case found =>
      intro p c hp
      exact found_same (h.found p c hp) rfl rfl (ha p (Option.ne_none_iff_exists'.mpr ⟨c,hp⟩))
  | fork child t => exact kept_fork h ha
  | switch ret next => exact kept_switch h ret ha.2.1 ha.2.2 ha.1

end

variable {x : Core × Waiting} {es : List Event}

theorem kept_run (h : Kept x.1 x.2) (ha : RunAllowed es x) : Kept (run es x).1 (run es x).2 := by
  induction es generalizing x with
  | nil => exact h
  | cons e es ih => exact ih (kept_step h ha.1) ha.2

theorem run_append (es es' : List Event) (x : Core × Waiting) :
    run (es++es') x = run es' (run es x) := by
  induction es generalizing x with
  | nil => rfl
  | cons e es ih => exact ih _

theorem runAllowed_append {es' : List Event} :
    RunAllowed (es++es') x ↔ RunAllowed es x ∧ RunAllowed es' (run es x) := by
  induction es generalizing x with
  | nil => exact ⟨fun h => ⟨trivial,h⟩,And.right⟩
  | cons e es ih => exact (and_congr_right fun _ => ih).trans and_assoc.symm

/-- A process that is not switched to goes on waiting for the same, on the same stack. -/
theorem run_waits (h : Kept x.1 x.2) (ha : RunAllowed es x) (hp : x.2 p = some c)
    (hes : ∀ ret, Event.switch ret p ∉ es) :
    (run es x).2 p = some c ∧ (run es x).1.kstack p = x.1.kstack p := by
  induction es generalizing x with
  | nil => exact ⟨hp,rfl⟩
  | cons e es ih =>
    have hrest := ih (kept_step h ha.1) ha.2
    have hlater : ∀ ret, Event.switch ret p ∉ es :=
      fun ret hmem => hes ret (List.mem_cons_of_mem _ hmem)
    cases e with
    | work cpu mem => exact hrest hp hlater
    | fork child t =>
      have hne : p ≠ child := fun he => ha.1.1 (he ▸ Or.inr (by simp [hp]))
      obtain ⟨hwaits,hstack⟩ := hrest ((Function.update_of_ne hne ..).trans hp) hlater
      exact ⟨hwaits,hstack.trans (Function.update_of_ne hne ..)⟩
    | switch ret next =>
      have hne : p ≠ next := fun he => hes ret (he ▸ List.mem_cons_self)
      have hnc : p ≠ x.1.current := by
        rintro rfl
        rw [h.runs] at hp
        cases hp
      exact hrest ((Function.update_of_ne hne ..).trans ((Function.update_of_ne hnc ..).trans hp))
        hlater

section
variable {s : Core} {w : Waiting} {ret next ret' : Word} {es : List Event}

theorem switch_back (h : Kept s w) (hes : ∀ r, Event.switch r s.current ∉ es)
    (ha : RunAllowed (.switch ret next::es++[.switch ret' s.current]) (s,w)) :
    let s' := (run (.switch ret next::es++[.switch ret' s.current]) (s,w)).1
    s'.cpu = { s.cpu with ret := ret } ∧ s'.kstack s.current = s.kstack s.current ∧
      SameStack s'.mem s.mem s.cpu.rsp (esp0 s s.current) := by
  obtain ⟨hrun,hlast,_⟩ := runAllowed_append.mp ha
  have hne : s.current ≠ next := fun he => hrun.1.1 (he ▸ h.runs)
  have hparked : park s w (.switch ret next) s.current = some ⟨{ s.cpu with ret := ret },s.mem⟩ :=
    (Function.update_of_ne hne ..).trans (Function.update_self ..)
  obtain ⟨hwaits,hrest⟩ := run_waits (kept_step h hrun.1) hrun.2 hparked hes
  have hstack : (run (.switch ret next::es) (s,w)).1.kstack s.current = s.kstack s.current := hrest
  have hfound := switch_finds (kept_run h hrun) ret' hlast.2.1 hlast.2.2 s.current hwaits
  rw [run_append]
  refine ⟨hfound.regs,hstack,?_⟩
  rw [esp0, ← hstack]
  exact hfound.stack

end

/-- A state after any events since the first process has run alone. -/
def Reached (x : Core × Waiting) : Prop :=
  ∃ s₀ es, (s₀.tssRsp0 = esp0 s₀ s₀.current ∧ s₀.kRsp = esp0 s₀ s₀.current) ∧
    RunAllowed es (s₀,fun _ => none) ∧ run es (s₀,fun _ => none) = x

theorem reached_kept (h : Reached x) : Kept x.1 x.2 := by
  obtain ⟨s₀,es,htop,ha,rfl⟩ := h
  apply kept_run _ ha
  constructor
  case runs => rfl
  case top => exact htop
  case apart =>
    rintro p q (rfl | hp) (rfl | hq) hne
    · exact absurd rfl hne
    all_goals contradiction
  case found => exact fun p c hp => absurd hp (by simp)

/-- A process that is switched away and, after any events, switched back to has the
registers and the stack that it had and goes on behind its call. -/
theorem switch_comes_back (s : Core) (w : Waiting) (hs : Reached (s,w)) (ret next ret' : Word)
    (es : List Event) (hes : ∀ r, Event.switch r s.current ∉ es)
    (ha : RunAllowed (.switch ret next::es++[.switch ret' s.current]) (s,w)) :
    let s' := (run (.switch ret next::es++[.switch ret' s.current]) (s,w)).1
    s'.current = s.current ∧ s'.cpu = { s.cpu with ret := ret } ∧
      SameStack s'.mem s.mem s.cpu.rsp (esp0 s s.current) ∧
      s'.tssRsp0 = esp0 s s.current ∧ s'.kRsp = esp0 s s.current := by
  obtain ⟨hcpu,hplace,hstack⟩ := switch_back (reached_kept hs) hes ha
  have hkept := kept_run (reached_kept hs) ha
  have hcurrent : (run (.switch ret next::es++[.switch ret' s.current]) (s,w)).1.current =
      s.current := by
    rw [run_append]
    rfl
  obtain ⟨htop,hk⟩ := hkept.top
  rw [hcurrent, esp0, hplace] at htop hk
  exact ⟨hcurrent,hcpu,hstack,htop,hk⟩

/-- The first process on its stack, in the middle of a function. -/
def firstCore : Core where
  cpu := ⟨15,14,13,12,11,10,0,0x10800⟩
  mem := fun _ => 0
  rsp := fun _ => 0
  kstack := fun _ => 0x10000
  current := 1
  tssRsp0 := 0x11000
  kRsp := 0x11000
  uRsp := 0

def secondThread : Event := .fork 2 ⟨true,0x20000,0x500,0,0x600⟩

theorem secondThread_allowed : RunAllowed [secondThread] (firstCore,fun _ => none) := by
  refine ⟨⟨?_,?_⟩,trivial⟩
  · rintro (h | h)
    · exact absurd h (by decide)
    · contradiction
  · rintro p (rfl | h)
    · exact Or.inr (by decide)
    · contradiction

theorem secondThread_reached : Reached (run [secondThread] (firstCore,fun _ => none)) :=
  ⟨firstCore,[secondThread],by decide,secondThread_allowed,rfl⟩

theorem switch_comes_back_second :
    (run [.switch 7 2,.switch 9 1] (run [secondThread] (firstCore,fun _ => none))).1.cpu =
      { firstCore.cpu with ret := 7 } :=
  (switch_comes_back _ _ secondThread_reached 7 2 9 [] (by simp) (by
    refine ⟨⟨?_,by decide,by decide⟩,⟨?_,by decide,by decide⟩,trivial⟩
    · exact fun h => nomatch h
    · exact fun h => nomatch h)).2.1

/-- What the processor pushes for the timer, and then `i86_pit_wrapper`. -/
def pitFrame (r : RegList) : List Word :=
  [r.ss,r.sp,r.rflags,r.cs,r.rip,r.rax,r.rbx,r.rcx,r.rdx,r.rbp,r.rdi,r.rsi,r.r8,r.r9,r.r10,r.r11,
    r.r12,r.r13,r.r14,r.r15]

/-- From user mode the stack is the one that the task state names. -/
def pitTop (s : Core) (r : RegList) : ℕ := if r.cs = userCs then s.tssRsp0 else r.sp.toNat/16*16

def pitEntry (s : Core) (r : RegList) : Stack := (Stack.mk (pitTop s r) s.mem).pushAll (pitFrame r)

/-- The pops of the wrapper, and `iretq`. There is no error code. -/
def pitExit (c : Stack) : RegList where
  r15 := load c.mem c.rsp
  r14 := load c.mem (c.rsp+8)
  r13 := load c.mem (c.rsp+16)
  r12 := load c.mem (c.rsp+24)
  r11 := load c.mem (c.rsp+32)
  r10 := load c.mem (c.rsp+40)
  r9 := load c.mem (c.rsp+48)
  r8 := load c.mem (c.rsp+56)
  rsi := load c.mem (c.rsp+64)
  rdi := load c.mem (c.rsp+72)
  rbp := load c.mem (c.rsp+80)
  rdx := load c.mem (c.rsp+88)
  rcx := load c.mem (c.rsp+96)
  rbx := load c.mem (c.rsp+104)
  rax := load c.mem (c.rsp+112)
  origRax := 0
  rip := load c.mem (c.rsp+120)
  cs := load c.mem (c.rsp+128)
  rflags := load c.mem (c.rsp+136)
  sp := load c.mem (c.rsp+144)
  ss := load c.mem (c.rsp+152)

theorem pitEntry_rsp (s : Core) (r : RegList) : (pitEntry s r).rsp = pitTop s r-160 := pushAll_rsp _ _

theorem pitExit_entry {r : RegList} (hroom : 160 ≤ pitTop s r)
    (h : SameStack m (pitEntry s r).mem (pitEntry s r).rsp (pitTop s r)) :
    pitExit ⟨(pitEntry s r).rsp,m⟩ = { r with origRax := 0 } := by
  rw [pitEntry_rsp] at h ⊢
  have hword : ∀ i v, i < 20 → (pitFrame r)[19-i]? = some v → load m (pitTop s r-160+8*i) = v := by
    intro i v hi hv
    rw [h _ (by omega) (by omega), show pitTop s r-160+8*i = pitTop s r-8*(19-i+1) by omega]
    exact pushAll_load ⟨pitTop s r,s.mem⟩ (19-i) hroom hv
  generalize pitTop s r-160 = rsp at hword
  simp only [pitExit, RegList.mk.injEq]
  exact ⟨hword 0 _ (by decide) rfl,hword 1 _ (by decide) rfl,hword 2 _ (by decide) rfl,
    hword 3 _ (by decide) rfl,hword 10 _ (by decide) rfl,hword 13 _ (by decide) rfl,
    hword 4 _ (by decide) rfl,hword 5 _ (by decide) rfl,hword 6 _ (by decide) rfl,
    hword 7 _ (by decide) rfl,hword 14 _ (by decide) rfl,hword 12 _ (by decide) rfl,
    hword 11 _ (by decide) rfl,hword 8 _ (by decide) rfl,hword 9 _ (by decide) rfl,trivial,
    hword 15 _ (by decide) rfl,hword 16 _ (by decide) rfl,hword 17 _ (by decide) rfl,
    hword 18 _ (by decide) rfl,hword 19 _ (by decide) rfl⟩

/-- A process that the timer interrupts, in user mode or in the middle of a system call, and
that `i86_pit_irq` switches away goes on with all its registers when it has been switched
back to, whatever has happened in between. -/
theorem timer_unnoticed (s : Core) (w : Waiting) (hs : Reached (s,w)) (r : RegList)
    (hplace : r.cs = userCs ∨
      s.kstack s.current+160 ≤ r.sp.toNat/16*16 ∧ r.sp.toNat ≤ esp0 s s.current)
    (cpu : Resumed) (mem : Mem) (hcpu : cpu.rsp ≤ (pitEntry s r).rsp)
    (hmem : SameStack mem (pitEntry s r).mem (pitEntry s r).rsp (pitTop s r))
    (ret next ret' : Word) (es : List Event) (hes : ∀ r, Event.switch r s.current ∉ es)
    (ha : RunAllowed (.work cpu mem::.switch ret next::es++[.switch ret' s.current]) (s,w))
    (rest : Mem) (hrest : SameStack rest
      (run (.work cpu mem::.switch ret next::es++[.switch ret' s.current]) (s,w)).1.mem
      (pitEntry s r).rsp (pitTop s r)) :
    pitExit ⟨(pitEntry s r).rsp,rest⟩ = { r with origRax := 0 } := by
  have hkept := reached_kept hs
  have hentry := pitEntry_rsp s r
  obtain ⟨hroom,htop⟩ : 160 ≤ pitTop s r ∧ pitTop s r ≤ esp0 s s.current := by
    have hown : s.tssRsp0 = esp0 s s.current := hkept.top.1
    rw [pitTop]
    unfold esp0 at hown ⊢
    split_ifs with hcs
    · omega
    · rcases hplace with hcs' | ⟨hlow,hhigh⟩
      · exact absurd hcs' hcs
      · unfold esp0 at hhigh
        omega
  obtain ⟨_,_,hstack⟩ := switch_back (kept_step hkept ha.1) hes ha.2
  apply pitExit_entry hroom
  intro x hx hend
  rw [hrest x hx hend]
  exact (hstack x (hcpu.trans hx) (hend.trans htop)).trans (hmem x hx hend)

def userRegs : RegList := ⟨1,2,3,4,5,6,7,8,9,10,11,12,13,14,15,0,0x400000,userCs,0x202,0x7000,userSs⟩

theorem timer_unnoticed_second : ∃ s w, Reached (s,w) ∧ ∀ mem,
    SameStack mem (run [.work { firstCore.cpu with rsp := 0x10900 } (pitEntry s userRegs).mem,
      .switch 7 2,.switch 9 1] (s,w)).1.mem (pitEntry s userRegs).rsp (pitTop s userRegs) →
    pitExit ⟨(pitEntry s userRegs).rsp,mem⟩ = userRegs := by
  refine ⟨_,_,secondThread_reached,fun mem hmem => ?_⟩
  refine timer_unnoticed _ _ secondThread_reached userRegs (Or.inl rfl) _ _ (by decide)
    (fun x _ _ => rfl) 7 2 9 [] (by simp)
    ⟨?_,⟨?_,by decide,by decide⟩,⟨?_,by decide,by decide⟩,trivial⟩
    mem hmem
  · intro p hp
    obtain rfl : p = 2 := by
      by_contra hne
      exact hp (Function.update_of_ne hne ..)
    intro x hx hend
    exact pushAll_apart _ (by decide) (Or.inl (by exact le_trans (by decide) hx))
  · exact fun h => nomatch h
  · exact fun h => nomatch h

end PreemptiveOS.ContextSwitch
