import PreemptiveOS.TimeSlices

/-!
# The queues over whole runs

From the start of the scheduler on, every process is in one queue at most, its
flag says whether that is the run queue, and no process that has exited gets
there, as long as four things do not happen: an exit does not notify a parent
that sleeps, is blocked or has itself exited; a process is not marked as
waiting, sleeping, blocked or exited while it sits in one of those queues; a
fork gets a new frame and a new pid; and the timer does not come between the two
last steps of a fork, which queue the child and set its flag.
-/

set_option autoImplicit false

namespace PreemptiveOS.SchedulerRuns
open ByteMemory Vmas LinkedQueues Scheduler SchedulerQueues ProcessTree QueueOrder TimeSlices

variable {s s₁ s' : System} {lists lists' lists₁ : QueueType → List Word} {p : Word}
  {frames rounds : ℕ}

def InQueue (s : System) (q : QueueType) (p : Word) : Prop :=
  ∃ l, Chain s.next (s.processes q) l ∧ p ∈ l

def Parked (s : System) (p : Word) : Prop :=
  InQueue s .waiting p ∨ InQueue s .sleeping p ∨ InQueue s .blocked p

def QuietExit (s : System) : Prop :=
  ¬ Parked s s.current ∧ ∀ p, notified s = some p →
    Alive (s.pcbs p) ∧ ¬ InQueue s .sleeping p ∧ ¬ InQueue s .blocked p

def Quiet (s : System) : Event → Prop
  | .fork child _ => child ∉ s.made ∧ s.lastPid.toNat+1 < 2^16
  | .wait => ¬ Parked s s.current
  | .waitStep => ¬ Parked s s.current
  | .sleep _ => ¬ Parked s s.current
  | .block process => ∀ p ∈ process, p ∈ s.made ∧ Alive (s.pcbs p) ∧ ¬ Parked s p
  | .exit _ => (s.pcbs s.current).pid ≠ 0 → QuietExit s
  | .timer _ _ => (s.pcbs s.current).isSigkillPending ∨ (s.pcbs s.current).isSigsegvPending →
    (s.pcbs s.current).pid ≠ 0 → QuietExit s
  | .schedule => True
  | .signal _ _ => True
  | .timerRest => True

theorem inQueue_iff (h : Sound s lists) (q : QueueType) (p : Word) :
    InQueue s q p ↔ p ∈ lists q := by
  constructor
  · rintro ⟨l,hl,hp⟩
    rwa [chain_unique _ _ _ _ (h.threaded.linked.chain q) hl]
  · intro hp
    exact ⟨lists q,h.threaded.linked.chain q,hp⟩

theorem unparked_lists (h : Sound s lists) (hp : ¬ Parked s p) : ∀ q, q ≠ .run → p ∉ lists q := by
  intro q hq hmem
  have hin := (inQueue_iff h q p).mpr hmem
  cases q with
  | run => exact hq rfl
  | waiting => exact hp (Or.inl hin)
  | sleeping => exact hp (Or.inr (Or.inl hin))
  | blocked => exact hp (Or.inr (Or.inr hin))

section
variable {s : System} {lists : QueueType → List Word} (h : Orderly s lists)
include h

theorem quietExit_lists (hq : QuietExit s) :
    (∀ q, q ≠ .run → s.current ∉ lists q) ∧
    (∀ p, notified s = some p → p ∉ lists .sleeping ∧ p ∉ lists .blocked) ∧
    ∀ p, notified s = some p → Alive (s.pcbs p) := by
  refine ⟨unparked_lists h.sound hq.1,?_,fun p hp => (hq.2 p hp).1⟩
  intro p hp
  obtain ⟨_,hs,hb⟩ := hq.2 p hp
  exact ⟨fun hm => hs ((inQueue_iff h.sound _ _).mpr hm),
    fun hm => hb ((inQueue_iff h.sound _ _).mpr hm)⟩

end

section
variable {s s₁ : System} {lists lists₁ : QueueType → List Word}

theorem notified_walked (hw : Walked s s₁ lists lists₁) : notified s₁ = notified s := by
  rw [notified, notified, initTask, initTask, hw.allproc, hw.current,
    walked_field Pcb.cptr (fun _ => rfl) hw, walked_field Pcb.pptr (fun _ => rfl) hw]

theorem quietExit_walked (h : Orderly s lists) (h₁ : Orderly s₁ lists₁)
    (hw : Walked s s₁ lists lists₁) (hq : QuietExit s) : QuietExit s₁ := by
  obtain ⟨hparked,hn,halive⟩ := quietExit_lists h hq
  have hnot : ∀ q p, q ≠ .run → p ∉ lists q → ¬ InQueue s₁ q p :=
    fun q p hqr hp hin => hp (hw.others q hqr p ((inQueue_iff h₁.sound q p).mp hin))
  constructor
  · rw [hw.current]
    rintro (hp | hp | hp)
    · exact hnot .waiting _ (by decide) (hparked _ (by decide)) hp
    · exact hnot .sleeping _ (by decide) (hparked _ (by decide)) hp
    · exact hnot .blocked _ (by decide) (hparked _ (by decide)) hp
  · intro p hp
    rw [notified_walked hw] at hp
    exact ⟨(walked_alive h hw p).mpr (halive p hp),
      hnot .sleeping p (by decide) (hn p hp).1,hnot .blocked p (by decide) (hn p hp).2⟩

end

theorem signalled_notified (s : System) : notified (s.set s.current signalled) = notified s := by
  have hc := signalled_field Pcb.cptr (fun _ _ => rfl) (fun _ _ => rfl) (fun _ _ => rfl) s s.current
  have hp := signalled_field Pcb.pptr (fun _ _ => rfl) (fun _ _ => rfl) (fun _ _ => rfl) s s.current
  rw [notified, notified]
  simp only [show (s.set s.current signalled).current = s.current from rfl, hc, hp]
  rfl

section
variable {s : System} {lists : QueueType → List Word} (h : Orderly s lists)
include h

theorem signalled_orderly : Orderly (s.set s.current signalled) lists := by
  have hsame := fun {α : Type} (g : Pcb → α) hk hv hp => signalled_same g hk hv hp (s.pcbs s.current)
  have hps := hsame Pcb.processState (fun _ _ => rfl) (fun _ _ => rfl) (fun _ _ => rfl)
  apply orderly_set h s.current
  · exact hsame Pcb.nextInQueue (fun _ _ => rfl) (fun _ _ => rfl) (fun _ _ => rfl)
  · exact hsame Pcb.pid (fun _ _ => rfl) (fun _ _ => rfl) (fun _ _ => rfl)
  · exact hsame Pcb.onRq (fun _ _ => rfl) (fun _ _ => rfl) (fun _ _ => rfl)
  · exact hsame Pcb.pptr (fun _ _ => rfl) (fun _ _ => rfl) (fun _ _ => rfl)
  · exact Or.inr ⟨hps,hsame Pcb.threadState (fun _ _ => rfl) (fun _ _ => rfl) (fun _ _ => rfl)⟩
  · intro ha
    rwa [Alive, hps]

theorem signalled_quietExit (hq : QuietExit s) : QuietExit (s.set s.current signalled) := by
  have hin : ∀ q p, InQueue (s.set s.current signalled) q p ↔ InQueue s q p := fun q p =>
    (inQueue_iff (signalled_orderly h).sound q p).trans (inQueue_iff h.sound q p).symm
  constructor
  · show ¬ (_ ∨ _ ∨ _)
    rw [hin, hin, hin]
    exact hq.1
  · intro p hnp
    rw [signalled_notified] at hnp
    rw [hin, hin, Alive,
      signalled_field Pcb.processState (fun _ _ => rfl) (fun _ _ => rfl) (fun _ _ => rfl)]
    exact hq.2 p hnp

theorem pitIrq_walked (hs : pitIrq rounds frames s = some s') :
    ∃ s₁ lists₁, Orderly s₁ lists₁ ∧ Walked s s₁ lists lists₁ ∧ pitSignal frames s₁ = some s' := by
  obtain ⟨s₁,hs₁,hs⟩ := Option.bind_eq_some_iff.mp hs
  have hfirst : ∀ p ∈ s.processes .sleeping, p ∈ lists .sleeping ∨ p ∈ lists .run :=
    fun p hp => Or.inl (List.mem_of_mem_head?
      ((chain_head _ _ _ (h.sound.threaded.linked.chain .sleeping)) ▸ hp))
  obtain ⟨lists₁,h₁,hw⟩ := wakeSleepers_walked _ s lists h hfirst hs₁
  exact ⟨s₁,lists₁,h₁,hw,hs⟩

omit h in
theorem walked_current (hw : Walked s s₁ lists lists₁) {α : Type} (g : Pcb → α)
    (hg : ∀ b, g (still b) = g b) : g (s₁.pcbs s₁.current) = g (s.pcbs s.current) := by
  rw [hw.current]
  exact walked_field g hg hw _

end

theorem orderly_init (memory : Word → Pcb) (idle : Word) :
    Orderly (schedulerInit memory idle) (fun _ => []) := by
  have hpcb : (schedulerInit memory idle).pcbs idle = idlePcb idle (memory idle) :=
    Function.update_self _ _ _
  have hidle : ∀ p ∈ (schedulerInit memory idle).made, p = idle :=
    fun p hp => List.mem_singleton.mp hp
  have halive : Alive ((schedulerInit memory idle).pcbs idle) := by
    rw [hpcb]
    exact alive_normal rfl
  constructor
  case sound =>
    constructor
    case threaded =>
      constructor
      case linked =>
        constructor
        case chain => exact fun _ => rfl
        case nodup => exact fun _ => List.nodup_nil
        case disjoint => exact fun _ _ p hp => absurd hp List.not_mem_nil
      case members => exact fun _ p hp => absurd hp List.not_mem_nil
      case pids => exact fun p hp r hr _ => (hidle p hp).trans (hidle r hr).symm
    case flags =>
      intro p hp
      rw [hidle p hp, hpcb]
      exact ⟨fun he => (by cases he),fun hm => absurd hm List.not_mem_nil⟩
    case states => exact fun _ _ p hp => absurd hp List.not_mem_nil
    case registered =>
      constructor
      case current => exact List.mem_singleton_self idle
      case idle => exact List.mem_singleton_self idle
      case parents =>
        intro p hp r hr
        rw [hidle p hp, hpcb] at hr
        exact List.mem_singleton.mpr (Option.some.inj hr).symm
      case listed => exact fun n hn => absurd hn List.not_mem_nil
      case pids =>
        intro p hp
        rw [hidle p hp, hpcb]
        exact le_refl 0
      case room => exact Nat.zero_lt_succ _
      case idlePid => exact congrArg Pcb.pid hpcb
      case idleAlive => exact halive
  case living => exact fun p hp => absurd hp List.not_mem_nil
  case current => exact halive

/-- What runs without an interrupt: an event, or a stretch of a fork. -/
inductive Move where
  | event (e : Event)
  | adopt (child : Word)
  | enlist (child : Word) (node : Option KernelPtr)
  | queue (child : Word)

def move (s : System) : Move → Option System
  | .event e => step s e
  | .adopt child => part s (.adopt child)
  | .enlist child node => part s (.enlist child node)
  | .queue child => [Part.enqueue child,.flag child].foldlM part s

theorem doFork_moves (child : Word) (node : Option KernelPtr) (s : System) :
    doFork child node s = (Move.adopt child::.enlist child node::
      if node.isNone then [] else [Move.queue child]).foldlM move s := by
  rw [doFork_parts]
  cases node <;> simp [move]

theorem not_inQueue (s : System) (q : QueueType) (p : Word) (l : List Word)
    (hl : Chain s.next (s.processes q) l) (hp : p ∉ l) : ¬ InQueue s q p := by
  rintro ⟨l',hl',hp'⟩
  exact hp (chain_unique _ _ _ _ hl hl' ▸ hp')

end PreemptiveOS.SchedulerRuns
