import PreemptiveOS.ProcessTree

/-!
# The time slices

A process runs until its time slice is spent. The scheduler then takes the
first process of the run queue, and a process that can still run keeps its
place there: the first process has every turn.
-/

set_option autoImplicit false

namespace PreemptiveOS.RoundRobin
open ByteMemory LinkedQueues Scheduler SchedulerQueues ProcessTree

def ticks : ℕ → System → Option System
  | 0, s => some s
  | n+1, s => (pitIrq 0 0 s).bind (ticks n)

def expire (s : System) : Option System :=
  (ticks ((s.pcbs s.current).timeSlice-1).toNat s).bind (pitIrq 0 0)

def turns : ℕ → System → Option (List Word × System)
  | 0, s => some ([],s)
  | n+1, s => (expire s).bind (fun s₁ =>
    (turns n s₁).map (fun rest => (s₁.current::rest.1,rest.2)))

structure Undisturbed (s : System) : Prop where
  sleeping : s.processes .sleeping = none
  sigkill : (s.pcbs s.current).isSigkillPending = false
  sigsegv : (s.pcbs s.current).isSigsegvPending = false

variable {s : System}

theorem undisturbed_tick (rounds frames : ℕ) (h : Undisturbed s) :
    pitIrq rounds frames s = spendSlice s := by
  have hwalk : wakeSleepers rounds (s.processes .sleeping) s = some s := by
    rw [h.sleeping]
    cases rounds <;> rfl
  rw [pitIrq, hwalk, Option.bind_some, pitSignal, h.sigkill, h.sigsegv]
  simp

def spend (n : ℕ) (s : System) : System :=
  s.set s.current (fun b => { b with timeSlice := b.timeSlice-BitVec.ofNat 64 n })

theorem spend_slice (n : ℕ) (s : System) : ((spend n s).pcbs s.current).timeSlice =
    (s.pcbs s.current).timeSlice-BitVec.ofNat 64 n := by
  rw [spend, set_same]

theorem spend_spend (m n : ℕ) (s : System) : spend n (spend m s) = spend (m+n) s := by
  rw [spend, spend, spend]
  show (s.set s.current _).set s.current _ = _
  rw [set_set]
  apply set_congr
  rw [sub_sub, BitVec.ofNat_add]

theorem spend_zero (s : System) : spend 0 s = s := by
  apply set_id
  rw [show BitVec.ofNat 64 0 = 0 from rfl, sub_zero]

theorem undisturbed_spend (n : ℕ) (h : Undisturbed s) : Undisturbed (spend n s) := by
  constructor
  case sleeping => exact h.sleeping
  case sigkill => exact (set_field Pcb.isSigkillPending s s.current _ rfl _).trans h.sigkill
  case sigsegv => exact (set_field Pcb.isSigsegvPending s s.current _ rfl _).trans h.sigsegv

theorem early_tick (rounds frames : ℕ) (h : Undisturbed s)
    (hslice : (s.pcbs s.current).timeSlice ≠ 1) : pitIrq rounds frames s = some (spend 1 s) := by
  rw [undisturbed_tick rounds frames h, spendSlice, if_neg]
  · rfl
  · rw [set_same]
    exact fun hz => hslice (sub_eq_zero.mp hz)

variable {n : ℕ}

theorem early_slice (hn : n+1 ≤ ((s.pcbs s.current).timeSlice-1).toNat) :
    (s.pcbs s.current).timeSlice ≠ 1 ∧
      n ≤ (((spend 1 s).pcbs (spend 1 s).current).timeSlice-1).toNat := by
  constructor
  · intro he
    rw [he] at hn
    exact absurd hn (by simp)
  · show n ≤ (((spend 1 s).pcbs s.current).timeSlice-1).toNat
    rw [spend_slice]
    bv_omega

theorem early_ticks (s : System) (h : Undisturbed s)
    (hn : n ≤ ((s.pcbs s.current).timeSlice-1).toNat) : ticks n s = some (spend n s) := by
  induction n generalizing s with
  | zero =>
    rw [spend_zero]
    rfl
  | succ n ih =>
    obtain ⟨hslice,hrest⟩ := early_slice hn
    rw [ticks, early_tick 0 0 h hslice, Option.bind_some, ih _ (undisturbed_spend 1 h) hrest,
      spend_spend, Nat.add_comm]

theorem expire_schedule (h : Undisturbed s) :
    expire s = schedule (s.set s.current (fun b => { b with timeSlice := 0 })) := by
  rw [expire, early_ticks s h (le_refl _), Option.bind_some,
    undisturbed_tick _ _ (undisturbed_spend _ h), spendSlice]
  have hzero : (s.pcbs s.current).timeSlice-
      BitVec.ofNat 64 ((s.pcbs s.current).timeSlice-1).toNat-1 = 0 := by
    rw [BitVec.ofNat_toNat, BitVec.setWidth_eq, sub_sub_cancel, sub_self]
  show (if (((spend _ s).set s.current _).pcbs s.current).timeSlice = 0 then _ else _) = _
  rw [if_pos]
  · show schedule ((s.set s.current _).set s.current _) = _
    rw [set_set]
    congr 1
    apply set_congr
    dsimp only
    rw [hzero]
  · rw [set_same, spend_slice]
    exact hzero

def Runnable (s : System) (p : Word) : Prop :=
  (s.pcbs p).processState = .normal ∧ (s.pcbs p).threadState = .running ∧ (s.pcbs p).onRq = true

structure Running (s : System) (l : List Word) : Prop where
  chain : Chain s.next (s.processes .run) l
  nodup : l.Nodup
  current : s.current ∈ l
  runnable : ∀ p ∈ l, Runnable s p
  signals : ∀ p ∈ l, (s.pcbs p).isSigkillPending = false ∧ (s.pcbs p).isSigsegvPending = false
  sleeping : s.processes .sleeping = none

variable {l : List Word}

theorem running_undisturbed (h : Running s l) : Undisturbed s := by
  constructor
  case sleeping => exact h.sleeping
  case sigkill => exact (h.signals _ h.current).1
  case sigsegv => exact (h.signals _ h.current).2

theorem pick_first (s : System) (first : Word) (h : s.processes .run = some first) :
    pickNextTask s = { s with current := first } := by
  rw [pickNextTask, h]

def recharged (b : Pcb) : Pcb := { b with timeSlice := fullSlice }

theorem refill_spent (s : System) : refill (s.set s.current (fun b => { b with timeSlice := 0 })) =
    s.set s.current recharged :=
  set_set s s.current (fun b => { b with timeSlice := 0 })
    (fun b => { b with timeSlice := if b.timeSlice = 0 then fullSlice else b.timeSlice })

theorem expire_running (first : Word) (l : List Word) (h : Running s (first::l)) :
    ∃ s', expire s = some s' ∧ Running s' (first::l) ∧ s'.current = first := by
  have hcur := h.runnable _ h.current
  have hfield : ∀ {α : Type} (g : Pcb → α), (∀ b, g (recharged b) = g b) →
      ∀ r, g ((s.set s.current recharged).pcbs r) = g (s.pcbs r) :=
    fun g hg => set_field g s s.current _ (hg _)
  have hdequeue : dequeue (s.set s.current recharged) = some (s.set s.current recharged) := by
    have hps := (hfield Pcb.processState (fun _ => rfl) s.current).trans hcur.1
    have hts := (hfield Pcb.threadState (fun _ => rfl) s.current).trans hcur.2.1
    rw [dequeue, set_current, hps, hts]
  refine ⟨{ s.set s.current recharged with current := first },?_,?_,rfl⟩
  · rw [expire_schedule (running_undisturbed h), schedule, refill_spent, hdequeue,
      Option.map_some, pick_first (s.set s.current recharged) first h.chain.1]
  · constructor
    case chain =>
      exact chain_congr s.next _ _ _ (fun p _ => hfield Pcb.nextInQueue (fun _ => rfl) p) h.chain
    case nodup => exact h.nodup
    case current => exact List.mem_cons_self
    case runnable =>
      intro p hp
      refine ⟨?_,?_,?_⟩
      · exact (hfield Pcb.processState (fun _ => rfl) p).trans (h.runnable p hp).1
      · exact (hfield Pcb.threadState (fun _ => rfl) p).trans (h.runnable p hp).2.1
      · exact (hfield Pcb.onRq (fun _ => rfl) p).trans (h.runnable p hp).2.2
    case signals =>
      intro p hp
      exact ⟨(hfield Pcb.isSigkillPending (fun _ => rfl) p).trans (h.signals p hp).1,
        (hfield Pcb.isSigsegvPending (fun _ => rfl) p).trans (h.signals p hp).2⟩
    case sleeping => exact h.sleeping

theorem turns_running (n : ℕ) (s : System) (first : Word) (l : List Word)
    (h : Running s (first::l)) :
    ∃ s', turns n s = some (List.replicate n first,s') ∧ Running s' (first::l) := by
  induction n generalizing s with
  | zero => exact ⟨s,rfl,h⟩
  | succ n ih =>
    obtain ⟨s₁,hs₁,h₁,hcur⟩ := expire_running first l h
    obtain ⟨s',hs',h'⟩ := ih s₁ h₁
    refine ⟨s',?_,h'⟩
    rw [turns, hs₁, Option.bind_some, hs', Option.map_some, hcur]
    rfl

def TakesTurns (s : System) (l : List Word) : Prop :=
  ∃ order s', turns l.length s = some (order,s') ∧ (∀ p ∈ l, order.count p = 1) ∧
    ∃ l', Chain s'.next (s'.processes .run) l' ∧ ∀ p ∈ l, p ∈ l' ∧ Runnable s' p

theorem takes_turns_alone (h : Running s l) (ht : TakesTurns s l) : l.length = 1 := by
  cases l with
  | nil => exact absurd h.current List.not_mem_nil
  | cons first l =>
    obtain ⟨s',hs',_⟩ := turns_running (first::l).length s first l h
    obtain ⟨order,s₁,hs₁,hcount,_⟩ := ht
    obtain ⟨rfl,rfl⟩ := Prod.mk.inj (Option.some.inj (hs'.symm.trans hs₁))
    have hfirst := hcount first List.mem_cons_self
    rwa [List.count_replicate_self] at hfirst

/-- Only a process that is alone in the run queue has its turn as it should. -/
theorem takes_turns_iff (s : System) (l : List Word) (h : Running s l) :
    TakesTurns s l ↔ l.length = 1 := by
  refine ⟨takes_turns_alone h,?_⟩
  intro hlen
  obtain ⟨first,rfl⟩ := List.length_eq_one_iff.mp hlen
  obtain ⟨s',hs',h'⟩ := turns_running 1 s first [] h
  refine ⟨_,s',hs',?_,[first],h'.chain,fun p hp => ⟨hp,h'.runnable p hp⟩⟩
  intro p hp
  rw [List.mem_singleton.mp hp]
  exact List.count_replicate_self

theorem init_running : ∃ s, run firstSystem [.fork 0x2000 node,.schedule] = some s ∧
    Running s [0x2000] := by
  refine ⟨_,rfl,?_⟩
  constructor
  case chain => exact ⟨rfl,rfl⟩
  case nodup => decide
  case current => exact List.mem_singleton_self _
  case runnable => exact List.forall_mem_singleton.mpr ⟨rfl,rfl,rfl⟩
  case signals => exact List.forall_mem_singleton.mpr ⟨rfl,rfl⟩
  case sleeping => rfl

theorem takes_turns_iff_init : ∃ s, run firstSystem [.fork 0x2000 node,.schedule] = some s ∧
    Running s [0x2000] ∧ TakesTurns s [0x2000] := by
  obtain ⟨s,hs,h⟩ := init_running
  exact ⟨s,hs,h,(takes_turns_iff s _ h).mpr rfl⟩

theorem child_running : ∃ s,
    run firstSystem [.fork 0x2000 node,.schedule,.fork 0x3000 node] = some s ∧
      Running s [0x2000,0x3000] := by
  refine ⟨_,rfl,?_⟩
  constructor
  case chain => exact ⟨rfl,rfl,rfl⟩
  case nodup => decide
  case current => exact List.mem_cons_self
  case runnable =>
    exact List.forall_mem_cons.mpr ⟨⟨rfl,rfl,rfl⟩,List.forall_mem_singleton.mpr ⟨rfl,rfl,rfl⟩⟩
  case signals =>
    exact List.forall_mem_cons.mpr ⟨⟨rfl,rfl⟩,List.forall_mem_singleton.mpr ⟨rfl,rfl⟩⟩
  case sleeping => rfl

/-- Init keeps the processor from its child. -/
theorem first_process_keeps_turn : ∃ s,
    run firstSystem [.fork 0x2000 node,.schedule,.fork 0x3000 node] = some s ∧
      Running s [0x2000,0x3000] ∧ ¬ TakesTurns s [0x2000,0x3000] := by
  obtain ⟨s,hs,h⟩ := child_running
  refine ⟨s,hs,h,fun ht => ?_⟩
  have hlen := takes_turns_alone h ht
  simp at hlen

end PreemptiveOS.RoundRobin
