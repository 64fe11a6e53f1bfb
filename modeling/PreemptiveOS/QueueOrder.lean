import PreemptiveOS.ProcessTree

/-!
# Calls that keep the queues in order

Every process is in one queue at most, its flag says whether that is the run
queue, and the run queue and the current process are alive. Each call and each
part of the timer interrupt keeps this, under the conditions that it needs.
-/

set_option autoImplicit false

namespace PreemptiveOS.QueueOrder
open ByteMemory Vmas LinkedQueues Scheduler SchedulerQueues ProcessTree

structure Orderly (s : System) (lists : QueueType → List Word) : Prop where
  sound : Sound s lists
  living : Living s lists
  current : Alive (s.pcbs s.current)

theorem alive_normal {b : Pcb} (h : b.processState = .normal) : Alive b := by
  rw [Alive, h]
  exact ⟨by simp,by simp⟩

variable {s' : System}

section
variable {s : System} {lists : QueueType → List Word} (h : Orderly s lists)
include h

theorem orderly_set (p : Word) (f : Pcb → Pcb)
    (hn : (f (s.pcbs p)).nextInQueue = (s.pcbs p).nextInQueue)
    (hpid : (f (s.pcbs p)).pid = (s.pcbs p).pid) (hon : (f (s.pcbs p)).onRq = (s.pcbs p).onRq)
    (hpptr : (f (s.pcbs p)).pptr = (s.pcbs p).pptr)
    (hstate : (∀ q, q ≠ .run → p ∉ lists q) ∨ (f (s.pcbs p)).processState = (s.pcbs p).processState ∧
      (f (s.pcbs p)).threadState = (s.pcbs p).threadState)
    (halive : Alive (s.pcbs p) → Alive (f (s.pcbs p))) : Orderly (s.set p f) lists := by
  have hall : ∀ r, Alive (s.pcbs r) → Alive ((s.set p f).pcbs r) := by
    intro r hr
    by_cases hrp : r = p
    · subst hrp
      rw [set_same]
      exact halive hr
    · rwa [set_other _ _ hrp]
  constructor
  case sound =>
    apply sound_set h.sound hn hpid hon hpptr hstate
    intro he
    exact halive (he ▸ h.sound.registered.idleAlive)
  case living => exact fun r hr => hall r (h.living r hr)
  case current => exact hall _ h.current

theorem orderly_schedule (hs : schedule s = some s') :
    ∃ lists', Orderly s' lists' ∧ Scheduled s s' lists lists' := by
  obtain ⟨lists',h',hl,hsch,hcur⟩ := schedule_sound h.sound (fun p hp _ => h.living p hp)
    (Or.inl h.current) hs
  exact ⟨lists',⟨h',hl,hcur⟩,hsch⟩

theorem orderly_wake (q : QueueType) (hq : q ≠ .run) (p : Word) (hm : p ∈ s.made)
    (hother : ∀ q', q' ≠ q → q' ≠ .run → p ∉ lists q') (s' : System)
    (hs : tryToWakeUp q (some p) s = some s') :
    Orderly s' (wokenLists lists q p) ∧ Relinked (s.set p wokenPcb) s' := by
  obtain ⟨h',hr⟩ := wake_sound h.sound q hq p hm hother s' hs
  have hall : ∀ r, Alive (s.pcbs r) ∨ r = p → Alive (s'.pcbs r) := by
    intro r hr'
    rw [Alive, relinked_field Pcb.processState (fun _ => rfl) hr r]
    by_cases hrp : r = p
    · subst hrp
      rw [set_same]
      exact alive_normal rfl
    · rw [set_other _ _ hrp]
      exact hr'.resolve_right hrp
  refine ⟨⟨h',?_,?_⟩,hr⟩
  · intro r hr'
    rcases (woken_run lists q p r).mp hr' with he | hr'
    · exact hall r (Or.inr he)
    · exact hall r (Or.inl (h.living r hr'))
  · rw [hr.current]
    exact hall _ (Or.inl h.current)

end

def still (b : Pcb) : Pcb :=
  { Pcb.core b with sleepTime := 0, processState := .new, threadState := .running }

structure Walked (s s' : System) (lists lists' : QueueType → List Word) : Prop where
  made : s'.made = s.made
  current : s'.current = s.current
  allproc : s'.allproc = s.allproc
  rest : ∀ p, still (s'.pcbs p) = still (s.pcbs p)
  slices : ∀ p, (s'.pcbs p).timeSlice = (s.pcbs p).timeSlice
  states : ∀ p, (s'.pcbs p).processState = (s.pcbs p).processState ∧
    (s'.pcbs p).threadState = (s.pcbs p).threadState ∨
    (p ∈ lists .sleeping ∨ p ∈ lists .run) ∧ (s'.pcbs p).processState = .normal ∧
      (s'.pcbs p).threadState = .running
  run : ∀ p ∈ lists' .run, p ∈ lists .sleeping ∨ p ∈ lists .run
  others : ∀ q, q ≠ .run → ∀ p ∈ lists' q, p ∈ lists q

variable {lists lists' : QueueType → List Word} {s : System}

theorem walked_field {α : Type} (g : Pcb → α) (hg : ∀ b, g (still b) = g b)
    (h : Walked s s' lists lists') (p : Word) : g (s'.pcbs p) = g (s.pcbs p) := by
  rw [← hg, h.rest p, hg]

theorem walked_refl (s : System) (lists : QueueType → List Word) : Walked s s lists lists := by
  constructor
  case states => exact fun p => Or.inl ⟨rfl,rfl⟩
  case run => exact fun p hp => Or.inr hp
  case others => exact fun q _ p hp => hp
  all_goals intros; rfl

variable {lists₁ : QueueType → List Word} {s₁ : System}

theorem walked_trans {s₂ s₃ : System} {lists₂ lists₃ : QueueType → List Word}
    (h : Walked s₁ s₂ lists₁ lists₂) (h' : Walked s₂ s₃ lists₂ lists₃) :
    Walked s₁ s₃ lists₁ lists₃ := by
  have hback : ∀ p, p ∈ lists₂ .sleeping ∨ p ∈ lists₂ .run → p ∈ lists₁ .sleeping ∨ p ∈ lists₁ .run :=
    fun p hp => hp.elim (fun hs => Or.inl (h.others .sleeping (by decide) p hs)) (h.run p)
  constructor
  case made => exact h'.made.trans h.made
  case current => exact h'.current.trans h.current
  case allproc => exact h'.allproc.trans h.allproc
  case rest => exact fun p => (h'.rest p).trans (h.rest p)
  case slices => exact fun p => (h'.slices p).trans (h.slices p)
  case states =>
    intro p
    rcases h'.states p with ⟨hps,hts⟩ | ⟨hp,hps,hts⟩
    · rw [hps, hts]
      exact h.states p
    · exact Or.inr ⟨hback p hp,hps,hts⟩
  case run => exact fun p hp => hback p (h'.run p hp)
  case others => exact fun q hq p hp => h.others q hq p (h'.others q hq p hp)

variable {p : Word}

section
variable {s : System} {lists : QueueType → List Word} (h : Orderly s lists)
include h

theorem walked_alive (hw : Walked s s' lists lists') (p : Word) :
    Alive (s'.pcbs p) ↔ Alive (s.pcbs p) := by
  rcases hw.states p with ⟨hps,_⟩ | ⟨hp,hps,_⟩
  · rw [Alive, Alive, hps]
  · have hold : Alive (s.pcbs p) := by
      rcases hp with hp | hp
      · exact alive_normal (h.sound.states .sleeping (by decide) p hp).1
      · exact h.living p hp
    exact ⟨fun _ => hold,fun _ => alive_normal hps⟩

theorem walked_wake (hp : p ∈ lists .sleeping ∨ p ∈ lists .run)
    (hs : tryToWakeUp .sleeping (some p) s = some s') :
    Orderly s' (wokenLists lists .sleeping p) ∧
    Walked s s' lists (wokenLists lists .sleeping p) := by
  have hm : p ∈ s.made := hp.elim (h.sound.threaded.members .sleeping p)
    (h.sound.threaded.members .run p)
  have hother : ∀ q', q' ≠ .sleeping → q' ≠ .run → p ∉ lists q' := by
    intro q' hqs hqr hq'
    rcases hp with hp | hp
    · exact hqs (h.sound.threaded.linked.disjoint q' .sleeping p hq' hp)
    · exact hqr (h.sound.threaded.linked.disjoint q' .run p hq' hp)
  obtain ⟨h',hr⟩ := orderly_wake h .sleeping (by decide) p hm hother s' hs
  refine ⟨h',?_⟩
  constructor
  case made => exact hr.made
  case current => exact hr.current
  case allproc => exact hr.allproc
  case rest => exact relinked_set_field still (fun _ => rfl) rfl hr
  case slices => exact relinked_set_field Pcb.timeSlice (fun _ => rfl) rfl hr
  case states =>
    intro r
    rw [relinked_field Pcb.processState (fun _ => rfl) hr r,
      relinked_field Pcb.threadState (fun _ => rfl) hr r]
    by_cases hrp : r = p
    · subst hrp
      rw [set_same]
      exact Or.inr ⟨hp,rfl,rfl⟩
    · rw [set_other _ _ hrp]
      exact Or.inl ⟨rfl,rfl⟩
  case run =>
    intro r hrr
    rcases (woken_run lists .sleeping p r).mp hrr with rfl | hrr
    · exact hp
    · exact Or.inr hrr
  case others => exact fun q hq r hrq => woken_other lists .sleeping q p r hq hrq

theorem walked_tick (p : Word) :
    Orderly (s.set p (fun b => { b with sleepTime := b.sleepTime-1 })) lists ∧
    Walked s (s.set p (fun b => { b with sleepTime := b.sleepTime-1 })) lists lists := by
  refine ⟨orderly_set h p _ rfl rfl rfl rfl (Or.inr ⟨rfl,rfl⟩) id,?_⟩
  constructor
  case rest => exact set_field still s p _ rfl
  case slices => exact set_field Pcb.timeSlice s p _ rfl
  case states =>
    intro r
    exact Or.inl ⟨set_field Pcb.processState s p _ rfl r,set_field Pcb.threadState s p _ rfl r⟩
  case run => exact fun r hr => Or.inr hr
  case others => exact fun q _ r hr => hr
  all_goals rfl

end

/-- The walk of the timer, which goes on in the run queue once it has woken a
process. -/
theorem wakeSleepers_walked {n : ℕ} (process : Option Word) (s : System)
    (lists : QueueType → List Word) (h : Orderly s lists)
    (hp : ∀ p ∈ process, p ∈ lists .sleeping ∨ p ∈ lists .run)
    (hs : wakeSleepers n process s = some s') :
    ∃ lists', Orderly s' lists' ∧ Walked s s' lists lists' := by
  induction n generalizing process s lists with
  | zero =>
    cases process with
    | none =>
      obtain rfl := Option.some.inj hs
      exact ⟨lists,h,walked_refl s lists⟩
    | some p => cases hs
  | succ n ih =>
    cases process with
    | none =>
      obtain rfl := Option.some.inj hs
      exact ⟨lists,h,walked_refl s lists⟩
    | some p =>
      rw [wakeSleepers] at hs
      split at hs
      · obtain ⟨s₁,hs₁,hs⟩ := Option.bind_eq_some_iff.mp hs
        obtain ⟨h₁,hw₁⟩ := walked_wake h (hp p rfl) hs₁
        have hrun : p ∈ wokenLists lists .sleeping p .run := (woken_run _ _ _ _).mpr (Or.inl rfl)
        have hc := h₁.sound.threaded.linked.chain .run
        obtain ⟨lists',h',hw⟩ := ih (s₁.next p) s₁ _ h₁
          (fun r hr => Or.inr (chain_next_mem _ hc hrun hr)) hs
        exact ⟨lists',h',walked_trans hw₁ hw⟩
      · obtain ⟨h₁,hw₁⟩ := walked_tick h p
        have hnext : (s.set p (fun b => { b with sleepTime := b.sleepTime-1 })).next = s.next :=
          set_next rfl
        dsimp only at hs
        rw [hnext] at hs
        have hc := h.sound.threaded.linked.chain
        obtain ⟨lists',h',hw⟩ := ih (s.next p) _ _ h₁ (by
          intro r hr
          rcases hp p rfl with hps | hpr
          · exact Or.inl (chain_next_mem _ (hc .sleeping) hps hr)
          · exact Or.inr (chain_next_mem _ (hc .run) hpr hr)) hs
        exact ⟨lists',h',walked_trans hw₁ hw⟩

def notified (s : System) : Option Word :=
  if s.current ∈ (s.pcbs s.current).cptr then initTask s else (s.pcbs s.current).pptr

theorem initTask_made (h : Registered s) (hp : initTask s = some p) : p ∈ s.made := by
  obtain ⟨n,hn,rfl⟩ := Option.map_eq_some_iff.mp hp
  exact h.listed n (List.mem_of_mem_head? hn)

theorem notified_made (h : Registered s) (hp : notified s = some p) : p ∈ s.made := by
  rw [notified] at hp
  split at hp
  · exact initTask_made h hp
  · exact h.parents _ h.current p hp

section
variable {s : System} {lists : QueueType → List Word} (h : Orderly s lists)
include h

theorem bury_sound (hparked : ∀ q, q ≠ .run → s.current ∉ lists q)
    (hpid : (s.pcbs s.current).pid ≠ 0) (hb : Buried s.current s s') :
    Sound s' lists ∧ ∀ p, p ≠ s.current → Alive (s.pcbs p) → Alive (s'.pcbs p) := by
  have hreg := h.sound.registered
  have hpids := buried_field Pcb.pid (fun _ => rfl) (fun _ => rfl) hb
  have hps := buried_other Pcb.processState (fun _ => rfl) s.current s s' hb
  have hts := buried_other Pcb.threadState (fun _ => rfl) s.current s s' hb
  have halive := fun p hp => (buried_alive s.current s s' hb p hp).mpr
  refine ⟨?_,halive⟩
  constructor
  case threaded =>
    constructor
    case linked =>
      have hnext : s'.next = s.next :=
        funext (buried_field Pcb.nextInQueue (fun _ => rfl) (fun _ => rfl) hb)
      rw [hnext, hb.processes]
      exact h.sound.threaded.linked
    case members =>
      rw [hb.made]
      exact h.sound.threaded.members
    case pids =>
      intro p hp r hr he
      rw [hb.made] at hp hr
      rw [hpids, hpids] at he
      exact h.sound.threaded.pids p hp r hr he
  case flags =>
    intro p hp
    rw [hb.made] at hp
    rw [buried_field Pcb.onRq (fun _ => rfl) (fun _ => rfl) hb p]
    exact h.sound.flags p hp
  case states =>
    intro q hq p hp
    have hne : p ≠ s.current := fun he => hparked q hq (he ▸ hp)
    rw [hps p hne, hts p hne]
    exact h.sound.states q hq p hp
  case registered =>
    constructor
    case current =>
      rw [hb.current, hb.made]
      exact hreg.current
    case idle =>
      rw [hb.idleTask, hb.made]
      exact hreg.idle
    case parents =>
      intro p hp r hr
      rw [hb.made] at hp ⊢
      rw [hb.pptr p] at hr
      split at hr
      · exact initTask_made hreg hr
      · exact hreg.parents p hp r hr
    case listed =>
      intro n hn
      rw [hb.made]
      rw [hb.allproc] at hn
      exact hreg.listed n ((leaveAllproc_sublist s.current s).subset hn)
    case pids =>
      intro p hp
      rw [hb.made] at hp
      rw [hpids, hb.lastPid]
      exact hreg.pids p hp
    case room =>
      rw [hb.lastPid]
      exact hreg.room
    case idlePid =>
      rw [hb.idleTask, hpids]
      exact hreg.idlePid
    case idleAlive =>
      rw [hb.idleTask]
      exact halive _ (fun he => hpid (he ▸ hreg.idlePid)) hreg.idleAlive

end

structure Exited (s s' : System) (lists lists' : QueueType → List Word) : Prop where
  family : ∃ s₁, Buried s.current s s₁ ∧ s'.made = s₁.made ∧ s'.allproc = s₁.allproc ∧
    ∀ r, still (s'.pcbs r) = still (s₁.pcbs r)
  others : ∀ r, r ≠ s.current → notified s ≠ some r →
    (s'.pcbs r).processState = (s.pcbs r).processState ∧
    (s'.pcbs r).threadState = (s.pcbs r).threadState
  woken : ∀ r, notified s = some r →
    (s'.pcbs r).processState = .normal ∧ (s'.pcbs r).threadState = .running
  self : notified s ≠ some s.current →
    (s'.pcbs s.current).processState = .zombie ∧ (s'.pcbs s.current).threadState = .stopped
  run : ∀ p ∈ lists' .run, p ∈ lists .run ∨ notified s = some p
  parked : ∀ q, q ≠ .run → ∀ p ∈ lists' q, p ∈ lists q ∧ notified s ≠ some p

structure Notified (target : Option Word) (s s' : System) (lists lists' : QueueType → List Word) :
    Prop where
  made : s'.made = s.made
  current : s'.current = s.current
  allproc : s'.allproc = s.allproc
  rest : ∀ r, still (s'.pcbs r) = still (s.pcbs r)
  others : ∀ r, target ≠ some r → (s'.pcbs r).processState = (s.pcbs r).processState ∧
    (s'.pcbs r).threadState = (s.pcbs r).threadState
  woken : ∀ r, target = some r →
    (s'.pcbs r).processState = .normal ∧ (s'.pcbs r).threadState = .running
  run : ∀ p ∈ lists' .run, p ∈ lists .run ∨ target = some p
  parked : ∀ q, q ≠ .run → ∀ p ∈ lists' q, p ∈ lists q ∧ target ≠ some p

theorem notify_sound (h : Sound s lists) {target : Option Word}
    (hm : ∀ p, target = some p → p ∈ s.made)
    (hn : ∀ p, target = some p → p ∉ lists .sleeping ∧ p ∉ lists .blocked)
    (hs : tryToWakeUp .waiting target s = some s') :
    ∃ lists', Sound s' lists' ∧ Notified target s s' lists lists' := by
  cases target with
  | none =>
    obtain rfl := Option.some.inj hs
    refine ⟨lists,h,?_⟩
    constructor
    case others => exact fun r _ => ⟨rfl,rfl⟩
    case woken => exact fun r hr => by cases hr
    case run => exact fun p hp => Or.inl hp
    case parked => exact fun q _ p hp => ⟨hp,by simp⟩
    all_goals intros; rfl
  | some p =>
    have hother : ∀ q', q' ≠ .waiting → q' ≠ .run → p ∉ lists q' := by
      intro q' hqw hqr
      cases q' with
      | run => exact absurd rfl hqr
      | waiting => exact absurd rfl hqw
      | sleeping => exact (hn p rfl).1
      | blocked => exact (hn p rfl).2
    obtain ⟨h',hr⟩ := wake_sound h .waiting (by decide) p (hm p rfl) hother s' hs
    refine ⟨_,h',?_⟩
    have hps := relinked_field Pcb.processState (fun _ => rfl) hr
    have hts := relinked_field Pcb.threadState (fun _ => rfl) hr
    constructor
    case made => exact hr.made
    case current => exact hr.current
    case allproc => exact hr.allproc
    case rest => exact relinked_set_field still (fun _ => rfl) rfl hr
    case others =>
      intro r hrp
      have hne : r ≠ p := fun he => hrp (by rw [he])
      rw [hps, hts, set_other _ _ hne]
      exact ⟨rfl,rfl⟩
    case woken =>
      intro r hrp
      obtain rfl := Option.some.inj hrp
      rw [hps, hts, set_same]
      exact ⟨rfl,rfl⟩
    case run =>
      intro r hrr
      rcases (woken_run lists .waiting p r).mp hrr with rfl | hrr
      · exact Or.inr rfl
      · exact Or.inl hrr
    case parked =>
      intro q hq r hrq
      refine ⟨woken_other lists .waiting q p r hq hrq,?_⟩
      intro he
      obtain rfl := Option.some.inj he
      exact hq (h'.threaded.linked.disjoint q .run p hrq ((woken_run _ _ _ _).mpr (Or.inl rfl)))

variable {frames : ℕ}

section
variable {s : System} {lists : QueueType → List Word} (h : Orderly s lists)
include h

/-- An exit that ends: the parent is woken, and the exiting process leaves the
run queue for good unless it is its own parent. -/
theorem exit_exited (hpid : (s.pcbs s.current).pid ≠ 0)
    (hparked : ∀ q, q ≠ .run → s.current ∉ lists q)
    (hn : ∀ p, notified s = some p → p ∉ lists .sleeping ∧ p ∉ lists .blocked)
    (hs : sysExit frames s = some s') : ∃ lists', Orderly s' lists' ∧ Exited s s' lists lists' := by
  rw [sysExit, if_neg hpid] at hs
  obtain ⟨s₂,hs₂,hs⟩ := Option.bind_eq_some_iff.mp hs
  obtain ⟨s₁,hs₁,hs₂⟩ := Option.bind_eq_some_iff.mp hs₂
  have hb := bury_effect hs₁
  obtain ⟨h₁,halive₁⟩ := bury_sound h hparked hpid hb
  have htarget : (s₁.pcbs s.current).pptr = notified s := hb.pptr s.current
  rw [exitNotify, htarget] at hs₂
  obtain ⟨lists₂,h₂,hno⟩ := notify_sound h₁
    (fun p hp => hb.made ▸ notified_made h.sound.registered hp) hn hs₂
  have hcur₂ : s₂.current = s.current := hno.current.trans hb.current
  have hself := buried_self hb
  have hlive : ∀ p ∈ lists₂ .run, p ≠ s₂.current → Alive (s₂.pcbs p) := by
    intro p hp hpc
    rw [hcur₂] at hpc
    by_cases hnp : notified s = some p
    · exact alive_normal (hno.woken p hnp).1
    · rw [Alive, (hno.others p hnp).1]
      exact halive₁ p hpc (h.living p ((hno.run p hp).resolve_right hnp))
  have hstate : (s₂.pcbs s₂.current).processState = .normal ∧
      (s₂.pcbs s₂.current).threadState = .running ∨
      (s₂.pcbs s₂.current).processState = .zombie ∧
      (s₂.pcbs s₂.current).threadState = .stopped := by
    rw [hcur₂]
    by_cases hnc : notified s = some s.current
    · exact Or.inl (hno.woken _ hnc)
    · rw [(hno.others _ hnc).1, (hno.others _ hnc).2]
      exact Or.inr hself
  obtain ⟨lists',h',hl,hsch,hcur⟩ := schedule_sound h₂ hlive
    (hstate.imp (fun hst => alive_normal hst.1) id) hs
  have hps := kept_field Pcb.processState (fun _ => rfl) hsch.kept
  have hts := kept_field Pcb.threadState (fun _ => rfl) hsch.kept
  refine ⟨lists',⟨h',hl,hcur⟩,?_⟩
  constructor
  case family =>
    refine ⟨s₁,hb,hsch.kept.made.trans hno.made,hsch.kept.allproc.trans hno.allproc,?_⟩
    intro r
    rw [kept_field still (fun _ => rfl) hsch.kept r, hno.rest r]
  case others =>
    intro r hrc hrn
    rw [hps, hts, (hno.others r hrn).1, (hno.others r hrn).2,
      buried_other Pcb.processState (fun _ => rfl) _ _ _ hb r hrc,
      buried_other Pcb.threadState (fun _ => rfl) _ _ _ hb r hrc]
    exact ⟨rfl,rfl⟩
  case woken =>
    intro r hr
    rw [hps, hts]
    exact hno.woken r hr
  case self =>
    intro hr
    rw [hps, hts, (hno.others _ hr).1, (hno.others _ hr).2]
    exact hself
  case run => exact fun p hp => hno.run p (hsch.run p hp)
  case parked =>
    intro q hq p hp
    rcases hsch.others q hq p hp with hold | ⟨rfl,_⟩
    · exact hno.parked q hq p hold
    · -- the exiting process is not in a state that a queue is for
      have hst := h'.states q hq s₂.current hp
      rw [hps, hts] at hst
      rcases hstate with hr | hr
      · rw [hr.2] at hst
        cases q <;> simp [waitState] at hst hq
      · rw [hr.1] at hst
        simp at hst

variable {child : Word}

theorem adopt_orderly (hnew : child ∉ s.made) (hroom : s.lastPid.toNat+1 < 2^16) :
    Orderly (adopt s.current child s) lists := by
  have hreg := h.sound.registered
  have hmem := h.sound.threaded.members
  have halive := adopt_alive s.current child hnew
  have hnext := adopt_made s.current child hnew Pcb.nextInQueue (fun _ _ => rfl)
  have hpids := adopt_made s.current child hnew Pcb.pid (fun _ _ => rfl)
  constructor
  case sound =>
    constructor
    case threaded =>
      constructor
      case linked =>
        apply linked_congr h.sound.threaded.linked
        exact fun q p hp => hnext p (hmem q p hp)
      case members => exact fun q p hp => List.mem_cons_of_mem _ (hmem q p hp)
      case pids =>
        intro p hpc r hrc
        exact adopt_pids s.current child hnew s.made (fun _ hr => hr) h.sound.threaded.pids
          (nextPid_fresh hreg.pids hroom) p r (List.mem_cons.mp hpc) (List.mem_cons.mp hrc)
    case flags =>
      intro p hpc
      rcases List.mem_cons.mp hpc with rfl | hpm
      · rw [adopt_new]
        exact ⟨fun he => (by cases he),fun hp => absurd (hmem .run p hp) hnew⟩
      · rw [adopt_made s.current child hnew Pcb.onRq (fun _ _ => rfl) p hpm]
        exact h.sound.flags p hpm
    case states =>
      intro q hq p hp
      rw [adopt_made s.current child hnew Pcb.processState (fun _ _ => rfl) p (hmem q p hp),
        adopt_made s.current child hnew Pcb.threadState (fun _ _ => rfl) p (hmem q p hp)]
      exact h.sound.states q hq p hp
    case registered =>
      constructor
      case current => exact List.mem_cons_of_mem _ hreg.current
      case idle => exact List.mem_cons_of_mem _ hreg.idle
      case parents =>
        intro p hpc r hr
        rcases List.mem_cons.mp hpc with rfl | hpm
        · rw [adopt_new] at hr
          obtain rfl := Option.some.inj hr
          exact List.mem_cons_of_mem _ hreg.current
        · rw [adopt_made s.current child hnew Pcb.pptr (fun _ _ => rfl) p hpm] at hr
          exact List.mem_cons_of_mem _ (hreg.parents p hpm r hr)
      case listed => exact fun n hn => List.mem_cons_of_mem _ (hreg.listed n hn)
      case pids => exact adopt_bound s.current child hnew hreg.pids hroom
      case room =>
        show (s.lastPid+1).toNat < 2^16
        rw [(nextPid_toNat hroom).2]
        exact hroom
      case idlePid => exact (hpids _ hreg.idle).trans hreg.idlePid
      case idleAlive => exact (halive _ hreg.idle).mpr hreg.idleAlive
  case living => exact fun p hp => (halive p (hmem .run p hp)).mpr (h.living p hp)
  case current => exact (halive _ hreg.current).mpr h.current

theorem enlist_orderly (node : Option KernelPtr) (hm : child ∈ s.made) :
    Orderly (enlist child node s) lists := by
  have hreg := h.sound.registered
  have hlisted : ∀ n ∈ (enlist child node s).allproc, n.process ∈ s.made := by
    intro n hn
    rcases List.mem_append.mp hn with hn | hn
    · exact hreg.listed n hn
    · obtain ⟨k,_,rfl⟩ := List.mem_map.mp hn
      exact hm
  exact ⟨⟨⟨h.sound.threaded.linked,h.sound.threaded.members,h.sound.threaded.pids⟩,h.sound.flags,
    h.sound.states,{ hreg with listed := hlisted }⟩,h.living,h.current⟩

/-- The end of a fork, in which no interrupt comes: in between, the child is in
the run queue and its flag does not say so. -/
theorem queue_orderly (hm : child ∈ s.made) (hout : ¬ Member lists child)
    (halive : Alive (s.pcbs child))
    (hs : (addProcessToQueue .run child s).map (fun s₂ => s₂.set child (Pcb.onQueue true)) =
      some s') :
    ∃ lists', Orderly s' lists' ∧ Kept s s' ∧ s'.current = s.current ∧
      (∀ p ∈ lists' .run, p ∈ lists .run ∨ p = child) ∧ ∀ q, q ≠ .run → lists' q = lists q := by
  obtain ⟨s₂,hs₂,ht,hr⟩ := threaded_add h.sound.threaded .run child hm hout
  rw [hs₂] at hs
  obtain rfl := Option.some.inj hs
  have hboth := relinked_set child (Pcb.onQueue true) hr (fun _ => rfl)
  have hps := relinked_set_field Pcb.processState (fun _ => rfl) rfl hboth
  have hts := relinked_set_field Pcb.threadState (fun _ => rfl) rfl hboth
  have hrun : ∀ p, p ∈ Function.update lists .run (lists .run++[child]) .run ↔
      p ∈ lists .run ∨ p = child := by
    intro p
    rw [Function.update_self, List.mem_append, List.mem_singleton]
  refine ⟨_,?_,kept_trans _ _ _ (kept_set rfl) (kept_relinked hboth),hr.current,
    fun p hp => (hrun p).mp hp,fun q hq => Function.update_of_ne hq _ _⟩
  constructor
  case sound =>
    constructor
    case threaded => exact threaded_set ht child _ rfl rfl
    case flags =>
      intro p hp
      have hpm : p ∈ s.made := hr.made ▸ hp
      rw [relinked_field Pcb.onRq (fun _ => rfl) hboth p, hrun]
      by_cases hpc : p = child
      · subst hpc
        rw [set_same]
        exact ⟨fun _ => Or.inr rfl,fun _ => rfl⟩
      · rw [set_other _ _ hpc, h.sound.flags p hpm]
        exact ⟨Or.inl,fun hor => hor.resolve_right hpc⟩
    case states =>
      intro q hq p hp
      rw [Function.update_of_ne hq] at hp
      rw [hps, hts]
      exact h.sound.states q hq p hp
    case registered =>
      apply registered_relinked (registered_set h.sound.registered rfl rfl _) hboth
      rintro rfl
      exact h.sound.registered.idleAlive
  case living =>
    intro p hp
    rw [Alive, hps]
    rcases (hrun p).mp hp with hp | rfl
    · exact h.living p hp
    · exact halive
  case current =>
    rw [Alive, hps]
    show Alive (s.pcbs s₂.current)
    rw [hr.current]
    exact h.current

theorem fork_orderly {node : Option KernelPtr} (hnew : child ∉ s.made)
    (hroom : s.lastPid.toNat+1 < 2^16) (hs : doFork child node s = some s') :
    ∃ lists', Orderly s' lists' ∧ Kept (enlist child node (adopt s.current child s)) s' ∧
      s'.current = s.current ∧ (∀ p ∈ lists' .run, p ∈ lists .run ∨ p = child) ∧
      ∀ q, q ≠ .run → lists' q = lists q := by
  have hm : child ∈ (adopt s.current child s).made := List.mem_cons_self
  have h₁ := enlist_orderly (adopt_orderly h hnew hroom) node hm
  rw [doFork] at hs
  split at hs
  · obtain rfl := Option.some.inj hs
    exact ⟨lists,h₁,kept_refl _,rfl,fun p hp => Or.inl hp,fun q _ => rfl⟩
  · have hout : ¬ Member lists child := by
      rintro ⟨q,hq⟩
      exact hnew (h.sound.threaded.members q child hq)
    refine queue_orderly h₁ hm hout (alive_normal ?_) hs
    show ((adopt s.current child s).pcbs child).processState = .normal
    rw [adopt_new]
    rfl

end

variable {pid sig : BitVec 32}

/-- Everything a signal can do. -/
theorem signal_cases (hs : sendSignal pid sig s = some s') :
    s' = s ∨ ∃ proc, getProcessDescriptorFromPid pid s = some proc ∧
      (s' = s.set proc (raiseSignal sig) ∨ schedule (s.set proc (raiseSignal sig)) = some s' ∨
        ∃ q, q ≠ .run ∧ (s.pcbs proc).processState = .normal ∧
          (s.pcbs proc).threadState = waitState q ∧
          ∃ s₂, tryToWakeUp q (some proc) (s.set proc (raiseSignal sig)) = some s₂ ∧
            schedule s₂ = some s') := by
  rw [sendSignal] at hs
  cases hproc : getProcessDescriptorFromPid pid s with
  | none =>
    rw [hproc] at hs
    exact Or.inl (Option.some.inj hs).symm
  | some proc =>
    rw [hproc] at hs
    refine Or.inr ⟨proc,rfl,?_⟩
    dsimp only at hs
    split at hs
    · exact Or.inl (Option.some.inj hs).symm
    · split at hs
      · rename_i hts hps
        obtain ⟨s₂,hs₂,hs⟩ := Option.bind_eq_some_iff.mp hs
        exact Or.inr (Or.inr ⟨.sleeping,by decide,hps,hts,s₂,hs₂,hs⟩)
      · rename_i hts hps
        obtain ⟨s₂,hs₂,hs⟩ := Option.bind_eq_some_iff.mp hs
        exact Or.inr (Or.inr ⟨.blocked,by decide,hps,hts,s₂,hs₂,hs⟩)
      · rename_i hts hps
        obtain ⟨s₂,hs₂,hs⟩ := Option.bind_eq_some_iff.mp hs
        exact Or.inr (Or.inr ⟨.waiting,by decide,hps,hts,s₂,hs₂,hs⟩)
      · exact Or.inl (Option.some.inj hs).symm
      · exact Or.inr (Or.inl hs)

theorem raiseSignal_still (sig : BitVec 32) (b : Pcb) :
    (raiseSignal sig b).nextInQueue = b.nextInQueue ∧ (raiseSignal sig b).pid = b.pid ∧
    (raiseSignal sig b).onRq = b.onRq ∧ (raiseSignal sig b).pptr = b.pptr ∧
    (raiseSignal sig b).processState = b.processState ∧
    (raiseSignal sig b).threadState = b.threadState ∧ (raiseSignal sig b).cptr = b.cptr ∧
    (raiseSignal sig b).point = b.point := by
  rw [raiseSignal]
  split_ifs <;> exact ⟨rfl,rfl,rfl,rfl,rfl,rfl,rfl,rfl⟩

theorem waitState_inj {q q' : QueueType} (h : waitState q = waitState q') : q = q' := by
  cases q <;> cases q' <;> simp [waitState] at h ⊢

theorem descriptor_made (h : Registered s) {proc : Word}
    (hp : getProcessDescriptorFromPid pid s = some proc) : proc ∈ s.made := by
  obtain ⟨n,hn,rfl⟩ := Option.map_eq_some_iff.mp hp
  exact h.listed n (List.mem_of_find?_eq_some hn)

section
variable {s : System} {lists : QueueType → List Word} (h : Orderly s lists)
include h

theorem raise_orderly (sig : BitVec 32) (proc : Word) :
    Orderly (s.set proc (raiseSignal sig)) lists := by
  obtain ⟨hn,hpid,hon,hpptr,hps,hts,_,_⟩ := raiseSignal_still sig (s.pcbs proc)
  apply orderly_set h proc _ hn hpid hon hpptr (Or.inr ⟨hps,hts⟩)
  intro ha
  rwa [Alive, hps]

theorem mark_orderly {thread : ThreadState} (hout : ∀ q, q ≠ .run → p ∉ lists q) :
    Orderly (s.set p (Pcb.mark .normal thread)) lists :=
  orderly_set h p _ rfl rfl rfl rfl (Or.inl hout) (fun _ => alive_normal rfl)

theorem goOn_orderly (point : Point) : Orderly (s.set s.current (Pcb.goOn point)) lists :=
  orderly_set h s.current _ rfl rfl rfl rfl (Or.inr ⟨rfl,rfl⟩) id

/-- A child that has exited is in no queue, so that marking it dead changes none. -/
theorem reap_orderly (child : Word) : Orderly (doWaitThread child s).1 lists := by
  rw [doWaitThread]
  split
  · rename_i hz
    refine orderly_set h child (fun b => { b with processState := .dead }) rfl rfl rfl rfl ?_ ?_
    · left
      intro q hq hmem
      rw [(h.sound.states q hq child hmem).1] at hz
      simp at hz
    · exact fun ha => absurd hz.1 ha.1
  · exact h

theorem scan_orderly (hout : ∀ q, q ≠ .run → s.current ∉ lists q) (i : ℕ) (child : Word) :
    Orderly (scanChild i child s) lists := by
  have hr := reap_orderly h child
  have hcur : (doWaitThread child s).1.current = s.current := by
    rw [doWaitThread]
    split <;> rfl
  rw [scanChild]
  rw [← hcur] at hout ⊢
  split
  · exact orderly_set hr _ _ rfl rfl rfl rfl (Or.inl hout) (fun _ => alive_normal rfl)
  · split
    · exact goOn_orderly hr _
    · exact goOn_orderly hr _

end

def signalled (b : Pcb) : Pcb := (takeSignal b).goOn (.timerRest b.point)

theorem signalled_same {α : Type} (g : Pcb → α)
    (hk : ∀ b v, g { b with isSigkillPending := v } = g b)
    (hv : ∀ b v, g { b with isSigsegvPending := v } = g b) (hp : ∀ b v, g (Pcb.goOn v b) = g b)
    (b : Pcb) : g (signalled b) = g b := by
  rw [signalled, hp, takeSignal]
  split
  · exact hk _ _
  · exact hv _ _

theorem signalled_field {α : Type} (g : Pcb → α)
    (hk : ∀ b v, g { b with isSigkillPending := v } = g b)
    (hv : ∀ b v, g { b with isSigsegvPending := v } = g b) (hp : ∀ b v, g (Pcb.goOn v b) = g b)
    (s : System) (r : Word) : g ((s.set s.current signalled).pcbs r) = g (s.pcbs r) :=
  set_field g s s.current signalled (signalled_same g hk hv hp _) r

end PreemptiveOS.QueueOrder
