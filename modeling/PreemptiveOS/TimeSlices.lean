import PreemptiveOS.QueueOrder

/-!
# The range of the time slices

The timer takes a tick from the slice of the current process, and the scheduler
fills a slice that is used up. A system call runs with interrupts on, so the
timer can come in between its parts. Whatever parts of calls have run, in
whatever order, every process has a tick left and no more than a full slice.
-/

set_option autoImplicit false

namespace PreemptiveOS.TimeSlices
open ByteMemory Vmas Scheduler SchedulerQueues ProcessTree QueueOrder

inductive Part where
  | refill
  | dequeue
  | pick
  | adopt (child : Word)
  | enlist (child : Word) (node : Option KernelPtr)
  | enqueue (child : Word)
  | flag (child : Word)
  | bury (frames : ℕ)
  | notify

def part (s : System) : Part → Option System
  | .refill => some (refill s)
  | .dequeue => dequeue s
  | .pick => some (pickNextTask s)
  | .adopt child => some (adopt s.current child s)
  | .enlist child node => if child ∈ s.made then some (enlist child node s) else none
  | .enqueue child => if child ∈ s.made then addProcessToQueue .run child s else none
  | .flag child => some (s.set child (Pcb.onQueue true))
  | .bury frames => bury s.current frames s
  | .notify => exitNotify s.current s

def act (s : System) : Event ⊕ Part → Option System := Sum.elim (step s) (part s)

theorem schedule_parts (s : System) :
    schedule s = [Part.refill,.dequeue,.pick].foldlM part s := by
  simp [part, schedule, Option.map_eq_bind]

theorem doFork_parts (child : Word) (node : Option KernelPtr) (s : System) :
    doFork child node s = (Part.adopt child::.enlist child node::
      if node.isNone then [] else [Part.enqueue child,.flag child]).foldlM part s := by
  have hm : child ∈ (adopt s.current child s).made := List.mem_cons_self
  have hm' : child ∈ (enlist child node (adopt s.current child s)).made := hm
  cases node <;> simp [part, hm, hm', doFork, Option.map_eq_bind]

variable {s : System} {frames : ℕ}

theorem sysExit_parts (h : (s.pcbs s.current).pid ≠ 0) :
    sysExit frames s = [Part.bury frames,.notify,.refill,.dequeue,.pick].foldlM part s := by
  rw [sysExit, if_neg h, Option.bind_assoc]
  cases hb : bury s.current frames s with
  | none => simp [part, hb]
  | some s₁ =>
    rw [List.foldlM_cons, part, hb]
    simp [part, (bury_effect hb).current, schedule_parts]

def InRange (slice : Word) : Prop := 1 ≤ slice.toNat ∧ slice.toNat ≤ fullSlice.toNat

structure Charged (queued : Set Word) (s : System) : Prop where
  current : s.current ∈ s.made
  idle : s.idleTask ∈ s.made
  parents : ∀ p ∈ s.made, ∀ r ∈ (s.pcbs p).pptr, r ∈ s.made
  listed : ∀ n ∈ s.allproc, n.process ∈ s.made
  members : ∀ p ∈ queued, p ∈ s.made
  heads : ∀ q, ∀ p ∈ s.processes q, p ∈ queued
  links : ∀ p ∈ queued, ∀ r ∈ s.next p, r ∈ queued
  slices : ∀ p ∈ s.made, InRange (s.pcbs p).timeSlice

def Ready (s : System) : Prop := ∃ queued, Charged queued s

variable {slice : Word}

theorem inRange_spent (h : InRange slice) (hz : slice-1 ≠ 0) : InRange (slice-1) := by
  obtain ⟨h₁,h₂⟩ := h
  have hpos : (slice-1).toNat ≠ 0 := fun he => hz (BitVec.eq_of_toNat_eq he)
  exact ⟨by omega,by bv_omega⟩

theorem inRange_full : InRange fullSlice := ⟨by decide,le_refl _⟩

theorem inRange_filled (h : slice ≠ 0 → InRange slice) :
    InRange (if slice = 0 then fullSlice else slice) := by
  split
  · exact inRange_full
  · exact h ‹_›

variable {v : Option Word} {q : QueueType} {s' : System} {p : Word}

section
variable {queued : Set Word} {s : System} (h : Charged queued s)
include h

theorem charged_update (p : Word) {b : Pcb} {made : List Word} (lastPid : BitVec 32)
    (hsub : ∀ r ∈ s.made, r ∈ made) (hback : ∀ r ≠ p, r ∈ made → r ∈ s.made)
    (hn : p ∈ queued → ∀ r ∈ b.nextInQueue, r ∈ queued)
    (hp : p ∈ made → ∀ r ∈ b.pptr, r ∈ made) (hs : p ∈ made → InRange b.timeSlice) :
    Charged queued
      { s with pcbs := Function.update s.pcbs p b, made := made, lastPid := lastPid } := by
  constructor
  case current => exact hsub _ h.current
  case idle => exact hsub _ h.idle
  case parents =>
    exact (Function.forall_update_iff s.pcbs (fun r b => r ∈ made → ∀ x ∈ b.pptr, x ∈ made)).mpr
      ⟨hp,fun r hr hm x hx => hsub x (h.parents r (hback r hr hm) x hx)⟩
  case listed => exact fun n hn => hsub _ (h.listed n hn)
  case members => exact fun r hr => hsub r (h.members r hr)
  case heads => exact h.heads
  case links =>
    exact (Function.forall_update_iff s.pcbs
      (fun r b => r ∈ queued → ∀ x ∈ b.nextInQueue, x ∈ queued)).mpr ⟨hn,fun r _ => h.links r⟩
  case slices =>
    exact (Function.forall_update_iff s.pcbs (fun r b => r ∈ made → InRange b.timeSlice)).mpr
      ⟨hs,fun r hr hm => h.slices r (hback r hr hm)⟩

theorem charged_set (p : Word) (f : Pcb → Pcb)
    (hn : p ∈ queued → ∀ r ∈ (f (s.pcbs p)).nextInQueue, r ∈ queued)
    (hp : p ∈ s.made → ∀ r ∈ (f (s.pcbs p)).pptr, r ∈ s.made)
    (hs : p ∈ s.made → InRange (f (s.pcbs p)).timeSlice) : Charged queued (s.set p f) :=
  charged_update h p s.lastPid (fun _ hr => hr) (fun _ _ hr => hr) hn hp hs

theorem charged_same (p : Word) (f : Pcb → Pcb)
    (hn : (f (s.pcbs p)).nextInQueue = (s.pcbs p).nextInQueue)
    (hp : (f (s.pcbs p)).pptr = (s.pcbs p).pptr)
    (hs : (f (s.pcbs p)).timeSlice = (s.pcbs p).timeSlice) : Charged queued (s.set p f) := by
  apply charged_set h p f
  · rw [hn]
    exact h.links p
  · rw [hp]
    exact h.parents p
  · rw [hs]
    exact h.slices p

theorem charged_link (p : Word) (hv : ∀ r ∈ v, r ∈ queued) :
    Charged queued (s.set p (Pcb.link v)) :=
  charged_set h p _ (fun _ => hv) (h.parents p) (h.slices p)

theorem charged_head (q : QueueType) (hv : ∀ r ∈ v, r ∈ queued) :
    Charged queued { s with processes := Function.update s.processes q v } :=
  { h with
    heads := (Function.forall_update_iff s.processes (fun _ l => ∀ r ∈ l, r ∈ queued)).mpr
      ⟨hv,fun q' _ => h.heads q'⟩ }

/-- A process that gets a link to queued ones is queued itself. -/
theorem charged_queue (hm : p ∈ s.made) (hv : ∀ r ∈ v, r ∈ queued) :
    Charged (insert p queued) (s.set p (Pcb.link v)) := by
  have h₁ := charged_link h p hv
  have hsub := Set.subset_insert p queued
  refine { h₁ with members := ?_, heads := fun q r hr => hsub (h₁.heads q r hr), links := ?_ }
  · rintro r (rfl | hr)
    · exact hm
    · exact h.members r hr
  · rintro r (rfl | hr) x hx
    · rw [System.next, set_same] at hx
      exact hsub (hv x hx)
    · exact hsub (h₁.links r hr x hx)

theorem charged_front (q : QueueType) (hm : p ∈ s.made) :
    Charged (insert p queued) (addProcessToQueueFront q p s) := by
  apply charged_head (charged_queue h hm (h.heads q)) q
  rintro r ⟨⟩
  exact Set.mem_insert p queued

theorem charged_add (hm : p ∈ s.made) (hs : addProcessToQueue q p s = some s') : Ready s' := by
  have hnone := charged_queue h hm (v := none) (by simp)
  have hin : ∀ r ∈ some p, r ∈ insert p queued := by
    rintro r ⟨⟩
    exact Set.mem_insert p queued
  rw [addProcessToQueue] at hs
  split at hs
  · obtain rfl := Option.some.inj hs
    exact ⟨_,charged_head hnone q hin⟩
  · obtain ⟨last,_,rfl⟩ := Option.map_eq_some_iff.mp hs
    refine ⟨insert p queued,?_⟩
    by_cases he : last = p
    · subst he
      rw [set_set]
      exact hnone
    · -- the link of the last process is written first, but either order leaves the same
      rw [set_swap s _ _ (Ne.symm he)]
      exact charged_link hnone last hin

theorem charged_remove (hs : removeProcessFromQueue q p s = some s') :
    Charged queued s' ∧ s'.made = s.made := by
  rw [removeProcessFromQueue] at hs
  split at hs
  · obtain rfl := Option.some.inj hs
    exact ⟨h,rfl⟩
  · rename_i first hfirst
    have hnext := h.links first (h.heads q first hfirst)
    split at hs
    · obtain rfl := Option.some.inj hs
      exact ⟨charged_head h q hnext,rfl⟩
    · split at hs
      · obtain rfl := Option.some.inj hs
        exact ⟨h,rfl⟩
      · rename_i second hsecond
        split at hs
        · obtain rfl := Option.some.inj hs
          exact ⟨charged_link h first (h.links second (hnext second hsecond)),rfl⟩
        · cases hs

theorem charged_wake (hm : p ∈ s.made) (hs : tryToWakeUp q (some p) s = some s') :
    ∃ queued', queued ⊆ queued' ∧ Charged queued' s' := by
  obtain ⟨s₁,hs₁,rfl⟩ := Option.map_eq_some_iff.mp hs
  obtain ⟨h₁,hmade⟩ := charged_remove (charged_same h p (Pcb.mark .normal .running) rfl rfl rfl) hs₁
  split
  · exact ⟨queued,subset_rfl,h₁⟩
  · exact ⟨_,Set.subset_insert p queued,
      charged_same (charged_front h₁ .run (hmade ▸ hm)) p _ rfl rfl rfl⟩

theorem leave_ready (hs : leaveRunQueue q s = some s') : Ready s' := by
  rw [leaveRunQueue] at hs
  split at hs
  · obtain ⟨s₁,hs₁,hs⟩ := Option.bind_eq_some_iff.mp hs
    obtain ⟨h₁,hmade⟩ := charged_remove h hs₁
    exact charged_add (charged_same h₁ s.current (Pcb.onQueue false) rfl rfl rfl)
      (hmade ▸ h.current) hs
  · obtain rfl := Option.some.inj hs
    exact ⟨queued,h⟩

theorem dequeue_ready (hs : dequeue s = some s') : Ready s' := by
  rw [dequeue] at hs
  split at hs
  · obtain ⟨s₁,hs₁,rfl⟩ := Option.map_eq_some_iff.mp hs
    have h₁ : Charged queued s₁ := by
      split at hs₁
      · exact (charged_remove h hs₁).1
      · exact Option.some.inj hs₁ ▸ h
    exact ⟨queued,charged_same h₁ s.current (Pcb.onQueue false) rfl rfl rfl⟩
  · exact leave_ready h hs
  · exact leave_ready h hs
  · exact leave_ready h hs
  · exact Option.some.inj hs ▸ ⟨queued,h⟩

theorem pick_ready : Ready (pickNextTask s) := by
  rw [pickNextTask]
  split
  · rename_i next hnext
    exact ⟨queued,{ h with current := h.members next (h.heads .run next hnext) }⟩
  · split
    · exact ⟨queued,h⟩
    · exact ⟨queued,{ h with current := h.idle }⟩

end

theorem schedule_filled (h : Ready (refill s)) (hs : schedule s = some s') : Ready s' := by
  obtain ⟨s₁,hs₁,rfl⟩ := Option.map_eq_some_iff.mp hs
  obtain ⟨_,h₁⟩ := dequeue_ready h.choose_spec hs₁
  exact pick_ready h₁

section
variable {queued : Set Word} {s s' : System} (h : Charged queued s)
include h

theorem charged_refill : Charged queued (refill s) :=
  charged_set h s.current _ (h.links _) (h.parents _)
    (fun hm => inRange_filled (fun _ => h.slices _ hm))

theorem schedule_ready (hs : schedule s = some s') : Ready s' :=
  schedule_filled ⟨queued,charged_refill h⟩ hs

/-- A tick that uses up the slice is followed by the call that fills it. -/
theorem spend_ready (hs : spendSlice s = some s') : Ready s' := by
  have hslice := h.slices _ h.current
  rw [spendSlice] at hs
  split at hs
  · refine schedule_filled ⟨queued,?_⟩ hs
    rw [refill, set_current, set_set]
    exact charged_set h s.current _ (h.links _) (h.parents _)
      (fun _ => inRange_filled (inRange_spent hslice))
  · rename_i hz
    obtain rfl := Option.some.inj hs
    rw [set_same] at hz
    exact ⟨queued,charged_set h s.current _ (h.links _) (h.parents _)
      (fun _ => inRange_spent hslice hz)⟩

theorem bury_charged (hs : bury s.current frames s = some s') : Charged queued s' := by
  have hb := bury_effect hs
  have hnext := buried_field Pcb.nextInQueue (fun _ => rfl) (fun _ => rfl) hb
  constructor
  case current => rw [hb.current, hb.made]; exact h.current
  case idle => rw [hb.idleTask, hb.made]; exact h.idle
  case parents =>
    intro p hp r hr
    rw [hb.made] at hp ⊢
    rw [hb.pptr p] at hr
    split at hr
    · obtain ⟨n,hn,rfl⟩ := Option.map_eq_some_iff.mp hr
      exact h.listed n (List.mem_of_mem_head? hn)
    · exact h.parents p hp r hr
  case listed =>
    intro n hn
    rw [hb.allproc] at hn
    rw [hb.made]
    exact h.listed n ((leaveAllproc_sublist s.current s).subset hn)
  case members => rw [hb.made]; exact h.members
  case heads => rw [hb.processes]; exact h.heads
  case links => exact fun p hp r hr => h.links p hp r ((hnext p).symm.trans hr)
  case slices =>
    intro p hp
    rw [hb.made] at hp
    rw [buried_field Pcb.timeSlice (fun _ => rfl) (fun _ => rfl) hb p]
    exact h.slices p hp

theorem notify_ready (hs : exitNotify s.current s = some s') : Ready s' := by
  rw [exitNotify] at hs
  cases hp : (s.pcbs s.current).pptr with
  | none =>
    rw [hp] at hs
    exact Option.some.inj hs ▸ ⟨queued,h⟩
  | some p =>
    rw [hp] at hs
    obtain ⟨queued',_,h'⟩ := charged_wake h (h.parents _ h.current p hp) hs
    exact ⟨queued',h'⟩

theorem adopt_charged (child : Word) : Charged queued (adopt s.current child s) := by
  have h₁ := charged_same h s.current (fun b => { b with cptr := [child] }) rfl rfl rfl
  have hup : ∀ r ∈ s.made, r ∈ child::s.made := fun r => List.mem_cons_of_mem child
  apply charged_update h₁ child (s.lastPid+1) hup
  · exact fun r hr hm => (List.mem_cons.mp hm).resolve_left hr
  · exact fun _ r hr => by cases hr
  · intro _ r hr
    obtain rfl := Option.some.inj hr
    exact hup _ h.current
  · exact fun _ => inRange_full

theorem enlist_charged {child : Word} (hm : child ∈ s.made) (node : Option KernelPtr) :
    Charged queued (enlist child node s) := by
  refine { h with listed := fun n hn => ?_ }
  rcases List.mem_append.mp hn with hn | hn
  · exact h.listed n hn
  · obtain ⟨_,_,rfl⟩ := List.mem_map.mp hn
    exact hm

end

theorem part_ready {a : Part} (h : Ready s) (hs : part s a = some s') : Ready s' := by
  obtain ⟨queued,h⟩ := h
  cases a with
  | refill => exact Option.some.inj hs ▸ ⟨queued,charged_refill h⟩
  | dequeue => exact dequeue_ready h hs
  | pick => exact Option.some.inj hs ▸ pick_ready h
  | adopt child => exact Option.some.inj hs ▸ ⟨queued,adopt_charged h child⟩
  | enlist child node =>
    obtain ⟨hm,hs⟩ := Option.ite_none_right_eq_some.mp hs
    exact Option.some.inj hs ▸ ⟨queued,enlist_charged h hm node⟩
  | enqueue child =>
    obtain ⟨hm,hs⟩ := Option.ite_none_right_eq_some.mp hs
    exact charged_add h hm hs
  | flag child => exact Option.some.inj hs ▸ ⟨queued,charged_same h child _ rfl rfl rfl⟩
  | bury frames => exact ⟨queued,bury_charged h hs⟩
  | notify => exact notify_ready h hs

theorem foldlM_ready {α : Type} {f : System → α → Option System}
    (hf : ∀ {s s' a}, Ready s → f s a = some s' → Ready s') {as : List α} (h : Ready s)
    (hs : as.foldlM f s = some s') : Ready s' := by
  induction as generalizing s with
  | nil => exact Option.some.inj hs ▸ h
  | cons a as ih =>
    obtain ⟨s₁,hs₁,hs⟩ := Option.bind_eq_some_iff.mp hs
    exact ih (hf h hs₁) hs

theorem exit_ready (h : Ready s) (hs : sysExit frames s = some s') : Ready s' := by
  by_cases hpid : (s.pcbs s.current).pid = 0
  · rw [sysExit, if_pos hpid] at hs
    exact Option.some.inj hs ▸ h
  · rw [sysExit_parts hpid] at hs
    exact foldlM_ready part_ready h hs

section
variable {queued : Set Word} {s s' : System} (h : Charged queued s)
include h

theorem waitStep_ready (hs : waitStep s = some s') : Ready s' := by
  rw [waitStep] at hs
  split at hs
  · exact Option.some.inj hs ▸ ⟨queued,charged_same h s.current _ rfl rfl rfl⟩
  · obtain ⟨child,_,rfl⟩ := Option.map_eq_some_iff.mp hs
    have hreap : Charged queued (doWaitThread child s).1 := by
      rw [doWaitThread]
      split
      · exact charged_same h child (fun b => { b with processState := .dead }) rfl rfl rfl
      · exact h
    rw [scanChild]
    split_ifs
    all_goals exact ⟨queued,charged_same hreap s.current _ rfl rfl rfl⟩
  · exact schedule_ready (charged_same h s.current _ rfl rfl rfl) hs
  · cases hs

theorem signal_ready {pid sig : BitVec 32} (hs : sendSignal pid sig s = some s') : Ready s' := by
  rcases signal_cases hs with rfl | ⟨proc,hproc,hcase⟩
  · exact ⟨queued,h⟩
  · obtain ⟨n,hn,rfl⟩ := Option.map_eq_some_iff.mp hproc
    obtain ⟨hnext,_,_,hpptr,_⟩ := raiseSignal_still sig (s.pcbs n.process)
    have h₁ := charged_same h n.process (raiseSignal sig) hnext hpptr
      (by rw [raiseSignal]; split_ifs <;> rfl)
    rcases hcase with rfl | hs | ⟨q,_,_,_,s₂,hs₂,hs⟩
    · exact ⟨queued,h₁⟩
    · exact schedule_ready h₁ hs
    · obtain ⟨_,_,h₂⟩ := charged_wake h₁ (h.listed n (List.mem_of_find?_eq_some hn)) hs₂
      exact schedule_ready h₂ hs

end

variable {queued : Set Word}

theorem wakeSleepers_ready {n : ℕ} {process : Option Word} (h : Charged queued s)
    (hp : ∀ p ∈ process, p ∈ queued) (hs : wakeSleepers n process s = some s') : Ready s' := by
  induction n generalizing process queued s with
  | zero =>
    cases process with
    | none => exact Option.some.inj hs ▸ ⟨queued,h⟩
    | some p => cases hs
  | succ n ih =>
    cases process with
    | none => exact Option.some.inj hs ▸ ⟨queued,h⟩
    | some p =>
      rw [wakeSleepers] at hs
      split at hs
      · obtain ⟨s₁,hs₁,hs⟩ := Option.bind_eq_some_iff.mp hs
        obtain ⟨_,hsub,h₁⟩ := charged_wake h (h.members p (hp p rfl)) hs₁
        exact ih h₁ (h₁.links p (hsub (hp p rfl))) hs
      · have h₁ := charged_same h p (fun b => { b with sleepTime := b.sleepTime-1 }) rfl rfl rfl
        exact ih h₁ (h₁.links p (hp p rfl)) hs

theorem timer_ready {rounds : ℕ} (h : Charged queued s) (hs : pitIrq rounds frames s = some s') :
    Ready s' := by
  obtain ⟨s₁,hs₁,hs⟩ := Option.bind_eq_some_iff.mp hs
  obtain ⟨_,h₁⟩ := wakeSleepers_ready h (h.heads .sleeping) hs₁
  rw [pitSignal] at hs
  split at hs
  · refine exit_ready ⟨_,charged_same h₁ s₁.current signalled ?_ ?_ ?_⟩ hs
    · exact signalled_same Pcb.nextInQueue (fun _ _ => rfl) (fun _ _ => rfl) (fun _ _ => rfl) _
    · exact signalled_same Pcb.pptr (fun _ _ => rfl) (fun _ _ => rfl) (fun _ _ => rfl) _
    · exact signalled_same Pcb.timeSlice (fun _ _ => rfl) (fun _ _ => rfl) (fun _ _ => rfl) _
  · exact spend_ready h₁ hs

theorem step_ready {e : Event} (h : Ready s) (hs : step s e = some s') : Ready s' := by
  have hready := h
  obtain ⟨queued,h⟩ := h
  cases e with
  | schedule => exact schedule_ready h (Option.ite_none_right_eq_some.mp hs).2
  | fork child node =>
    have hs := (Option.ite_none_right_eq_some.mp hs).2
    rw [doFork_parts] at hs
    exact foldlM_ready part_ready hready hs
  | wait =>
    obtain rfl := Option.some.inj (Option.ite_none_right_eq_some.mp hs).2
    rw [sysWait]
    split
    · exact ⟨queued,h⟩
    · exact ⟨queued,charged_same h s.current _ rfl rfl rfl⟩
  | waitStep => exact waitStep_ready h hs
  | exit frames => exact exit_ready hready (Option.ite_none_right_eq_some.mp hs).2
  | signal pid sig => exact signal_ready h (Option.ite_none_right_eq_some.mp hs).2
  | sleep seconds =>
    have hs := (Option.ite_none_right_eq_some.mp hs).2
    rw [sysSleepProcess] at hs
    split at hs
    · exact Option.some.inj hs ▸ ⟨queued,h⟩
    · exact schedule_ready (charged_same h s.current _ rfl rfl rfl) hs
  | block process =>
    have hs := (Option.ite_none_right_eq_some.mp hs).2
    cases process with
    | none => exact Option.some.inj hs ▸ ⟨queued,h⟩
    | some p => exact schedule_ready (charged_same h p _ rfl rfl rfl) hs
  | timer rounds frames =>
    rw [step] at hs
    split at hs
    · cases hs
    · exact timer_ready h hs
  | timerRest =>
    rw [step] at hs
    split at hs
    · exact spend_ready (charged_same h s.current _ rfl rfl rfl) hs
    · cases hs

theorem act_ready {a : Event ⊕ Part} (h : Ready s) (hs : act s a = some s') : Ready s' := by
  cases a with
  | inl e => exact step_ready h hs
  | inr a => exact part_ready h hs

/-- No link of a process is followed before it is queued, so what the frame of
the idle task held does not matter. -/
theorem init_ready (memory : Word → Pcb) (idle : Word) : Ready (schedulerInit memory idle) := by
  have hblock : ∀ p ∈ [idle], (schedulerInit memory idle).pcbs p = idlePcb idle (memory idle) := by
    intro p hp
    rw [List.mem_singleton.mp hp]
    exact Function.update_self ..
  refine ⟨∅,?_⟩
  constructor
  case current => exact List.mem_singleton_self idle
  case idle => exact List.mem_singleton_self idle
  case parents =>
    intro p hp r hr
    rw [hblock p hp] at hr
    exact List.mem_singleton.mpr (Option.some.inj hr).symm
  case slices =>
    intro p hp
    rw [hblock p hp]
    exact inRange_full
  all_goals simp [schedulerInit]

theorem ready_current (h : Ready s) :
    ((s.pcbs s.current).timeSlice-1).toNat+1 = (s.pcbs s.current).timeSlice.toNat := by
  obtain ⟨_,h⟩ := h
  have hslice := (h.slices _ h.current).1
  bv_omega

/-- Whenever the timer comes in, and behind its walk through the sleeping queue. -/
theorem slices_stay_in_range (memory : Word → Pcb) (idle : Word) (as : List (Event ⊕ Part))
    (s : System) (hs : as.foldlM act (schedulerInit memory idle) = some s) :
    (s.current ∈ s.made ∧ s.idleTask ∈ s.made ∧ ∀ p ∈ s.made, InRange (s.pcbs p).timeSlice) ∧
    ∀ s₁, s₁ = s ∨ (∃ rounds, wakeSleepers rounds (s.processes .sleeping) s = some s₁) →
      ((s₁.pcbs s₁.current).timeSlice-1).toNat+1 = (s₁.pcbs s₁.current).timeSlice.toNat := by
  have h := foldlM_ready act_ready (init_ready memory idle) hs
  obtain ⟨_,hc⟩ := id h
  refine ⟨⟨hc.current,hc.idle,hc.slices⟩,?_⟩
  rintro s₁ (rfl | ⟨rounds,hw⟩)
  · exact ready_current h
  · exact ready_current (wakeSleepers_ready hc (hc.heads .sleeping) hw)

def interrupted : List (Event ⊕ Part) :=
  [.inl (.fork 0x2000 node),.inr .refill,.inl (.timer 0 0),.inr .dequeue,.inr .pick,.inl (.timer 0 0)]

theorem slices_stay_in_range_init : ∃ s, interrupted.foldlM act firstSystem = some s ∧
    s.current = 0x2000 ∧ InRange (s.pcbs s.current).timeSlice := by
  have h := slices_stay_in_range (fun _ => childPcb 0 0) 0x1000 interrupted _ rfl
  exact ⟨_,rfl,rfl,h.1.2.2 _ h.1.1⟩

end PreemptiveOS.TimeSlices
