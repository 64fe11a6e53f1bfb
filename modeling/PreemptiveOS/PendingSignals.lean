import PreemptiveOS.TimeSlices

/-!
# Signals and the end of a process

A signal is a mark in a process block. `send_signal` sets it, and the timer
interrupt that finds the process running takes it off and calls `sys_exit`.
Everything else that calls and their parts do, in whatever order, leaves the
marks as they are and ends no process but the one that exits.
-/

set_option autoImplicit false

namespace PreemptiveOS.PendingSignals
open ByteMemory Vmas Scheduler SchedulerQueues ProcessTree QueueOrder TimeSlices

variable {q : QueueType} {p : Word}

section
variable {s s' : System}

theorem remove_relinked (hs : removeProcessFromQueue q p s = some s') : Relinked s s' := by
  rw [removeProcessFromQueue] at hs
  split at hs
  · exact Option.some.inj hs ▸ relinked_refl s
  · rename_i first _
    split at hs
    · exact Option.some.inj hs ▸ { relinked_refl s with }
    · split at hs
      · exact Option.some.inj hs ▸ relinked_refl s
      · split at hs
        · exact Option.some.inj hs ▸ relinked_link s first _
        · cases hs

theorem add_relinked (hs : addProcessToQueue q p s = some s') : Relinked s s' := by
  rw [addProcessToQueue] at hs
  split at hs
  · exact Option.some.inj hs ▸ { relinked_link s p none with }
  · obtain ⟨last,_,rfl⟩ := Option.map_eq_some_iff.mp hs
    exact relinked_trans (relinked_link s last _) (relinked_link _ p none)

theorem wake_kept (hs : tryToWakeUp q (some p) s = some s') :
    Kept (s.set p (Pcb.mark .normal .running)) s' ∧ s'.current = s.current := by
  obtain ⟨s₁,hs₁,rfl⟩ := Option.map_eq_some_iff.mp hs
  have hr := remove_relinked hs₁
  split
  · exact ⟨kept_relinked hr,hr.current⟩
  · have hfront : Kept s₁ (addProcessToQueueFront .run p s₁) :=
      { kept_relinked (relinked_link s₁ p (s₁.processes .run)) with }
    exact ⟨kept_trans _ _ _ (kept_relinked hr) (kept_trans _ _ _ hfront (kept_set rfl)),hr.current⟩

theorem leave_kept (hs : leaveRunQueue q s = some s') : Kept s s' := by
  rw [leaveRunQueue] at hs
  split at hs
  · obtain ⟨s₁,hs₁,hs⟩ := Option.bind_eq_some_iff.mp hs
    have h₁ : Kept s (s₁.set s.current (Pcb.onQueue false)) :=
      kept_trans _ _ _ (kept_relinked (remove_relinked hs₁)) (kept_set rfl)
    exact kept_trans _ _ _ h₁ (kept_relinked (add_relinked hs))
  · exact Option.some.inj hs ▸ kept_refl s

theorem dequeue_kept (hs : dequeue s = some s') : Kept s s' := by
  rw [dequeue] at hs
  split at hs
  · obtain ⟨s₁,hs₁,rfl⟩ := Option.map_eq_some_iff.mp hs
    have h₁ : Kept s s₁ := by
      split at hs₁
      · exact kept_relinked (remove_relinked hs₁)
      · exact Option.some.inj hs₁ ▸ kept_refl s
    exact kept_trans _ _ _ h₁ (kept_set rfl)
  · exact leave_kept hs
  · exact leave_kept hs
  · exact leave_kept hs
  · exact Option.some.inj hs ▸ kept_refl s

theorem pick_kept : Kept s (pickNextTask s) := by
  rw [pickNextTask]
  split
  · exact { kept_refl s with }
  · split
    · exact kept_refl s
    · exact { kept_refl s with }

theorem schedule_kept (hs : schedule s = some s') : Kept s s' := by
  obtain ⟨s₁,hs₁,rfl⟩ := Option.map_eq_some_iff.mp hs
  have hrefill : Kept s (refill s) := kept_set rfl
  exact kept_trans _ _ _ hrefill (kept_trans _ _ _ (dequeue_kept hs₁) pick_kept)

end

variable {f : Pcb → Pcb} {s : System} {r : Word}

theorem alive_set (p : Word) (hf : Alive (s.pcbs r) → Alive (f (s.pcbs r)))
    (ha : Alive (s.pcbs p)) : Alive ((s.set r f).pcbs p) := by
  by_cases hp : p = r
  · subst hp
    rw [set_same]
    exact hf ha
  · rwa [set_other _ _ hp]

variable {s' : System}

theorem alive_kept (h : Kept s s') (ha : Alive (s.pcbs p)) : Alive (s'.pcbs p) := by
  rw [Alive, kept_field Pcb.processState (fun _ => rfl) h p]
  exact ha

variable {process : Option Word}

theorem sleepers_still {n : ℕ} (hs : wakeSleepers n process s = some s') :
    (∀ r, still (s'.pcbs r) = still (s.pcbs r) ∧ (Alive (s.pcbs r) → Alive (s'.pcbs r))) ∧
    s'.current = s.current := by
  induction n generalizing process s with
  | zero =>
    cases process with
    | none => exact Option.some.inj hs ▸ ⟨fun _ => ⟨rfl,id⟩,rfl⟩
    | some p => cases hs
  | succ n ih =>
    cases process with
    | none => exact Option.some.inj hs ▸ ⟨fun _ => ⟨rfl,id⟩,rfl⟩
    | some p =>
      rw [wakeSleepers] at hs
      split at hs
      · obtain ⟨s₁,hs₁,hs⟩ := Option.bind_eq_some_iff.mp hs
        obtain ⟨hk,hc⟩ := wake_kept hs₁
        obtain ⟨hrest,hcur⟩ := ih hs
        refine ⟨fun r => ⟨?_,fun ha => (hrest r).2 ?_⟩,hcur.trans hc⟩
        · rw [(hrest r).1, kept_field still (fun _ => rfl) hk r]
          exact set_field still s p _ rfl r
        · exact alive_kept hk (alive_set r (fun _ => alive_normal rfl) ha)
      · obtain ⟨hrest,hcur⟩ := ih hs
        refine ⟨fun r => ⟨?_,fun ha => (hrest r).2 (alive_set r id ha)⟩,hcur⟩
        rw [(hrest r).1]
        exact set_field still s p _ rfl r

def signals (b : Pcb) : Bool × Bool := (b.isSigkillPending,b.isSigsegvPending)

structure Same (p : Word) (s s' : System) : Prop where
  signals : signals (s'.pcbs p) = signals (s.pcbs p)
  alive : Alive (s.pcbs p) → Alive (s'.pcbs p)

variable {frames : ℕ}

section
variable {p : Word} {s s' : System}

theorem same_refl (p : Word) (s : System) : Same p s s := ⟨rfl,id⟩

theorem same_trans {s₁ : System} (h : Same p s s₁) (h' : Same p s₁ s') : Same p s s' :=
  ⟨h'.signals.trans h.signals,fun ha => h'.alive (h.alive ha)⟩

theorem same_set (p : Word) (hs : signals (f (s.pcbs r)) = signals (s.pcbs r))
    (ha : Alive (s.pcbs r) → Alive (f (s.pcbs r))) : Same p s (s.set r f) :=
  ⟨set_field signals s r f hs p,alive_set p ha⟩

theorem same_kept (h : Kept s s') : Same p s s' :=
  ⟨kept_field signals (fun _ => rfl) h p,alive_kept h⟩

theorem same_wake (hs : tryToWakeUp q process s = some s') : Same p s s' := by
  cases process with
  | none => exact Option.some.inj hs ▸ same_refl p s
  | some r =>
    exact same_trans (same_set p rfl (fun _ => alive_normal rfl))
      (same_kept (wake_kept hs).1)

theorem same_schedule (hs : schedule s = some s') : Same p s s' := same_kept (schedule_kept hs)

theorem same_spend (hs : spendSlice s = some s') : Same p s s' := by
  have hset : Same p s (s.set s.current (fun b => { b with timeSlice := b.timeSlice-1 })) :=
    same_set p rfl id
  rw [spendSlice] at hs
  split at hs
  · exact same_trans hset (same_schedule hs)
  · exact Option.some.inj hs ▸ hset

theorem same_waitStep (hs : waitStep s = some s') : Same p s s' := by
  rw [waitStep] at hs
  split at hs
  · exact Option.some.inj hs ▸ same_set p rfl id
  · obtain ⟨child,_,rfl⟩ := Option.map_eq_some_iff.mp hs
    have hreap : Same p s (doWaitThread child s).1 := by
      rw [doWaitThread]
      split
      · rename_i hz
        exact same_set (f := fun b => { b with processState := .dead }) p rfl
          (fun ha => absurd hz.1 ha.1)
      · exact same_refl p s
    rw [scanChild]
    split_ifs
    · exact same_trans hreap (same_set p rfl (fun _ => alive_normal rfl))
    all_goals exact same_trans hreap (same_set p rfl id)
  · exact same_trans (same_set p rfl id) (same_schedule hs)
  · cases hs

theorem bury_signals (hs : bury r frames s = some s') : signals (s'.pcbs p) = signals (s.pcbs p) :=
  buried_field signals (fun _ => rfl) (fun _ => rfl) (bury_effect hs) p

theorem same_bury (hr : p ≠ r) (hs : bury r frames s = some s') : Same p s s' :=
  ⟨bury_signals hs,(buried_alive r s s' (bury_effect hs) p hr).mpr⟩

theorem exit_signals (hs : sysExit frames s = some s') :
    signals (s'.pcbs p) = signals (s.pcbs p) ∧ (p ≠ s.current → Same p s s') := by
  rw [sysExit] at hs
  split at hs
  · exact Option.some.inj hs ▸ ⟨rfl,fun _ => same_refl p s⟩
  · obtain ⟨s₂,hs₂,hs⟩ := Option.bind_eq_some_iff.mp hs
    obtain ⟨s₁,hs₁,hs₂⟩ := Option.bind_eq_some_iff.mp hs₂
    have hrest : Same p s₁ s' := same_trans (same_wake hs₂) (same_schedule hs)
    exact ⟨hrest.signals.trans (bury_signals hs₁),fun hp => same_trans (same_bury hp hs₁) hrest⟩

/-- An exit stays an exit if the process does not notify itself. -/
theorem exit_zombie (hs : sysExit frames s = some s') (hpid : (s.pcbs s.current).pid ≠ 0)
    (hpptr : (s.pcbs s.current).pptr ≠ some s.current)
    (hcptr : s.current ∉ (s.pcbs s.current).cptr) :
    (s'.pcbs s.current).processState = .zombie ∧ (s'.pcbs s.current).threadState = .stopped := by
  rw [sysExit, if_neg hpid] at hs
  obtain ⟨s₂,hs₂,hs⟩ := Option.bind_eq_some_iff.mp hs
  obtain ⟨s₁,hs₁,hs₂⟩ := Option.bind_eq_some_iff.mp hs₂
  have hb := bury_effect hs₁
  have hparent : (s₁.pcbs s.current).pptr = (s.pcbs s.current).pptr := by
    rw [hb.pptr, if_neg hcptr]
  have hk := schedule_kept hs
  -- the process that is woken is another one
  have hstate : ∀ {α : Type} (g : Pcb → α), (∀ b, g (Pcb.core b) = g b) →
      g (s'.pcbs s.current) = g (s₁.pcbs s.current) := by
    intro α g hg
    rw [kept_field g hg hk]
    rw [exitNotify, hparent] at hs₂
    cases hp : (s.pcbs s.current).pptr with
    | none =>
      rw [hp] at hs₂
      rw [Option.some.inj hs₂]
    | some parent =>
      rw [hp] at hs₂ hpptr
      have hne : s.current ≠ parent := fun he => hpptr (congrArg some he.symm)
      rw [kept_field g hg (wake_kept hs₂).1, set_other _ _ hne]
  rw [hstate Pcb.processState (fun _ => rfl), hstate Pcb.threadState (fun _ => rfl)]
  exact buried_self hb

end

def Forks (p : Word) : Event ⊕ Part → Prop
  | .inl (.fork child _) => child = p
  | .inr (.adopt child) => child = p
  | _ => False

def Exits : Event ⊕ Part → Prop
  | .inl (.exit _) => True
  | .inr (.bury _) => True
  | _ => False

/-- What an action does for one process. -/
inductive Moves (p : Word) (s s' : System) : Event ⊕ Part → Prop
  | same {a : Event ⊕ Part} (h : Same p s s') : Moves p s s' a
  | born {a : Event ⊕ Part} (h : Forks p a) (hs : signals (s'.pcbs p) = (false,false))
      (ha : Alive (s'.pcbs p)) : Moves p s s' a
  | raised {pid sig : BitVec 32} (h : getProcessDescriptorFromPid pid s = some p)
      (hs : signals (s'.pcbs p) = signals (raiseSignal sig (s.pcbs p)))
      (ha : Alive (s.pcbs p) → Alive (s'.pcbs p)) : Moves p s s' (.inl (.signal pid sig))
  | taken {rounds frames : ℕ} (h : s.current = p) (hs : signals (s.pcbs p) ≠ (false,false))
      (hz : (s.pcbs p).pid ≠ 0 → (s.pcbs p).pptr ≠ some p → p ∉ (s.pcbs p).cptr →
        (s'.pcbs p).processState = .zombie ∧ (s'.pcbs p).threadState = .stopped) :
      Moves p s s' (.inl (.timer rounds frames))
  | left {a : Event ⊕ Part} (h : s.current = p) (he : Exits a)
      (hs : signals (s'.pcbs p) = signals (s.pcbs p)) : Moves p s s' a

variable {pid sig : BitVec 32} {a : Event ⊕ Part} {child : Word}

section
variable (p : Word) {s s' : System}

theorem adopt_born (parent child : Word) :
    signals ((adopt parent child s).pcbs child) = (false,false) ∧
    Alive ((adopt parent child s).pcbs child) := by
  have hblock : (adopt parent child s).pcbs child = childPcb parent ((s.lastPid+1).setWidth 16) :=
    Function.update_self ..
  rw [hblock]
  exact ⟨rfl,alive_normal rfl⟩

theorem same_adopt (parent : Word) (hp : p ≠ child) : Same p s (adopt parent child s) := by
  have hblock : (adopt parent child s).pcbs p =
      (s.set parent (fun b => { b with cptr := [child] })).pcbs p := Function.update_of_ne hp ..
  have hset : Same p s (s.set parent (fun b => { b with cptr := [child] })) := same_set p rfl id
  exact ⟨by rw [hblock]; exact hset.signals,by rw [hblock]; exact hset.alive⟩

theorem fork_moves {node : Option KernelPtr} (hs : doFork child node s = some s') :
    Moves p s s' (.inl (.fork child node)) := by
  have henlist : Same p (adopt s.current child s) (enlist child node (adopt s.current child s)) :=
    ⟨rfl,id⟩
  have hrest : Same p (adopt s.current child s) s' := by
    rw [doFork] at hs
    split at hs
    · exact Option.some.inj hs ▸ henlist
    · obtain ⟨s₂,hs₂,rfl⟩ := Option.map_eq_some_iff.mp hs
      have hadd := same_kept (p := p) (kept_relinked (add_relinked hs₂))
      exact same_trans henlist (same_trans hadd (same_set p rfl id))
  by_cases hp : p = child
  · subst hp
    obtain ⟨hb,ha⟩ := adopt_born (s := s) s.current p
    exact .born rfl (hrest.signals.trans hb) (hrest.alive ha)
  · exact .same (same_trans (same_adopt p s.current hp) hrest)

theorem same_sent {proc : Word} (hproc : getProcessDescriptorFromPid pid s = some proc)
    (hs : sendSignal pid sig s = some s') : Same p (s.set proc (raiseSignal sig)) s' := by
  have hwoken : ∀ {q}, (tryToWakeUp q (some proc) (s.set proc (raiseSignal sig))).bind schedule =
      some s' → Same p (s.set proc (raiseSignal sig)) s' := by
    intro q hs
    obtain ⟨s₂,hs₂,hs⟩ := Option.bind_eq_some_iff.mp hs
    exact same_trans (same_wake hs₂) (same_schedule hs)
  rw [sendSignal, hproc] at hs
  dsimp only at hs
  split at hs
  · exact Option.some.inj hs ▸ same_refl p _
  · split at hs
    · exact hwoken hs
    · exact hwoken hs
    · exact hwoken hs
    · exact Option.some.inj hs ▸ same_refl p _
    · exact same_schedule hs

theorem signal_moves (hs : sendSignal pid sig s = some s') :
    Moves p s s' (.inl (.signal pid sig)) := by
  cases hproc : getProcessDescriptorFromPid pid s with
  | none =>
    rw [sendSignal, hproc] at hs
    exact .same (Option.some.inj hs ▸ same_refl p s)
  | some proc =>
    have hrest := same_sent p hproc hs
    obtain ⟨_,_,_,_,hstate,_⟩ := raiseSignal_still sig (s.pcbs proc)
    by_cases hp : p = proc
    · subst hp
      refine .raised hproc ?_ (fun ha => hrest.alive (alive_set p (fun _ => ?_) ha))
      · rw [hrest.signals, set_same]
      · rwa [Alive, hstate]
    · refine .same ⟨?_,fun ha => hrest.alive ?_⟩
      · rw [hrest.signals, set_other _ _ hp]
      · rwa [set_other _ _ hp]

theorem timer_moves {rounds : ℕ} (hs : pitIrq rounds frames s = some s') :
    Moves p s s' (.inl (.timer rounds frames)) := by
  obtain ⟨s₁,hs₁,hs⟩ := Option.bind_eq_some_iff.mp hs
  obtain ⟨hstill,hcur⟩ := sleepers_still hs₁
  have hfield : ∀ {α : Type} (g : Pcb → α), (∀ b, g (still b) = g b) →
      g (s₁.pcbs p) = g (s.pcbs p) := by
    intro α g hg
    rw [← hg, (hstill p).1, hg]
  -- the walk changes neither the signals of a process nor its family
  have hwalk : Same p s s₁ := ⟨hfield signals (fun _ => rfl),(hstill p).2⟩
  rw [pitSignal] at hs
  split at hs
  · rename_i hsig
    by_cases hp : p = s₁.current
    · have hself : ∀ {α : Type} (g : Pcb → α), (∀ b, g (still b) = g b) →
          g (signalled (s₁.pcbs p)) = g (s₁.pcbs p) →
          g ((s₁.set s₁.current signalled).pcbs s₁.current) = g (s.pcbs p) := by
        intro α g hg hsame
        rw [set_same, ← hp, hsame, hfield g hg]
      refine .taken (hcur ▸ hp.symm) ?_ ?_
      · intro hnone
        rw [← hwalk.signals, hp] at hnone
        rw [Prod.mk.inj hnone |>.1, Prod.mk.inj hnone |>.2] at hsig
        simp at hsig
      · intro hpid hpptr hcptr
        have hz := exit_zombie (s := s₁.set s₁.current signalled) hs
        rw [set_current, hself Pcb.pid (fun _ => rfl), hself Pcb.pptr (fun _ => rfl),
          hself Pcb.cptr (fun _ => rfl), ← hp] at hz
        · exact hz hpid hpptr hcptr
        all_goals exact signalled_same _ (fun _ _ => rfl) (fun _ _ => rfl) (fun _ _ => rfl) _
    · have hother : Same p s₁ (s₁.set s₁.current signalled) := by
        constructor
        all_goals rw [set_other _ _ hp]
        exact id
      exact .same (same_trans hwalk (same_trans hother ((exit_signals hs).2 hp)))
  · exact .same (same_trans hwalk (same_spend hs))

theorem step_moves {e : Event} (hs : step s e = some s') : Moves p s s' (.inl e) := by
  cases e with
  | schedule => exact .same (same_schedule (Option.ite_none_right_eq_some.mp hs).2)
  | fork child node => exact fork_moves p (Option.ite_none_right_eq_some.mp hs).2
  | wait =>
    obtain rfl := Option.some.inj (Option.ite_none_right_eq_some.mp hs).2
    rw [sysWait]
    split
    · exact .same (same_refl p s)
    · exact .same (same_set p rfl (fun _ => alive_normal rfl))
  | waitStep => exact .same (same_waitStep hs)
  | exit frames =>
    obtain ⟨hsig,hother⟩ := exit_signals (p := p) (Option.ite_none_right_eq_some.mp hs).2
    by_cases hp : p = s.current
    · exact .left hp.symm trivial hsig
    · exact .same (hother hp)
  | signal pid sig => exact signal_moves p (Option.ite_none_right_eq_some.mp hs).2
  | sleep seconds =>
    have hs := (Option.ite_none_right_eq_some.mp hs).2
    rw [sysSleepProcess] at hs
    split at hs
    · exact .same (Option.some.inj hs ▸ same_refl p s)
    · exact .same (same_trans (same_set p rfl (fun _ => alive_normal rfl)) (same_schedule hs))
  | block process =>
    have hs := (Option.ite_none_right_eq_some.mp hs).2
    cases process with
    | none => exact .same (Option.some.inj hs ▸ same_refl p s)
    | some r =>
      exact .same (same_trans (same_set p rfl (fun _ => alive_normal rfl)) (same_schedule hs))
  | timer rounds frames =>
    rw [step] at hs
    split at hs
    · cases hs
    · exact timer_moves p hs
  | timerRest =>
    rw [step] at hs
    split at hs
    · exact .same (same_trans (same_set p rfl id) (same_spend hs))
    · cases hs

theorem part_moves {a : Part} (hs : part s a = some s') : Moves p s s' (.inr a) := by
  cases a with
  | refill => exact .same (Option.some.inj hs ▸ same_set p rfl id)
  | dequeue => exact .same (same_kept (dequeue_kept hs))
  | pick => exact .same (Option.some.inj hs ▸ same_kept pick_kept)
  | adopt child =>
    obtain rfl := Option.some.inj hs
    by_cases hp : p = child
    · subst hp
      exact .born rfl (adopt_born s.current p).1 (adopt_born s.current p).2
    · exact .same (same_adopt p s.current hp)
  | enlist child node =>
    exact .same (Option.some.inj (Option.ite_none_right_eq_some.mp hs).2 ▸ ⟨rfl,id⟩)
  | enqueue child =>
    exact .same (same_kept (kept_relinked (add_relinked (Option.ite_none_right_eq_some.mp hs).2)))
  | flag child => exact .same (Option.some.inj hs ▸ same_set p rfl id)
  | bury frames =>
    by_cases hp : p = s.current
    · exact .left hp.symm trivial (bury_signals hs)
    · exact .same (same_bury hp hs)
  | notify => exact .same (same_wake hs)

theorem act_moves (hs : act s a = some s') : Moves p s s' a := by
  cases a with
  | inl e => exact step_moves p hs
  | inr a => exact part_moves p hs

end

def Somewhere (Q : System → Event ⊕ Part → Prop) (s : System) (as : List (Event ⊕ Part)) : Prop :=
  ∃ bs a cs t, as = bs++a::cs ∧ bs.foldlM act s = some t ∧ Q t a

variable {as : List (Event ⊕ Part)} {Q : System → Event ⊕ Part → Prop}

theorem somewhere_head (h : Q s a) : Somewhere Q s (a::as) :=
  ⟨[],a,as,s,rfl,rfl,h⟩

theorem somewhere_cons (hs : act s a = some s') (h : Somewhere Q s' as) :
    Somewhere Q s (a::as) := by
  obtain ⟨bs,b,cs,t,rfl,ht,hQ⟩ := h
  refine ⟨a::bs,b,cs,t,rfl,?_,hQ⟩
  rw [List.foldlM_cons, hs]
  exact ht

/-- The interrupt finds the process running and makes it exit. -/
def Kills (p : Word) (s : System) (a : Event ⊕ Part) : Prop :=
  s.current = p ∧ (∃ rounds frames, a = .inl (.timer rounds frames)) ∧
  ∃ s', act s a = some s' ∧
    ((s.pcbs p).pid ≠ 0 → (s.pcbs p).pptr ≠ some p → p ∉ (s.pcbs p).cptr →
      (s'.pcbs p).processState = .zombie ∧ (s'.pcbs p).threadState = .stopped)

theorem pending_run (hp : (s.pcbs p).isSigkillPending = true) (hnew : ∀ a ∈ as, ¬ Forks p a)
    (hrun : as.foldlM act s = some s') :
    (s'.pcbs p).isSigkillPending = true ∨ Somewhere (Kills p) s as := by
  induction as generalizing s with
  | nil => exact Or.inl (Option.some.inj hrun ▸ hp)
  | cons a as ih =>
    obtain ⟨s₁,hs₁,hrun⟩ := Option.bind_eq_some_iff.mp hrun
    have hlater : (s₁.pcbs p).isSigkillPending = true →
        (s'.pcbs p).isSigkillPending = true ∨ Somewhere (Kills p) s (a::as) := fun hp₁ =>
      (ih hp₁ (fun b hb => hnew b (List.mem_cons_of_mem a hb)) hrun).imp id (somewhere_cons hs₁)
    cases act_moves p hs₁ with
    | same h => exact hlater ((congrArg Prod.fst h.signals).trans hp)
    | born h _ _ => exact absurd h (hnew a List.mem_cons_self)
    | raised _ hs _ =>
      apply hlater ((congrArg Prod.fst hs).trans _)
      rw [raiseSignal]
      split_ifs
      · rfl
      all_goals exact hp
    | taken h _ hz => exact Or.inr (somewhere_head ⟨h,⟨_,_,rfl⟩,s₁,hs₁,hz⟩)
    | left _ _ hs => exact hlater ((congrArg Prod.fst hs).trans hp)

/-- A process that was sent signal 9 has it pending, whatever calls and parts of
calls follow, until an interrupt finds the process running and makes it exit. -/
theorem kill_not_lost {pid : BitVec 32} {p : Word} {s s₁ s' : System} {as : List (Event ⊕ Part)}
    (hp : getProcessDescriptorFromPid pid s = some p) (hs : step s (.signal pid 9) = some s₁)
    (hnew : ∀ a ∈ as, ¬ Forks p a) (hrun : as.foldlM act s₁ = some s') :
    (s'.pcbs p).isSigkillPending = true ∨ Somewhere (Kills p) s₁ as := by
  have hsent := (same_sent p hp (Option.ite_none_right_eq_some.mp hs).2).signals
  refine pending_run ((congrArg Prod.fst hsent).trans ?_) hnew hrun
  rw [set_same]
  rfl

def oneChild : System := (doFork 0x2000 node firstSystem).getD firstSystem

/-- The first thread lets its child run, and the timer comes. -/
def started : List (Event ⊕ Part) := [.inl .schedule,.inl (.timer 0 8)]

theorem kill_not_lost_child : ∃ s₁ s', getProcessDescriptorFromPid 1 oneChild = some 0x2000 ∧
    step oneChild (.signal 1 9) = some s₁ ∧ started.foldlM act s₁ = some s' ∧
    Somewhere (Kills 0x2000) s₁ started := by
  have hnew : ∀ a ∈ started, ¬ Forks 0x2000 a := by simp [started, Forks]
  have h := @kill_not_lost 1 0x2000 oneChild _ _ started rfl rfl hnew rfl
  exact ⟨_,_,rfl,rfl,rfl,h.resolve_left (by decide)⟩

def Ends (p : Word) (s : System) (a : Event ⊕ Part) : Prop :=
  s.current = p ∧ Exits a ∨
  ∃ pid sig, a = .inl (.signal pid sig) ∧ getProcessDescriptorFromPid pid s = some p ∧
    (sig = 9 ∨ sig = 11)

/-- Whatever calls and parts of calls there are, a process without a pending
signal ends only after it has called `sys_exit` itself or was sent a signal. -/
theorem ends_by_exit_or_signal {p : Word} {s s' : System} {as : List (Event ⊕ Part)}
    (ha : Alive (s.pcbs p)) (hc : signals (s.pcbs p) = (false,false))
    (hrun : as.foldlM act s = some s') (hd : ¬ Alive (s'.pcbs p)) : Somewhere (Ends p) s as := by
  induction as generalizing s with
  | nil => exact absurd (Option.some.inj hrun ▸ ha) hd
  | cons a as ih =>
    obtain ⟨s₁,hs₁,hrest⟩ := Option.bind_eq_some_iff.mp hrun
    cases act_moves p hs₁ with
    | same h => exact somewhere_cons hs₁ (ih (h.alive ha) (h.signals.trans hc) hrest)
    | born _ hs ha => exact somewhere_cons hs₁ (ih ha hs hrest)
    | @raised pid sig h hs ha' =>
      by_cases hsig : sig = 9 ∨ sig = 11
      · exact somewhere_head (Or.inr ⟨pid,sig,rfl,h,hsig⟩)
      · rw [not_or] at hsig
        rw [raiseSignal, if_neg hsig.1, if_neg hsig.2] at hs
        exact somewhere_cons hs₁ (ih (ha' ha) (hs.trans hc) hrest)
    | taken _ hs _ => exact absurd hc hs
    | left h he _ => exact somewhere_head (Or.inl ⟨h,he⟩)

theorem ends_by_exit_or_signal_child : ∃ s', ¬ Alive (s'.pcbs 0x2000) ∧
    (.inl (.signal 1 9)::started).foldlM act oneChild = some s' ∧
    Somewhere (Ends 0x2000) oneChild (.inl (.signal 1 9)::started) := by
  have hdead : ∃ s', (.inl (.signal 1 9)::started).foldlM act oneChild = some s' ∧
      ¬ Alive (s'.pcbs 0x2000) := ⟨_,rfl,fun h => h.1 rfl⟩
  obtain ⟨s',hs,hd⟩ := hdead
  exact ⟨s',hd,hs,ends_by_exit_or_signal (alive_normal rfl) rfl hs hd⟩

end PreemptiveOS.PendingSignals
