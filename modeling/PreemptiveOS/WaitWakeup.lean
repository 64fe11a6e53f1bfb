import PreemptiveOS.RoundRobin
import PreemptiveOS.WaitInvariant

/-!
# A wait and the exits it waits for

An exit before a wait has looked at all children finds the process in the run
queue; an exit after that wakes it. What breaks this is the timer, which takes a
marked process off the run queue before it has looked at all children, and a
child that is handed on, already exited, to a process that waits.
-/

set_option autoImplicit false

namespace PreemptiveOS.WaitWakeup
open ByteMemory LinkedQueues Scheduler SchedulerQueues ProcessTree QueueOrder SchedulerRuns
open WaitInvariant RoundRobin

variable {s s' : System} {p child : Word}

def SliceEnds (s : System) : Prop :=
  (s.pcbs s.current).timeSlice = 1 → InQueue s .run s.current →
    (s.pcbs s.current).threadState = .waiting → NoneExited s (s.pcbs s.current).cptr

def Punctual (s : System) : Event → Prop
  | .exit _ => (s.pcbs s.current).pid ≠ 0 → HandsOver s
  | .timer _ _ => if (s.pcbs s.current).isSigkillPending ∨ (s.pcbs s.current).isSigsegvPending then
      (s.pcbs s.current).pid ≠ 0 → HandsOver s
    else SliceEnds s
  | .timerRest => SliceEnds s
  | _ => True

variable {frames : ℕ}

section
variable {s : System} {lists : QueueType → List Word} (h : Orderly s lists) (ha : Awake s lists)
include h ha

theorem awake_exit (hq : (s.pcbs s.current).pid ≠ 0 → QuietExit s)
    (ho : (s.pcbs s.current).pid ≠ 0 → HandsOver s) (hs : sysExit frames s = some s') :
    ∃ lists', Orderly s' lists' ∧ Awake s' lists' := by
  by_cases hpid : (s.pcbs s.current).pid = 0
  · rw [sysExit, if_pos hpid] at hs
    obtain rfl := Option.some.inj hs
    exact ⟨lists,h,ha⟩
  · obtain ⟨hparked,hn,_⟩ := quietExit_lists h (hq hpid)
    obtain ⟨lists',h',hex⟩ := exit_exited h hpid hparked hn hs
    exact ⟨lists',h',awake_exited h ha hpid (hq hpid) (ho hpid) hex⟩

theorem awake_spend (hslice : SliceEnds s) (hs : spendSlice s = some s') :
    ∃ lists', Orderly s' lists' ∧ Awake s' lists' := by
  have h₁ : Orderly (s.set s.current (fun b => { b with timeSlice := b.timeSlice-1 })) lists :=
    orderly_set h s.current _ rfl rfl rfl rfl (Or.inr ⟨rfl,rfl⟩) id
  have ha₁ : Awake (s.set s.current (fun b => { b with timeSlice := b.timeSlice-1 })) lists :=
    awake_same ha s.current _ rfl rfl rfl rfl rfl (fun _ => id)
  have hfield : ∀ {α : Type} (g : Pcb → α), (∀ b v, g { b with timeSlice := v } = g b) → ∀ r,
      g ((s.set s.current (fun b => { b with timeSlice := b.timeSlice-1 })).pcbs r) = g (s.pcbs r) :=
    fun g hg => set_field g s s.current _ (hg _ _)
  rw [spendSlice] at hs
  split at hs
  · rename_i hzero
    rw [set_same] at hzero
    apply awake_schedule h₁ ha₁ _ hs
    intro hrun hwait c hc
    have hwait₀ := (hfield Pcb.threadState (fun _ _ => rfl) s.current).symm.trans hwait
    have hnone := hslice (sub_eq_zero.mp hzero) ((inQueue_iff h.sound _ _).mpr hrun) hwait₀
    have hc₀ : c ∈ (s.pcbs s.current).cptr := hfield Pcb.cptr (fun _ _ => rfl) s.current ▸ hc
    rw [hfield Pcb.processState (fun _ _ => rfl)]
    exact hnone c hc₀
  · obtain rfl := Option.some.inj hs
    exact ⟨lists,h₁,ha₁⟩

end

theorem handsOver_mono (s s' : System) (hcur : s'.current = s.current)
    (hn : notified s' = notified s) (hi : initTask s' = initTask s)
    (hcptr : (s'.pcbs s.current).cptr = (s.pcbs s.current).cptr)
    (hw : ∀ p, InQueue s' .waiting p → InQueue s .waiting p)
    (hz : ∀ c, (s'.pcbs c).processState = .zombie → (s.pcbs c).processState = .zombie)
    (ho : HandsOver s) : HandsOver s' := by
  rw [HandsOver, hcur, hn, hi, hcptr]
  exact ⟨ho.1,fun init hinit hin hne c hc hzc => ho.2 init hinit (hw init hin) hne c hc (hz c hzc)⟩

theorem sliceEnds_mono (s s' : System) (hcur : s'.current = s.current)
    (hslice : (s'.pcbs s.current).timeSlice = (s.pcbs s.current).timeSlice)
    (hcptr : (s'.pcbs s.current).cptr = (s.pcbs s.current).cptr)
    (hw : InQueue s' .run s.current → (s'.pcbs s.current).threadState = .waiting →
      InQueue s .run s.current ∧ (s.pcbs s.current).threadState = .waiting)
    (hz : ∀ c, (s'.pcbs c).processState = .zombie → (s.pcbs c).processState = .zombie)
    (he : SliceEnds s) : SliceEnds s' := by
  rw [SliceEnds, hcur, hslice, hcptr]
  intro hone hin hwait c hc hzc
  obtain ⟨hin₀,hwait₀⟩ := hw hin hwait
  exact he hone hin₀ hwait₀ c hc (hz c hzc)

section
variable {s : System} {lists : QueueType → List Word} (h : Orderly s lists) (ha : Awake s lists)
include ha

theorem signalled_awake : Awake (s.set s.current signalled) lists := by
  have hsame := fun {α : Type} (g : Pcb → α) hk hv hp => signalled_same g hk hv hp (s.pcbs s.current)
  apply awake_same ha
  · exact hsame Pcb.pid (fun _ _ => rfl) (fun _ _ => rfl) (fun _ _ => rfl)
  · exact hsame Pcb.pptr (fun _ _ => rfl) (fun _ _ => rfl) (fun _ _ => rfl)
  · exact hsame Pcb.cptr (fun _ _ => rfl) (fun _ _ => rfl) (fun _ _ => rfl)
  · exact hsame Pcb.processState (fun _ _ => rfl) (fun _ _ => rfl) (fun _ _ => rfl)
  · exact hsame Pcb.threadState (fun _ _ => rfl) (fun _ _ => rfl) (fun _ _ => rfl)
  · exact fun _ hl => hl

include h

theorem awake_timer (hq : Quiet s (.timer 0 0)) (hpu : Punctual s (.timer 0 0)) {rounds : ℕ}
    (hs : pitIrq rounds frames s = some s') : ∃ lists', Orderly s' lists' ∧ Awake s' lists' := by
  obtain ⟨s₁,lists₁,h₁,hw,hs⟩ := pitIrq_walked h hs
  have ha₁ := awake_walked h ha hw
  have hz : ∀ c, (s₁.pcbs c).processState = .zombie → (s.pcbs c).processState = .zombie := by
    intro c hzc
    rcases hw.states c with ⟨hps,_⟩ | ⟨_,hps,_⟩
    · exact hps ▸ hzc
    · rw [hps] at hzc
      cases hzc
  have hcptr := walked_field Pcb.cptr (fun _ => rfl) hw s.current
  have hpid := walked_current hw Pcb.pid (fun _ => rfl)
  rw [Punctual] at hpu
  rw [pitSignal, walked_current hw Pcb.isSigkillPending (fun _ => rfl),
    walked_current hw Pcb.isSigsegvPending (fun _ => rfl)] at hs
  split at hs
  · rename_i hpend
    rw [if_pos hpend] at hpu
    have hpids := fun r => signalled_field Pcb.pid (fun _ _ => rfl) (fun _ _ => rfl)
      (fun _ _ => rfl) s₁ r
    have hne : ((s₁.set s₁.current signalled).pcbs s₁.current).pid ≠ 0 →
        (s.pcbs s.current).pid ≠ 0 := fun hne he => hne ((hpids _).trans (hpid.trans he))
    apply awake_exit (signalled_orderly h₁) (signalled_awake ha₁) _ _ hs
    · exact fun hn => signalled_quietExit h₁ (quietExit_walked h h₁ hw (hq hpend (hne hn)))
    · intro hn
      have hover : HandsOver s₁ := by
        apply handsOver_mono s s₁ hw.current (notified_walked hw) _ hcptr _ hz (hpu (hne hn))
        · rw [initTask, initTask, hw.allproc]
        · intro p hin
          rw [inQueue_iff h₁.sound] at hin
          exact (inQueue_iff h.sound _ _).mpr (hw.others .waiting (by decide) p hin)
      apply handsOver_mono s₁ (s₁.set s₁.current signalled) rfl (signalled_notified s₁) rfl _ _ _
        hover
      · exact signalled_field Pcb.cptr (fun _ _ => rfl) (fun _ _ => rfl) (fun _ _ => rfl) s₁ _
      · intro p hin
        rw [inQueue_iff (signalled_orderly h₁).sound] at hin
        exact (inQueue_iff h₁.sound _ _).mpr hin
      · intro c hzc
        rwa [signalled_field Pcb.processState (fun _ _ => rfl) (fun _ _ => rfl)
          (fun _ _ => rfl)] at hzc
  · rename_i hpend
    rw [if_neg hpend] at hpu
    apply awake_spend h₁ ha₁ _ hs
    apply sliceEnds_mono s s₁ hw.current (hw.slices _) hcptr _ hz hpu
    intro hin hwait
    rcases hw.states s.current with ⟨_,hts⟩ | ⟨_,_,hts⟩
    · rw [hts] at hwait
      refine ⟨(inQueue_iff h.sound _ _).mpr ?_,hwait⟩
      rcases hw.run _ ((inQueue_iff h₁.sound _ _).mp hin) with hsl | hrun
      · rw [(h.sound.states .sleeping (by decide) _ hsl).2] at hwait
        cases hwait
      · exact hrun
    · rw [hts] at hwait
      cases hwait

theorem awake_signal (huser : (s.pcbs s.current).point = .user) {pid sig : BitVec 32}
    (hs : sendSignal pid sig s = some s') : ∃ lists', Orderly s' lists' ∧ Awake s' lists' := by
  -- the current process is in user mode and waits for nothing
  have hnot : ∀ (s₁ : System) lists₁, Awake s₁ lists₁ → s₁.current = s.current →
      (s₁.pcbs s.current).point = (s.pcbs s.current).point → s₁.current ∈ lists₁ .run →
      (s₁.pcbs s₁.current).threadState = .waiting →
      NoneExited s₁ (s₁.pcbs s₁.current).cptr := by
    intro s₁ lists₁ ha₁ hcur hpoint hrun hwait
    obtain ⟨_,_,hl⟩ := ha₁.looked _ hrun hwait
    rw [hcur, hpoint, huser] at hl
    exact hl.elim
  rcases signal_cases hs with rfl | ⟨proc,hproc,hcases⟩
  · exact ⟨lists,h,ha⟩
  obtain ⟨_,hpid,_,hpptr,hps,hts,hcptr,hpoint⟩ := raiseSignal_still sig (s.pcbs proc)
  have h₁ := raise_orderly h sig proc
  have ha₁ : Awake (s.set proc (raiseSignal sig)) lists :=
    awake_same ha proc _ hpid hpptr hcptr hps hts (fun _ hl => hpoint.symm ▸ hl)
  have hpoints := set_field Pcb.point s proc (raiseSignal sig) hpoint
  rcases hcases with rfl | hs | ⟨q,hq,hn,hwait,s₂,hs₂,hs⟩
  · exact ⟨lists,h₁,ha₁⟩
  · exact awake_schedule h₁ ha₁ (hnot _ _ ha₁ rfl (hpoints _)) hs
  · have hother : ∀ q', q' ≠ q → q' ≠ .run → proc ∉ lists q' := by
      intro q' hqq hqr hmem
      exact hqq (waitState_inj ((h.sound.states q' hqr proc hmem).2.symm.trans hwait))
    obtain ⟨h₂,hr⟩ := orderly_wake h₁ q hq proc (descriptor_made h.sound.registered hproc)
      hother s₂ hs₂
    have halive : Alive ((s.set proc (raiseSignal sig)).pcbs proc) := by
      rw [Alive, set_field Pcb.processState s proc (raiseSignal sig) hps]
      exact alive_normal hn
    have hlisted : s.allproc ≠ [] := by
      intro he
      rw [getProcessDescriptorFromPid, he] at hproc
      cases hproc
    have ha₂ := awake_woken ha₁ halive hr q hlisted
    apply awake_schedule h₂ ha₂ (hnot _ _ ha₂ hr.current _) hs
    rw [relinked_field Pcb.point (fun _ => rfl) hr]
    exact (set_field Pcb.point _ proc wokenPcb rfl _).trans (hpoints _)

end

section
variable {s : System} {lists : QueueType → List Word} (h : Orderly s lists) (ha : Awake s lists)

theorem reap_current (child : Word) : (doWaitThread child s).1.current = s.current := by
  rw [doWaitThread]
  split <;> rfl

theorem reap_field {α : Type} (g : Pcb → α) (hg : ∀ b v, g { b with processState := v } = g b)
    (child r : Word) : g ((doWaitThread child s).1.pcbs r) = g (s.pcbs r) := by
  rw [doWaitThread]
  split
  · exact set_field g s child (fun b => { b with processState := .dead }) (hg _ _) r
  · rfl

theorem reap_found
    (hz : (s.pcbs child).processState = .zombie → (s.pcbs child).threadState = .stopped) :
    ((doWaitThread child s).1.pcbs child).processState ≠ .zombie := by
  rw [doWaitThread]
  split
  · rw [set_same]
    simp
  · rename_i hnot
    exact fun he => hnot ⟨he,hz he⟩

include ha

theorem awake_reap (child : Word) : Awake (doWaitThread child s).1 lists := by
  rw [doWaitThread]
  split
  · rename_i hz
    apply awake_set ha child (fun b => { b with processState := .dead }) rfl rfl rfl
    · exact fun halive => absurd rfl halive.2
    · exact fun hzd => by cases hzd
    · intro _ hwait
      exact absurd (hz.2.symm.trans hwait) (by simp)
  · exact ha

include h

theorem awake_scan {i : ℕ} (hpoint : (s.pcbs s.current).point = .scanning i)
    (hchild : (s.pcbs s.current).cptr[i]? = some child) : Awake (scanChild i child s) lists := by
  have hr := reap_orderly h child
  have har := awake_reap ha child
  have hcur := reap_current (s := s) child
  have hcptr := reap_field (s := s) Pcb.cptr (fun _ _ => rfl) child s.current
  have hpointr := reap_field (s := s) Pcb.point (fun _ _ => rfl) child s.current
  obtain ⟨hi,hget⟩ := List.getElem?_eq_some_iff.mp hchild
  have hnext : s.current ∈ lists .run →
      Looked (doWaitThread child s).1 (s.pcbs s.current).cptr (s.pcbs s.current).point →
      NoneExited (doWaitThread child s).1 ((s.pcbs s.current).cptr.take (i+1)) := by
    intro hrun hl c hc
    have hmem : child ∈ s.made := by
      rcases ha.family with ⟨_,_,_,_,hq⟩ | hfam
      · rw [hq .run] at hrun
        exact absurd hrun List.not_mem_nil
      · exact (hfam _ h.sound.registered.current h.current child (List.mem_of_getElem? hchild)).1
    rw [List.take_add_one, hchild] at hc
    rcases List.mem_append.mp hc with hc | hc
    · rw [hpoint] at hl
      exact hl c hc
    · rw [List.mem_singleton.mp hc]
      exact reap_found (ha.stopped child hmem)
  rw [scanChild]
  split
  · apply awake_set har s.current _ rfl rfl rfl
    · exact fun _ => hcur ▸ hr.current
    · exact fun hz => by cases hz
    · exact fun _ hwait => by cases hwait
  · split
    · apply awake_same har s.current _ rfl rfl rfl rfl rfl
      rw [hcptr, hpointr]
      exact hnext
    · rename_i hlast
      rw [hcptr] at hlast
      apply awake_same har s.current _ rfl rfl rfl rfl rfl
      rw [hcptr, hpointr]
      intro hrun hl
      have hall := hnext hrun hl
      rwa [List.take_of_length_le (Nat.le_of_not_lt hlast)] at hall

theorem awake_waitStep (hq : ¬ Parked s s.current) (hs : waitStep s = some s') :
    ∃ lists', Orderly s' lists' ∧ Awake s' lists' := by
  rw [waitStep] at hs
  split at hs
  · obtain rfl := Option.some.inj hs
    refine ⟨lists,goOn_orderly h _,awake_same ha s.current _ rfl rfl rfl rfl rfl ?_⟩
    exact fun _ _ c hc => absurd hc List.not_mem_nil
  · rename_i i hpoint
    obtain ⟨child,hchild,rfl⟩ := Option.map_eq_some_iff.mp hs
    exact ⟨lists,scan_orderly h (unparked_lists h.sound hq) i child,
      awake_scan h ha hpoint hchild⟩
  · rename_i hpoint
    have ha₁ : Awake (s.set s.current (Pcb.goOn .marked)) lists :=
      awake_same ha s.current _ rfl rfl rfl rfl rfl (fun _ _ => trivial)
    apply awake_schedule (goOn_orderly h _) ha₁ _ hs
    intro hrun hwait c hc
    have hsame := fun {α : Type} (g : Pcb → α) hg => set_field g s s.current (Pcb.goOn .marked) hg
    have hl := (ha.looked s.current hrun
      ((hsame Pcb.threadState rfl s.current).symm.trans hwait)).2.2
    rw [hpoint] at hl
    rw [hsame Pcb.processState rfl]
    exact hl c (hsame Pcb.cptr rfl s.current ▸ hc)
  · cases hs

theorem awake_step {e : Event} (hq : Quiet s e) (hpu : Punctual s e) (hs : step s e = some s') :
    ∃ lists', Orderly s' lists' ∧ Awake s' lists' := by
  -- a call from user mode reaches the scheduler in a state that is no wait
  have hcall : ∀ s₁ s', Orderly s₁ lists → Awake s₁ lists → s₁.current = s.current →
      (s₁.pcbs s.current).point = .user → schedule s₁ = some s' →
      ∃ lists', Orderly s' lists' ∧ Awake s' lists' := by
    intro s₁ s' h₁ ha₁ hcur hpoint hs
    apply awake_schedule h₁ ha₁ _ hs
    intro hrun hwait
    obtain ⟨_,_,hl⟩ := ha₁.looked _ hrun hwait
    rw [hcur, hpoint] at hl
    exact hl.elim
  cases e with
  | schedule =>
    obtain ⟨huser,hs⟩ := Option.ite_none_right_eq_some.mp hs
    exact hcall s s' h ha rfl huser hs
  | fork child node =>
    obtain ⟨huser,hs⟩ := Option.ite_none_right_eq_some.mp hs
    exact awake_fork h ha hq.1 hq.2 huser hs
  | wait =>
    obtain ⟨_,hs⟩ := Option.ite_none_right_eq_some.mp hs
    obtain rfl := Option.some.inj hs
    rw [sysWait]
    split
    · exact ⟨lists,h,ha⟩
    · refine ⟨lists,orderly_set h _ _ rfl rfl rfl rfl
        (Or.inl (unparked_lists h.sound hq)) (fun _ => alive_normal rfl),?_⟩
      apply awake_set ha s.current _ rfl rfl rfl
      · exact fun _ => h.current
      · exact fun hz => by cases hz
      · exact fun _ _ => ⟨rfl,rfl,trivial⟩
  | waitStep => exact awake_waitStep h ha hq hs
  | exit frames =>
    obtain ⟨_,hs⟩ := Option.ite_none_right_eq_some.mp hs
    exact awake_exit h ha hq hpu hs
  | signal pid sig =>
    obtain ⟨huser,hs⟩ := Option.ite_none_right_eq_some.mp hs
    exact awake_signal h ha huser hs
  | sleep seconds =>
    obtain ⟨huser,hs⟩ := Option.ite_none_right_eq_some.mp hs
    rw [sysSleepProcess] at hs
    split at hs
    · obtain rfl := Option.some.inj hs
      exact ⟨lists,h,ha⟩
    · refine hcall _ s' (orderly_set h _ _ rfl rfl rfl rfl
        (Or.inl (unparked_lists h.sound hq)) (fun _ => alive_normal rfl)) ?_ rfl
        ((set_field Pcb.point s s.current _ rfl _).trans huser) hs
      apply awake_set ha s.current _ rfl rfl rfl
      · exact fun _ => h.current
      · exact fun hz => by cases hz
      · exact fun _ hwait => by cases hwait
  | block process =>
    obtain ⟨huser,hs⟩ := Option.ite_none_right_eq_some.mp hs
    cases process with
    | none =>
      obtain rfl := Option.some.inj hs
      exact ⟨lists,h,ha⟩
    | some p =>
      obtain ⟨_,halive,hparked⟩ := hq p rfl
      refine hcall _ s' (mark_orderly h (unparked_lists h.sound hparked)) ?_ rfl
        ((set_field Pcb.point s p _ rfl _).trans huser) hs
      apply awake_set ha p _ rfl rfl rfl
      · exact fun _ => halive
      · exact fun hz => by cases hz
      · exact fun _ hwait => by cases hwait
  | timer rounds frames =>
    rw [step] at hs
    split at hs
    · cases hs
    · exact awake_timer h ha hq hpu hs
  | timerRest =>
    rw [step] at hs
    split at hs
    · rename_i interrupted hpoint
      have hsame := fun {α : Type} (g : Pcb → α) hg =>
        set_field g s s.current (Pcb.goOn interrupted) hg
      refine awake_spend (goOn_orderly h interrupted)
        (awake_same ha s.current _ rfl rfl rfl rfl rfl ?_) ?_ hs
      · rw [hpoint]
        exact fun _ hl => hl
      · apply sliceEnds_mono s (s.set s.current (Pcb.goOn interrupted)) rfl
          (hsame Pcb.timeSlice rfl _) (hsame Pcb.cptr rfl _) _ _ hpu
        · rw [inQueue_iff (goOn_orderly h interrupted).sound, inQueue_iff h.sound,
            hsame Pcb.threadState rfl]
          exact fun hin hwait => ⟨hin,hwait⟩
        · intro c hz
          rwa [hsame Pcb.processState rfl] at hz
    · cases hs

end

theorem awake_init (memory : Word → Pcb) (idle : Word) :
    Awake (schedulerInit memory idle) (fun _ => []) := by
  have hpcb : (schedulerInit memory idle).pcbs idle = idlePcb idle (memory idle) :=
    Function.update_self _ _ _
  constructor
  case family => exact Or.inl ⟨idle,rfl,congrArg Pcb.pid hpcb,rfl,fun _ => rfl⟩
  case stopped =>
    intro c hc hz
    rw [List.mem_singleton.mp hc, hpcb] at hz
    cases hz
  case waiting => exact fun p hp => absurd hp List.not_mem_nil
  case looked => exact fun p hp => absurd hp List.not_mem_nil

def NoLostWakeup (s : System) : Prop :=
  ∀ p, InQueue s .waiting p → (s.pcbs p).onRq = false → NoneExited s (s.pcbs p).cptr

def RunPunctual : System → List Event → Prop
  | _, [] => True
  | s, e::es => Quiet s e ∧ Punctual s e ∧ ∀ s', step s e = some s' → RunPunctual s' es

theorem run_awake (es : List Event) (s s' : System) (lists : QueueType → List Word)
    (h : Orderly s lists) (ha : Awake s lists) (hp : RunPunctual s es) (hr : run s es = some s') :
    ∃ lists', Orderly s' lists' ∧ Awake s' lists' := by
  induction es generalizing s lists with
  | nil =>
    obtain rfl := Option.some.inj hr
    exact ⟨lists,h,ha⟩
  | cons e es ih =>
    obtain ⟨s₁,hs₁,hr⟩ := Option.bind_eq_some_iff.mp hr
    obtain ⟨lists₁,h₁,ha₁⟩ := awake_step h ha hp.1 hp.2.1 hs₁
    exact ih s₁ lists₁ h₁ ha₁ (hp.2.2 s₁ hs₁) hr

/-- No wakeup is lost in a run in which no slice ends between the mark of a wait and the look
at the last child, and no exited child is handed to a process that waits. -/
theorem wait_misses_no_exit (memory : Word → Pcb) (idle : Word) (es : List Event) (s : System)
    (hp : RunPunctual (schedulerInit memory idle) es)
    (hr : run (schedulerInit memory idle) es = some s) : NoLostWakeup s := by
  obtain ⟨lists,h,ha⟩ := run_awake es _ s _ (orderly_init memory idle) (awake_init memory idle) hp hr
  intro p hin _
  exact ha.waiting p ((inQueue_iff h.sound .waiting p).mp hin)

theorem run_early (n : ℕ) (s : System) (h : Undisturbed s)
    (hpoint : ∀ interrupted, (s.pcbs s.current).point ≠ .timerRest interrupted)
    (hn : n ≤ ((s.pcbs s.current).timeSlice-1).toNat) :
    run s (List.replicate n (.timer 0 0)) = some (spend n s) := by
  induction n generalizing s with
  | zero =>
    rw [spend_zero]
    rfl
  | succ n ih =>
    obtain ⟨hslice,hrest⟩ := early_slice hn
    have hstep : step s (.timer 0 0) = some (spend 1 s) := by
      rw [step]
      split
      · rename_i interrupted hp
        exact absurd hp (hpoint interrupted)
      · exact early_tick 0 0 h hslice
    rw [List.replicate_succ, run, hstep, Option.bind_some, ih _ (undisturbed_spend 1 h) _ hrest,
      spend_spend, Nat.add_comm]
    intro interrupted
    show ((spend 1 s).pcbs s.current).point ≠ _
    rw [spend, set_same]
    exact hpoint interrupted

theorem run_append (es es' : List Event) (s s' : System) (h : run s es = some s') :
    run s (es++es') = run s' es' := by
  induction es generalizing s with
  | nil =>
    obtain rfl := Option.some.inj h
    rfl
  | cons e es ih =>
    obtain ⟨s₁,hs₁,h⟩ := Option.bind_eq_some_iff.mp h
    rw [List.cons_append, run, hs₁, Option.bind_some]
    exact ih s₁ h

theorem run_snoc (es : List Event) (e : Event) (s s₁ s₂ : System) (h : run s es = some s₁)
    (he : step s₁ e = some s₂) : run s (es++[e]) = some s₂ := by
  rw [run_append es [e] s s₁ h, run, he]
  rfl

theorem run_shows {α : Type} {es : List Event} (h : run s es = some s') (g : System → α) (v : α)
    (hg : (run s es).map g = some v) : g s' = v := by
  rw [h] at hg
  exact Option.some.inj hg

def earlyExit : List Event :=
  [.fork 0x2000 node,.schedule,.fork 0x3000 node,.sleep 5,.sleep 5,.signal 1 0,.signal 2 0,.exit 8,
    .wait]

/-- The time slice of init ends right after the mark of its wait. -/
theorem timer_loses_wakeup : ∃ s,
    run firstSystem (earlyExit++List.replicate 999 (.timer 0 0)++[.timer 0 0]) = some s ∧
      ¬ NoLostWakeup s := by
  obtain ⟨s₀,hs₀⟩ := Option.isSome_iff_exists.mp
    (show (run firstSystem earlyExit).isSome from by decide +kernel)
  have hs₁ : run firstSystem (earlyExit++List.replicate 999 (.timer 0 0)) = some (spend 999 s₀) := by
    rw [run_append _ _ _ _ hs₀]
    apply run_early
    · constructor
      case sleeping =>
        exact run_shows hs₀ (fun s => s.processes .sleeping) none (by decide +kernel)
      case sigkill =>
        exact run_shows hs₀ (fun s => (s.pcbs s.current).isSigkillPending) false (by decide +kernel)
      case sigsegv =>
        exact run_shows hs₀ (fun s => (s.pcbs s.current).isSigsegvPending) false (by decide +kernel)
    · intro interrupted
      rw [run_shows hs₀ (fun s => (s.pcbs s.current).point) .marked (by decide +kernel)]
      exact fun he => by cases he
    · rw [run_shows hs₀ (fun s => (s.pcbs s.current).timeSlice) 1000 (by decide +kernel)]
      decide
  obtain ⟨s,hs⟩ := Option.isSome_iff_exists.mp (run_shows hs₀
    (fun s => (step (spend 999 s) (.timer 0 0)).isSome) true (by decide +kernel))
  refine ⟨s,run_snoc _ _ _ _ _ hs₁ hs,?_⟩
  have hshows : ∀ {α : Type} [DecidableEq α] (g : System → α) (v : α),
      (run firstSystem earlyExit).map (fun s => (step (spend 999 s) (.timer 0 0)).map g) =
        some (some v) → g s = v := by
    intro α _ g v hg
    have hmap := run_shows hs₀ _ _ hg
    rw [hs] at hmap
    exact Option.some.inj hmap
  intro h
  refine h 0x2000 ⟨[0x2000],⟨?_,?_⟩,List.mem_singleton_self _⟩ ?_ 0x3000 ?_ ?_
  · exact hshows (fun s => s.processes .waiting) _ (by decide +kernel)
  · exact hshows (fun s => s.next 0x2000) none (by decide +kernel)
  · exact hshows (fun s => (s.pcbs 0x2000).onRq) false (by decide +kernel)
  · rw [hshows (fun s => (s.pcbs 0x2000).cptr) [0x3000] (by decide +kernel)]
    exact List.mem_singleton_self _
  · exact hshows (fun s => (s.pcbs 0x3000).processState) .zombie (by decide +kernel)

def waitAndExit : List Event :=
  [.fork 0x2000 node,.schedule,.fork 0x3000 node,.wait,.timer 4 8,.waitStep,.waitStep,.waitStep,
    .exit 8]

theorem not_parked (l : List Word) (hw : Chain s.next (s.processes .waiting) l) (hp : p ∉ l)
    (hs : s.processes .sleeping = none) (hb : s.processes .blocked = none) : ¬ Parked s p := by
  rintro (hin | hin | hin)
  · exact not_inQueue s _ p l hw hp hin
  · exact not_inQueue s _ p [] hs List.not_mem_nil hin
  · exact not_inQueue s _ p [] hb List.not_mem_nil hin

theorem waitAndExit_punctual : RunPunctual firstSystem waitAndExit := by
  have hempty : ∀ es s p, run firstSystem es = some s → (run firstSystem es).map (fun s =>
      (s.processes .waiting,s.processes .sleeping,s.processes .blocked)) = some (none,none,none) →
      ¬ Parked s p := by
    intro es s p hs hnone
    have hqueues := run_shows hs (fun s => (s.processes .waiting,s.processes .sleeping,
      s.processes .blocked)) _ hnone
    obtain ⟨hw,hrest⟩ := Prod.mk.inj hqueues
    exact not_parked [] hw List.not_mem_nil (Prod.mk.inj hrest).1 (Prod.mk.inj hrest).2
  refine ⟨⟨by decide,by decide⟩,trivial,?_⟩
  intro s₁ h
  replace h := run_snoc [] _ _ _ _ rfl h
  refine ⟨trivial,trivial,?_⟩
  intro s₂ h₂
  replace h := run_snoc _ _ _ _ _ h h₂
  refine ⟨⟨?_,?_⟩,trivial,?_⟩
  · rw [run_shows h (fun s => s.made) [0x2000,0x1000] (by decide +kernel)]
    decide
  · rw [run_shows h (fun s => s.lastPid) 1 (by decide +kernel)]
    decide
  intro s₃ h₃
  replace h := run_snoc _ _ _ _ _ h h₃
  refine ⟨hempty _ _ _ h (by decide +kernel),trivial,?_⟩
  intro s₄ h₄
  replace h := run_snoc _ _ _ _ _ h h₄
  have hpending := run_shows h (fun s => decide ((s.pcbs s.current).isSigkillPending ∨
    (s.pcbs s.current).isSigsegvPending)) false (by decide +kernel)
  have hslice := run_shows h (fun s => (s.pcbs s.current).timeSlice) 1000 (by decide +kernel)
  refine ⟨fun hp => absurd hp (of_decide_eq_false hpending),?_,?_⟩
  · rw [Punctual, if_neg (of_decide_eq_false hpending)]
    intro hone
    exact absurd (hslice.symm.trans hone) (by decide)
  intro s₅ h₅
  replace h := run_snoc _ _ _ _ _ h h₅
  refine ⟨hempty _ _ _ h (by decide +kernel),trivial,?_⟩
  intro s₆ h₆
  replace h := run_snoc _ _ _ _ _ h h₆
  refine ⟨hempty _ _ _ h (by decide +kernel),trivial,?_⟩
  intro s₇ h₇
  replace h := run_snoc _ _ _ _ _ h h₇
  refine ⟨hempty _ _ _ h (by decide +kernel),trivial,?_⟩
  intro s₈ h₈
  replace h := run_snoc _ _ _ _ _ h h₈
  have hsleeping := run_shows h (fun s => s.processes .sleeping) none (by decide +kernel)
  have hblocked := run_shows h (fun s => s.processes .blocked) none (by decide +kernel)
  have hcurrent := run_shows h (fun s => s.current) 0x3000 (by decide +kernel)
  have hnotified := run_shows h notified (some 0x2000) (by decide +kernel)
  refine ⟨fun _ => ⟨?_,?_⟩,fun _ => ⟨?_,?_⟩,fun _ _ => trivial⟩
  · rw [hcurrent]
    refine not_parked [0x2000] ⟨?_,?_⟩ (by decide) hsleeping hblocked
    · exact run_shows h (fun s => s.processes .waiting) _ (by decide +kernel)
    · exact run_shows h (fun s => s.next 0x2000) none (by decide +kernel)
  · intro p hp
    obtain rfl := Option.some.inj (hnotified.symm.trans hp)
    refine ⟨alive_normal ?_,not_inQueue _ _ _ [] hsleeping List.not_mem_nil,
      not_inQueue _ _ _ [] hblocked List.not_mem_nil⟩
    exact run_shows h (fun s => (s.pcbs 0x2000).processState) .normal (by decide +kernel)
  · rw [hnotified, hcurrent]
    decide
  · intro init _ _ _ c hc
    rw [run_shows h (fun s => (s.pcbs s.current).cptr) [] (by decide +kernel)] at hc
    exact absurd hc List.not_mem_nil

/-- The timer comes right after the mark of init's wait, and its child exits. -/
theorem wait_misses_no_exit_init : ∃ s, run firstSystem waitAndExit = some s ∧ NoLostWakeup s ∧
    (s.pcbs 0x3000).processState = .zombie ∧ s.current = 0x2000 := by
  obtain ⟨s,hs⟩ := Option.isSome_iff_exists.mp
    (show (run firstSystem waitAndExit).isSome from by decide +kernel)
  refine ⟨s,hs,?_,?_,?_⟩
  · exact wait_misses_no_exit (fun _ => childPcb 0 0) 0x1000 waitAndExit s waitAndExit_punctual hs
  · exact run_shows hs (fun s => (s.pcbs 0x3000).processState) _ (by decide +kernel)
  · exact run_shows hs (fun s => s.current) _ (by decide +kernel)

end PreemptiveOS.WaitWakeup
