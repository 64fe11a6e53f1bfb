import PreemptiveOS.SchedulerRuns

/-!
# Waiting processes and their children

A process that waits is marked first, looks at its children one after the
other, and leaves the run queue only then. Whoever has left the run queue to
wait has no exited child, and whoever is still looking has none among those it
has looked at.
-/

set_option autoImplicit false

namespace PreemptiveOS.WaitInvariant
open ByteMemory Vmas LinkedQueues Scheduler SchedulerQueues ProcessTree QueueOrder SchedulerRuns

def NoneExited (s : System) (children : List Word) : Prop :=
  ∀ c ∈ children, (s.pcbs c).processState ≠ .zombie

def Looked (s : System) (children : List Word) : Point → Prop
  | .user => False
  | .marked => True
  | .scanning i => NoneExited s (children.take i)
  | .scanned => NoneExited s children
  | .timerRest interrupted => Looked s children interrupted

variable {s s' : System}

theorem looked_mono {children : List Word} {point : Point}
    (hz : ∀ c, (s'.pcbs c).processState = .zombie → (s.pcbs c).processState = .zombie)
    (h : Looked s children point) : Looked s' children point := by
  induction point with
  | user => exact h
  | marked => trivial
  | scanning i => exact fun c hc he => h c hc (hz c he)
  | scanned => exact fun c hc he => h c hc (hz c he)
  | timerRest interrupted ih => exact ih h

structure Awake (s : System) (lists : QueueType → List Word) : Prop where
  family : (∃ idle, s.made = [idle] ∧ (s.pcbs idle).pid = 0 ∧ s.allproc = [] ∧ ∀ q, lists q = []) ∨
    ∀ p ∈ s.made, Alive (s.pcbs p) → ∀ c ∈ (s.pcbs p).cptr, c ∈ s.made ∧ (s.pcbs c).pptr = some p
  stopped : ∀ c ∈ s.made, (s.pcbs c).processState = .zombie → (s.pcbs c).threadState = .stopped
  waiting : ∀ p ∈ lists .waiting, NoneExited s (s.pcbs p).cptr
  looked : ∀ p ∈ lists .run, (s.pcbs p).threadState = .waiting →
    p = s.current ∧ (s.pcbs p).processState = .normal ∧ Looked s (s.pcbs p).cptr (s.pcbs p).point

structure Calm (s s' : System) (lists lists' : QueueType → List Word) : Prop where
  made : s'.made = s.made
  allproc : s'.allproc = s.allproc
  pid : ∀ p, (s'.pcbs p).pid = (s.pcbs p).pid
  pptr : ∀ p, (s'.pcbs p).pptr = (s.pcbs p).pptr
  cptr : ∀ p, (s'.pcbs p).cptr = (s.pcbs p).cptr
  alive : ∀ p ∈ s.made, Alive (s'.pcbs p) → Alive (s.pcbs p)
  zombie : ∀ p, (s'.pcbs p).processState = .zombie →
    (s.pcbs p).processState = .zombie ∧ (s'.pcbs p).threadState = (s.pcbs p).threadState
  unqueued : s.allproc = [] → (∀ q, lists q = []) → ∀ q, lists' q = []
  waiting : ∀ p ∈ lists' .waiting, p ∈ lists .waiting ∨ NoneExited s (s.pcbs p).cptr

variable {lists' : QueueType → List Word}

theorem calm_awake {lists : QueueType → List Word} (ha : Awake s lists)
    (hc : Calm s s' lists lists')
    (hl : ∀ p ∈ lists' .run, (s'.pcbs p).threadState = .waiting → p = s'.current ∧
      (s'.pcbs p).processState = .normal ∧ Looked s (s.pcbs p).cptr (s'.pcbs p).point) :
    Awake s' lists' := by
  have hz := fun c hz => (hc.zombie c hz).1
  constructor
  case family =>
    rcases ha.family with ⟨idle,hm,hpid,hall,hq⟩ | hfam
    · exact Or.inl ⟨idle,hc.made.trans hm,(hc.pid idle).trans hpid,hc.allproc.trans hall,
        hc.unqueued hall hq⟩
    · right
      intro p hp halive c hcp
      rw [hc.made] at hp ⊢
      rw [hc.cptr] at hcp
      rw [hc.pptr]
      exact hfam p hp (hc.alive p hp halive) c hcp
  case stopped =>
    intro c hcm hzc
    rw [hc.made] at hcm
    rw [(hc.zombie c hzc).2]
    exact ha.stopped c hcm (hz c hzc)
  case waiting =>
    intro p hp
    rw [hc.cptr]
    have hnone : NoneExited s (s.pcbs p).cptr := (hc.waiting p hp).elim (ha.waiting p) id
    exact fun c hcp hzc => hnone c hcp (hz c hzc)
  case looked =>
    intro p hp hts
    obtain ⟨hcur,hps,hlook⟩ := hl p hp hts
    rw [hc.cptr]
    exact ⟨hcur,hps,looked_mono hz hlook⟩

theorem stay_unqueued (lists lists' : QueueType → List Word)
    (h : ∀ q p, p ∈ lists' q → Member lists p) (hq : ∀ q, lists q = []) (q : QueueType) :
    lists' q = [] := by
  apply List.eq_nil_iff_forall_not_mem.mpr
  intro p hp
  obtain ⟨q',hp'⟩ := h q p hp
  rw [hq q'] at hp'
  exact List.not_mem_nil hp'

variable {child p : Word}

section
variable {s : System} {lists : QueueType → List Word} (h : Orderly s lists) (ha : Awake s lists)
include ha

theorem awake_set (p : Word) (f : Pcb → Pcb) (hpid : (f (s.pcbs p)).pid = (s.pcbs p).pid)
    (hpptr : (f (s.pcbs p)).pptr = (s.pcbs p).pptr) (hcptr : (f (s.pcbs p)).cptr = (s.pcbs p).cptr)
    (halive : Alive (f (s.pcbs p)) → Alive (s.pcbs p))
    (hz : (f (s.pcbs p)).processState = .zombie → (s.pcbs p).processState = .zombie ∧
      (f (s.pcbs p)).threadState = (s.pcbs p).threadState)
    (hl : p ∈ lists .run → (f (s.pcbs p)).threadState = .waiting → p = s.current ∧
      (f (s.pcbs p)).processState = .normal ∧ Looked s (s.pcbs p).cptr (f (s.pcbs p)).point) :
    Awake (s.set p f) lists := by
  apply calm_awake ha
  · constructor
    case pid => exact set_field Pcb.pid s p f hpid
    case pptr => exact set_field Pcb.pptr s p f hpptr
    case cptr => exact set_field Pcb.cptr s p f hcptr
    case alive =>
      intro r _ har
      by_cases hrp : r = p
      · subst hrp
        rw [set_same] at har
        exact halive har
      · rwa [set_other _ _ hrp] at har
    case zombie =>
      intro r hzr
      by_cases hrp : r = p
      · subst hrp
        rw [set_same] at hzr ⊢
        exact hz hzr
      · rw [set_other _ _ hrp] at hzr ⊢
        exact ⟨hzr,rfl⟩
    case unqueued => exact fun _ hq => hq
    case waiting => exact fun r hr => Or.inl hr
    all_goals rfl
  · intro r hr hts
    by_cases hrp : r = p
    · subst hrp
      rw [set_same] at hts ⊢
      exact hl hr hts
    · rw [set_other _ _ hrp] at hts ⊢
      exact ha.looked r hr hts

theorem awake_same (p : Word) (f : Pcb → Pcb) (hpid : (f (s.pcbs p)).pid = (s.pcbs p).pid)
    (hpptr : (f (s.pcbs p)).pptr = (s.pcbs p).pptr) (hcptr : (f (s.pcbs p)).cptr = (s.pcbs p).cptr)
    (hps : (f (s.pcbs p)).processState = (s.pcbs p).processState)
    (hts : (f (s.pcbs p)).threadState = (s.pcbs p).threadState)
    (hpoint : p ∈ lists .run → Looked s (s.pcbs p).cptr (s.pcbs p).point →
      Looked s (s.pcbs p).cptr (f (s.pcbs p)).point) : Awake (s.set p f) lists := by
  apply awake_set ha p f hpid hpptr hcptr
  · intro halive
    rwa [Alive, hps] at halive
  · exact fun hz => ⟨hps ▸ hz,hts⟩
  · intro hp hw
    obtain ⟨hcur,hn,hl⟩ := ha.looked p hp (hts ▸ hw)
    exact ⟨hcur,hps.trans hn,hpoint hp hl⟩

theorem awake_woken (halive : Alive (s.pcbs p)) (hr : Relinked (s.set p wokenPcb) s')
    (q : QueueType) (hlisted : s.allproc ≠ []) : Awake s' (wokenLists lists q p) := by
  have h₁ : Awake (s.set p wokenPcb) lists := awake_set ha p wokenPcb rfl rfl rfl (fun _ => halive)
    (fun hz => by cases hz) (fun _ hts => by cases hts)
  have hrun : ((s.set p wokenPcb).pcbs p).threadState = .running := by
    rw [set_same]
    rfl
  have hall : (s.set p wokenPcb).allproc = s.allproc := rfl
  have hcurrent : (s.set p wokenPcb).current = s.current := rfl
  generalize s.set p wokenPcb = s₁ at *
  have hfield := fun {α : Type} (g : Pcb → α) hg => relinked_field g hg hr
  apply calm_awake h₁
  · constructor
    case made => exact hr.made
    case allproc => exact hr.allproc
    case pid => exact hfield Pcb.pid (fun _ => rfl)
    case pptr => exact hfield Pcb.pptr (fun _ => rfl)
    case cptr => exact hfield Pcb.cptr (fun _ => rfl)
    case alive =>
      intro r _ har
      rwa [Alive, hfield Pcb.processState (fun _ => rfl)] at har
    case zombie =>
      intro r hz
      rw [hfield Pcb.processState (fun _ => rfl)] at hz
      exact ⟨hz,hfield Pcb.threadState (fun _ => rfl) r⟩
    case unqueued => exact fun he => absurd (hall.symm.trans he) hlisted
    case waiting => exact fun r hrw => Or.inl (woken_other lists q .waiting p r (by decide) hrw)
  · intro r hrr hts
    rw [hfield Pcb.threadState (fun _ => rfl)] at hts
    rcases (woken_run lists q p r).mp hrr with rfl | hrr
    · rw [hrun] at hts
      cases hts
    · obtain ⟨hcur,hps,hl⟩ := h₁.looked r hrr hts
      rw [hr.current, hfield Pcb.processState (fun _ => rfl), hfield Pcb.point (fun _ => rfl)]
      exact ⟨hcur,hps,hl⟩

include h

theorem awake_schedule
    (hcur : s.current ∈ lists .run →
      (s.pcbs s.current).threadState = .waiting → NoneExited s (s.pcbs s.current).cptr)
    (hs : schedule s = some s') : ∃ lists', Orderly s' lists' ∧ Awake s' lists' := by
  obtain ⟨lists',h',hsch⟩ := orderly_schedule h hs
  have hfield := fun {α : Type} (g : Pcb → α) hg => kept_field g hg hsch.kept
  have hps := hfield Pcb.processState (fun _ => rfl)
  have hts := hfield Pcb.threadState (fun _ => rfl)
  refine ⟨lists',h',calm_awake ha ?_ ?_⟩
  · constructor
    case made => exact hsch.kept.made
    case allproc => exact hsch.kept.allproc
    case pid => exact hfield Pcb.pid (fun _ => rfl)
    case pptr => exact hfield Pcb.pptr (fun _ => rfl)
    case cptr => exact hfield Pcb.cptr (fun _ => rfl)
    case alive =>
      intro r _ har
      rwa [Alive, hps] at har
    case zombie => exact fun r hz => ⟨(hps r) ▸ hz,hts r⟩
    case unqueued =>
      intro _
      apply stay_unqueued
      intro q p hp
      by_cases hqr : q = .run
      · subst hqr
        exact ⟨.run,hsch.run p hp⟩
      · exact (hsch.others q hqr p hp).elim (fun hold => ⟨q,hold⟩) (fun hr => ⟨.run,hr.2⟩)
    case waiting =>
      intro p hp
      rcases hsch.others .waiting (by decide) p hp with hold | ⟨rfl,hrun⟩
      · exact Or.inl hold
      · right
        apply hcur hrun
        rw [← hts]
        exact (h'.sound.states .waiting (by decide) _ hp).2
  · intro p hp hw
    rw [hts] at hw
    obtain ⟨rfl,hn,_⟩ := ha.looked p (hsch.run p hp) hw
    exact absurd ⟨hn,hw⟩ ((hsch.stays hp).2 .waiting (by decide))

theorem awake_walked (hw : Walked s s' lists lists') : Awake s' lists' := by
  have hfield := fun {α : Type} (g : Pcb → α) hg => walked_field g hg hw
  apply calm_awake ha
  · constructor
    case made => exact hw.made
    case allproc => exact hw.allproc
    case pid => exact hfield Pcb.pid (fun _ => rfl)
    case pptr => exact hfield Pcb.pptr (fun _ => rfl)
    case cptr => exact hfield Pcb.cptr (fun _ => rfl)
    case alive => exact fun r _ => (walked_alive h hw r).mp
    case zombie =>
      intro r hz
      rcases hw.states r with ⟨hps,hts⟩ | ⟨_,hps,_⟩
      · exact ⟨hps ▸ hz,hts⟩
      · rw [hps] at hz
        cases hz
    case unqueued =>
      intro _
      apply stay_unqueued
      intro q p hp
      by_cases hqr : q = .run
      · subst hqr
        exact (hw.run p hp).elim (fun hs => ⟨.sleeping,hs⟩) (fun hr => ⟨.run,hr⟩)
      · exact ⟨q,hw.others q hqr p hp⟩
    case waiting => exact fun p hp => Or.inl (hw.others .waiting (by decide) p hp)
  · intro p hp hwait
    rcases hw.states p with ⟨hps,hts⟩ | ⟨_,_,hts⟩
    · rw [hts] at hwait
      have hrun : p ∈ lists .run := by
        rcases hw.run p hp with hs | hr
        · rw [(h.sound.states .sleeping (by decide) p hs).2] at hwait
          cases hwait
        · exact hr
      obtain ⟨hcur,hn,hl⟩ := ha.looked p hrun hwait
      rw [hw.current, hps, hfield Pcb.point (fun _ => rfl)]
      exact ⟨hcur,hn,hl⟩
    · rw [hts] at hwait
      cases hwait

theorem awake_fork {node : Option KernelPtr} (hnew : child ∉ s.made)
    (hroom : s.lastPid.toNat+1 < 2^16) (huser : (s.pcbs s.current).point = .user)
    (hs : doFork child node s = some s') : ∃ lists', Orderly s' lists' ∧ Awake s' lists' := by
  obtain ⟨lists',h',hk,hcur,hrun,hothers⟩ := fork_orderly h hnew hroom hs
  refine ⟨lists',h',?_⟩
  have hreg := h.sound.registered
  have hmade : s'.made = child::s.made := hk.made
  have hkept : ∀ {α : Type} (g : Pcb → α), (∀ b, g (Pcb.core b) = g b) → ∀ r,
      g (s'.pcbs r) = g ((adopt s.current child s).pcbs r) :=
    fun g hg r => kept_field g hg hk r
  have hps : ∀ r ∈ s.made, (s'.pcbs r).processState = (s.pcbs r).processState := fun r hr =>
    (hkept Pcb.processState (fun _ => rfl) r).trans
      (adopt_made s.current child hnew Pcb.processState (fun _ _ => rfl) r hr)
  have hts : ∀ r ∈ s.made, (s'.pcbs r).threadState = (s.pcbs r).threadState := fun r hr =>
    (hkept Pcb.threadState (fun _ => rfl) r).trans
      (adopt_made s.current child hnew Pcb.threadState (fun _ _ => rfl) r hr)
  have hchild : (s'.pcbs child).processState = .normal ∧ (s'.pcbs child).threadState = .running := by
    rw [hkept Pcb.processState (fun _ => rfl), hkept Pcb.threadState (fun _ => rfl), adopt_new]
    exact ⟨rfl,rfl⟩
  have hfam := children_of_others _ s.current hreg.current ha.family
  constructor
  case family =>
    right
    intro p hp halive c hc
    rw [hmade] at hp ⊢
    rw [Alive, hkept Pcb.processState (fun _ => rfl)] at halive
    rw [hkept Pcb.cptr (fun _ => rfl)] at hc
    rw [hkept Pcb.pptr (fun _ => rfl)]
    exact adopt_children s.current child hnew hfam p hp halive c hc
  case stopped =>
    intro c hc hz
    rw [hmade] at hc
    rcases List.mem_cons.mp hc with rfl | hcm
    · rw [hchild.1] at hz
      cases hz
    · rw [hps c hcm] at hz
      rw [hts c hcm]
      exact ha.stopped c hcm hz
  case waiting =>
    intro p hp c hc
    rw [hothers .waiting (by decide)] at hp
    have hpm := h.sound.threaded.members .waiting p hp
    rw [hkept Pcb.cptr (fun _ => rfl), adopt_cptr s.current child hnew p hpm] at hc
    split at hc
    · rw [List.mem_singleton.mp hc, hchild.1]
      simp
    · rename_i hpc
      have halive := alive_normal (h.sound.states .waiting (by decide) p hp).1
      rw [hps c (hfam p hpm hpc halive c hc).1]
      exact ha.waiting p hp c hc
  case looked =>
    intro p hp hwait
    rcases hrun p hp with hpr | rfl
    · rw [hts p (h.sound.threaded.members .run p hpr)] at hwait
      obtain ⟨rfl,_,hl⟩ := ha.looked p hpr hwait
      rw [huser] at hl
      exact hl.elim
    · rw [hchild.2] at hwait
      cases hwait

def HandsOver (s : System) : Prop :=
  notified s ≠ some s.current ∧ ∀ init, initTask s = some init → InQueue s .waiting init →
    notified s ≠ some init → NoneExited s (s.pcbs s.current).cptr

theorem awake_exited (hpid : (s.pcbs s.current).pid ≠ 0) (hq : QuietExit s) (ho : HandsOver s)
    (hex : Exited s s' lists lists') : Awake s' lists' := by
  obtain ⟨s₁,hb,hmade,hall,hstill⟩ := hex.family
  obtain ⟨hparked,_,hnalive⟩ := quietExit_lists h hq
  have hcm := h.sound.registered.current
  have hm : s'.made = s.made := hmade.trans hb.made
  have hfield : ∀ {α : Type} (g : Pcb → α), (∀ b, g (still b) = g b) → ∀ r,
      g (s'.pcbs r) = g (s₁.pcbs r) := by
    intro α g hg r
    rw [← hg, hstill r, hg]
  have hself := hex.self ho.1
  have hfam := children_of_exit (fun _ hr => hr.1) s.current hcm hpid ha.family
  -- no other process than the current one has exited
  have hz : ∀ c, (s'.pcbs c).processState = .zombie → c ≠ s.current →
      (s.pcbs c).processState = .zombie ∧ (s'.pcbs c).threadState = (s.pcbs c).threadState := by
    intro c hzc hcc
    by_cases hn : notified s = some c
    · rw [(hex.woken c hn).1] at hzc
      cases hzc
    · rw [(hex.others c hcc hn).1] at hzc
      exact ⟨hzc,(hex.others c hcc hn).2⟩
  have hown : s.current ∈ (s.pcbs s.current).cptr → (s.pcbs s.current).pptr = some s.current :=
    fun hc => (hfam _ hcm h.current _ hc).2
  constructor
  case family =>
    right
    intro p hp halive c hc
    rw [hm] at hp ⊢
    have hpc : p ≠ s.current := by
      rintro rfl
      exact halive.1 hself.1
    have halive₀ : Alive (s.pcbs p) := by
      by_cases hn : notified s = some p
      · exact hnalive p hn
      · rwa [Alive, (hex.others p hpc hn).1] at halive
    rw [hfield Pcb.cptr (fun _ => rfl)] at hc
    rw [hfield Pcb.pptr (fun _ => rfl)]
    exact buried_children hb hcm h.current hfam hp hpc halive₀ hc
  case stopped =>
    intro c hc hzc
    rw [hm] at hc
    by_cases hcc : c = s.current
    · rw [hcc]
      exact hself.2
    · obtain ⟨hz₀,hts⟩ := hz c hzc hcc
      rw [hts]
      exact ha.stopped c hc hz₀
  case waiting =>
    intro p hp c hc hzc
    obtain ⟨hpw,hpn⟩ := hex.parked .waiting (by decide) p hp
    have hpm := h.sound.threaded.members .waiting p hpw
    have halive := alive_normal (h.sound.states .waiting (by decide) p hpw).1
    have hpc : p ≠ s.current := fun he => hparked .waiting (by decide) (he ▸ hpw)
    obtain ⟨l,hl,hcptr,hmoved⟩ := hb.cptr p
    rw [hfield Pcb.cptr (fun _ => rfl), hcptr] at hc
    rcases List.mem_append.mp hc with hc | hc
    · by_cases hcc : c = s.current
      · -- the parent in whose list the current process is would have been woken
        have hpp := (hfam p hpm halive c hc).2
        rw [hcc] at hpp
        apply hpn
        rw [notified, if_neg]
        · exact hpp
        · exact fun hin => hpc (Option.some.inj (hpp.symm.trans (hown hin)))
      · exact ha.waiting p hpw c hc (hz c hzc hcc).1
    · have hinit := (hmoved (List.ne_nil_of_mem hc)).1
      by_cases hcc : c = s.current
      · apply hpn
        rw [notified, if_pos (hcc ▸ hl c hc)]
        exact hinit
      · exact ho.2 p hinit ((inQueue_iff h.sound .waiting p).mpr hpw) hpn c (hl c hc)
          (hz c hzc hcc).1
  case looked =>
    intro p hp hwait
    by_cases hn : notified s = some p
    · rw [(hex.woken p hn).2] at hwait
      cases hwait
    · by_cases hpc : p = s.current
      · rw [hpc, hself.2] at hwait
        cases hwait
      · rw [(hex.others p hpc hn).2] at hwait
        exact absurd (ha.looked p ((hex.run p hp).resolve_right hn) hwait).1 hpc

end

end PreemptiveOS.WaitInvariant
