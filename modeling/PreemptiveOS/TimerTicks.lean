import PreemptiveOS.QueueOperations

/-!
# The timer interrupt and the sleepers

The handler of the timer goes through the sleeping queue. It counts the sleepers
down and wakes those that have come to zero, and it never writes the counter
that `sys_sleep` waits on. A woken process is the head of the run queue when its
link is read, so that the walk goes on in the run queue and counts down or marks
the processes it finds there, and the sleepers behind are left out.
-/

set_option autoImplicit false

namespace PreemptiveOS.TimerTicks
open ByteMemory LinkedQueues Scheduler SchedulerQueues QueueOperations

structure Clock where
  system : System
  ticks : BitVec 32

def i86PitIrq (rounds frames : ℕ) (c : Clock) : Option Clock :=
  (pitIrq rounds frames c.system).map (fun s => { c with system := s })

def timerTicks (c : Clock) (seconds : Word) : BitVec 32 := c.ticks+(seconds*1000).setWidth 32

def waits (c : Clock) (target : BitVec 32) : Bool := c.ticks < target

def irqs (rounds frames : ℕ) : ℕ → Clock → Option Clock
  | 0, c => some c
  | n+1, c => (i86PitIrq rounds frames c).bind (irqs rounds frames n)

structure Served (s s' : System) (lists lists' : QueueType → List Word) : Prop where
  queues : Threaded s' lists'
  woken : ∀ p ∈ lists .sleeping, (s.pcbs p).sleepTime = 0 →
    p ∈ lists' .run ∧ p ∉ lists' .sleeping
  counted : ∀ p ∈ lists .sleeping, (s.pcbs p).sleepTime ≠ 0 →
    (s'.pcbs p).sleepTime = (s.pcbs p).sleepTime-1
  others : ∀ p ∈ s.made, p ∉ lists .sleeping →
    (s'.pcbs p).processState = (s.pcbs p).processState ∧
    (s'.pcbs p).threadState = (s.pcbs p).threadState ∧
    (s'.pcbs p).sleepTime = (s.pcbs p).sleepTime

/-- A sleeper whose time is not over sleeps on. -/
structure SleptOn (s s' : System) (lists lists' : QueueType → List Word) : Prop
    extends Served s s' lists lists' where
  asleep : ∀ p ∈ lists .sleeping, (s.pcbs p).sleepTime ≠ 0 →
    p ∈ lists' .sleeping ∧ p ∉ lists' .run ∧
    (s'.pcbs p).processState = .normal ∧ (s'.pcbs p).threadState = .sleeping

structure TickExact (c c' : Clock) (lists lists' : QueueType → List Word) : Prop where
  ticked : c'.ticks = c.ticks+1
  served : Served c.system c'.system lists lists'

variable {c' : Clock} {frames rounds : ℕ}

theorem irq_ticks {c : Clock} (h : i86PitIrq rounds frames c = some c') : c'.ticks = c.ticks := by
  obtain ⟨s,_,rfl⟩ := Option.map_eq_some_iff.mp h
  rfl

/-- No tick is exact, whatever is in the queues: the counter stays. -/
theorem tick_never_exact (frames : ℕ) (c : Clock) (lists : QueueType → List Word) :
    ¬ ∃ rounds c' lists', i86PitIrq rounds frames c = some c' ∧ TickExact c c' lists lists' := by
  rintro ⟨rounds,c',lists',hc,hexact⟩
  have hsame := irq_ticks hc
  have hnext := hexact.ticked
  rw [hsame] at hnext
  have hone : (1 : BitVec 32) = 0 := left_eq_add.mp hnext
  exact absurd hone (by decide)

def twoSleepers : Clock where
  system := {
    pcbs := fun p => { childPcb 0 (p.setWidth 16) with
      onRq := decide (p = 1)
      sleepTime := if p = 3 then 5 else 0
      nextInQueue := if p = 2 then some 3 else none
      threadState := if p = 1 then .running else .sleeping }
    made := [3,2,1,0]
    processes := fun q => match q with
      | .run => some 1
      | .sleeping => some 2
      | _ => none
    current := 1
    idleTask := 0
    allproc := []
    lastPid := 3 }
  ticks := 0

/-- The tick is not counted, and the second sleeper not either. -/
theorem tick_misses_sleeper : ∃ c', i86PitIrq 3 0 twoSleepers = some c' ∧
    c'.ticks = twoSleepers.ticks ∧
    (c'.system.pcbs 3).sleepTime = (twoSleepers.system.pcbs 3).sleepTime ∧
    ∀ lists lists', 3 ∈ lists .sleeping → ¬ TickExact twoSleepers c' lists lists' := by
  obtain ⟨c',hc',hsleeps⟩ : ∃ c', i86PitIrq 3 0 twoSleepers = some c' ∧
      (c'.system.pcbs 3).sleepTime = 5 := ⟨_,rfl,by decide⟩
  refine ⟨c',hc',irq_ticks hc',hsleeps,?_⟩
  intro lists lists' hmem hexact
  have hcount := hexact.served.counted 3 hmem (by decide)
  rw [hsleeps] at hcount
  exact absurd hcount (by decide)

variable {n : ℕ}

theorem irqs_ticks (c : Clock) (h : irqs rounds frames n c = some c') : c'.ticks = c.ticks := by
  induction n generalizing c with
  | zero =>
    obtain rfl := Option.some.inj h
    rfl
  | succ n ih =>
    obtain ⟨c₁,hc₁,hrest⟩ := Option.bind_eq_some_iff.mp h
    rw [ih c₁ hrest, irq_ticks hc₁]

/-- A process that has to wait in `sys_sleep` waits for ever. -/
theorem sleep_waits_forever (rounds frames n : ℕ) (c c' : Clock) (seconds : Word)
    (hwait : waits c (timerTicks c seconds) = true) (h : irqs rounds frames n c = some c') :
    waits c' (timerTicks c seconds) = true := by
  rw [waits, irqs_ticks c h]
  exact hwait

def passed (b : Pcb) : Pcb :=
  if b.sleepTime = 0 then b.mark .normal .running else { b with sleepTime := b.sleepTime-1 }

variable {b : Pcb}

theorem passed_counted (h : b.sleepTime ≠ 0) :
    passed b = { b with sleepTime := b.sleepTime-1 } := if_neg h

theorem passed_same_iff : ((passed b).processState = b.processState ∧
    (passed b).threadState = b.threadState ∧ (passed b).sleepTime = b.sleepTime) ↔
      b.sleepTime = 0 ∧ b.processState = .normal ∧ b.threadState = .running := by
  by_cases hzero : b.sleepTime = 0
  · simp [passed, Pcb.mark, hzero, eq_comm]
  · have hne : b.sleepTime-1 ≠ b.sleepTime := by bv_omega
    rw [passed, if_neg hzero]
    exact iff_of_false (fun h => hne h.2.2) (fun h => hzero h.1)

def passAll : List Word → System → System
  | [], s => s
  | p::l, s => passAll l (s.set p passed)

theorem passed_field {α : Type} {g : Pcb → α} (hmark : ∀ b, g (b.mark .normal .running) = g b)
    (hcount : ∀ b : Pcb, g { b with sleepTime := b.sleepTime-1 } = g b) : g (passed b) = g b := by
  rw [passed]
  split_ifs
  · exact hmark b
  · exact hcount b

theorem passAll_made (l : List Word) (s : System) : (passAll l s).made = s.made := by
  induction l generalizing s with
  | nil => rfl
  | cons p l ih => exact ih _

variable {l : List Word} {r : Word}

theorem passAll_outside (s : System) (hr : r ∉ l) : (passAll l s).pcbs r = s.pcbs r := by
  induction l generalizing s with
  | nil => rfl
  | cons p l ih =>
    rw [List.mem_cons, not_or] at hr
    rw [passAll, ih _ hr.2, set_other _ _ hr.1]

theorem passAll_inside (s : System) (hn : l.Nodup) (hr : r ∈ l) :
    (passAll l s).pcbs r = passed (s.pcbs r) := by
  induction l generalizing s with
  | nil => cases hr
  | cons p l ih =>
    obtain ⟨hp,hn⟩ := List.nodup_cons.mp hn
    rw [passAll]
    rcases List.mem_cons.mp hr with rfl | hr
    · rw [passAll_outside _ hp, set_same]
    · have hne : r ≠ p := fun he => hp (he ▸ hr)
      rw [ih _ hn hr, set_other _ _ hne]

theorem passed_next (s : System) (p : Word) : (s.set p passed).next = s.next :=
  set_next (passed_field (fun _ => rfl) (fun _ => rfl))

theorem threaded_passAll (l : List Word) (s : System) (lists : QueueType → List Word)
    (h : Threaded s lists) : Threaded (passAll l s) lists := by
  induction l generalizing s with
  | nil => exact h
  | cons p l ih =>
    exact ih _ (threaded_set h p passed
      (passed_field (fun _ => rfl) (fun _ => rfl))
      (passed_field (fun _ => rfl) (fun _ => rfl)))

theorem wakeSleepers_none (n : ℕ) (s : System) : wakeSleepers n none s = some s := by
  cases n <;> rfl

theorem wakeSleepers_more (k : ℕ) (head : Option Word) (s : System) {s' : System}
    (h : wakeSleepers n head s = some s') : wakeSleepers (n+k) head s = some s' := by
  induction n generalizing head s with
  | zero =>
    cases head with
    | none => rwa [wakeSleepers_none] at h ⊢
    | some p => cases h
  | succ n ih =>
    cases head with
    | none => rwa [wakeSleepers_none] at h ⊢
    | some p =>
      rw [Nat.succ_add]
      rw [wakeSleepers] at h ⊢
      split_ifs at h ⊢
      · obtain ⟨s₁,hs₁,hrest⟩ := Option.bind_eq_some_iff.mp h
        rw [hs₁]
        exact ih _ _ hrest
      · exact ih _ _ h

theorem walk_waiting (n : ℕ) (l rest : List Word) (s : System) (head : Option Word)
    (hc : Chain s.next head (l++rest)) (hn : l.Nodup)
    (hpos : ∀ p ∈ l, (s.pcbs p).sleepTime ≠ 0) :
    wakeSleepers (n+l.length) head s = wakeSleepers n rest.head? (passAll l s) := by
  induction l generalizing s head with
  | nil => rw [passAll, chain_head _ _ _ hc]; rfl
  | cons p l ih =>
    obtain ⟨hp,hn⟩ := List.nodup_cons.mp hn
    have hpass : s.set p (fun b => { b with sleepTime := b.sleepTime-1 }) = s.set p passed :=
      set_congr s p _ _ (by rw [passed, if_neg (hpos p List.mem_cons_self)])
    rw [List.length_cons, ← Nat.add_assoc, show head = some p from hc.1, wakeSleepers,
      if_neg (hpos p List.mem_cons_self), passAll]
    dsimp only
    rw [hpass, passed_next]
    apply ih
    · rw [passed_next]
      exact hc.2
    · exact hn
    · intro r hr
      have hne : r ≠ p := fun he => hp (he ▸ hr)
      rw [set_other _ _ hne]
      exact hpos r (List.mem_cons_of_mem _ hr)

variable {lists : QueueType → List Word}

theorem wake_queued {s : System} (h : Threaded s lists) (hm : r ∈ s.made)
    (hon : (s.pcbs r).onRq = true) (hnot : r ∉ lists .sleeping) (hzero : (s.pcbs r).sleepTime = 0) :
    tryToWakeUp .sleeping (some r) s =
      if (lists .sleeping).length ≤ 1 then some (s.set r passed) else none := by
  have hpass : s.set r (Pcb.mark .normal .running) = s.set r passed :=
    set_congr s r _ _ (by rw [passed, if_pos hzero])
  have hthr : Threaded (s.set r (Pcb.mark .normal .running)) lists :=
    threaded_set h r _ rfl rfl
  have hpids : ∀ a ∈ lists .sleeping, pidOf (s.set r (Pcb.mark .normal .running)) a ≠
      pidOf (s.set r (Pcb.mark .normal .running)) r := by
    intro a ha he
    have har := hthr.pids a (hthr.members _ a ha) r hm he
    exact hnot (har ▸ ha)
  rw [tryToWakeUp, remove_absent (threaded_holds hthr .sleeping) hpids]
  split_ifs
  · rw [Option.map_some, set_same, hpass]
    exact congrArg some (if_pos hon)
  · rfl

theorem walk_run (n : ℕ) (s : System) (h : Threaded s lists) (head : Option Word)
    (hc : Chain s.next head l) (hn : l.Nodup)
    (hon : ∀ r ∈ l, r ∈ s.made ∧ (s.pcbs r).onRq = true ∧ r ∉ lists .sleeping) :
    (∀ s', wakeSleepers n head s = some s' → s' = passAll l s) ∧
    ((lists .sleeping).length ≤ 1 → l.length ≤ n →
      wakeSleepers n head s = some (passAll l s)) := by
  induction l generalizing n s head with
  | nil =>
    rw [show head = none from hc, wakeSleepers_none]
    exact ⟨fun s' hs => (Option.some.inj hs).symm,fun _ _ => rfl⟩
  | cons r l ih =>
    obtain ⟨hr,hn⟩ := List.nodup_cons.mp hn
    obtain ⟨hm,hflag,hnot⟩ := hon r List.mem_cons_self
    rw [show head = some r from hc.1]
    cases n with
    | zero => exact ⟨fun s' hs => (by cases hs),fun _ hlen => (by simp at hlen)⟩
    | succ n =>
      have hthr : Threaded (s.set r passed) lists := threaded_passAll [r] s lists h
      obtain ⟨hsome,htotal⟩ := ih n (s.set r passed) hthr (s.next r) (by
        rw [passed_next]
        exact hc.2) hn (by
        intro a ha
        have hne : a ≠ r := fun he => hr (he ▸ ha)
        obtain ⟨ham,haon,hanot⟩ := hon a (List.mem_cons_of_mem _ ha)
        rw [set_other _ _ hne]
        exact ⟨ham,haon,hanot⟩)
      rw [wakeSleepers, passAll, List.length_cons, Nat.succ_le_succ_iff]
      by_cases hzero : (s.pcbs r).sleepTime = 0
      · rw [if_pos hzero, wake_queued h hm hflag hnot hzero]
        by_cases hfew : (lists .sleeping).length ≤ 1
        · rw [if_pos hfew, Option.bind_some, passed_next]
          exact ⟨hsome,htotal⟩
        · rw [if_neg hfew]
          exact ⟨fun s' hs => (by cases hs),fun hlen => absurd hlen hfew⟩
      · have hpass : s.set r (fun b => { b with sleepTime := b.sleepTime-1 }) = s.set r passed :=
          set_congr s r _ _ (by rw [passed, if_neg hzero])
        rw [if_neg hzero]
        dsimp only
        rw [hpass, passed_next]
        exact ⟨hsome,htotal⟩

theorem sound_waiting (s : System) (h : Sound s lists) (hn : l.Nodup)
    (hpos : ∀ p ∈ l, (s.pcbs p).sleepTime ≠ 0) : Sound (passAll l s) lists := by
  induction l generalizing s with
  | nil => exact h
  | cons p l ih =>
    obtain ⟨hp,hn⟩ := List.nodup_cons.mp hn
    have hpass : passed (s.pcbs p) = { s.pcbs p with sleepTime := (s.pcbs p).sleepTime-1 } := by
      rw [passed, if_neg (hpos p List.mem_cons_self)]
    apply ih _ _ hn
    · intro r hr
      have hne : r ≠ p := fun he => hp (he ▸ hr)
      rw [set_other _ _ hne]
      exact hpos r (List.mem_cons_of_mem _ hr)
    · apply sound_set h <;> rw [hpass]
      · exact Or.inr ⟨rfl,rfl⟩
      · rintro rfl
        exact h.registered.idleAlive

theorem mem_take_two {init : List Word} (rest : List Word) {p : Word} (hp : p ∉ init) :
    p ∈ (init++p::rest).take 2 ↔ init.length ≤ 1 := by
  match init with
  | [] => simp
  | [a] => simp
  | a::b::init =>
    simp only [List.mem_cons, not_or] at hp
    simp [hp.1, hp.2.1]

section
variable {s : System} {lists : QueueType → List Word} (h : Sound s lists)
  {init rest : List Word} {p : Word} (hl : lists .sleeping = init++p::rest)
  (hpos : ∀ a ∈ init, (s.pcbs a).sleepTime ≠ 0)
include h hl hpos

omit hpos in
theorem sleepers_nodup : (init++p::rest).Nodup := hl ▸ h.threaded.linked.nodup .sleeping

theorem before_sound : Sound (passAll init s) lists :=
  sound_waiting s h (sleepers_nodup h hl).of_append_left hpos

omit hpos in
theorem sleeper_found : p ∉ init ∧ p ∉ rest ∧ p ∈ s.made ∧ p ∉ lists .run := by
  obtain ⟨_,hright,hcross⟩ := List.nodup_append.mp (sleepers_nodup h hl)
  have hp : p ∈ lists .sleeping := by simp [hl]
  refine ⟨fun hi => hcross p hi p List.mem_cons_self rfl,(List.nodup_cons.mp hright).1,
    h.threaded.members .sleeping p hp,?_⟩
  intro hrun
  exact absurd (h.threaded.linked.disjoint _ _ p hp hrun) (by decide)

theorem wake_some_iff : (∃ s₂, tryToWakeUp .sleeping (some p) (passAll init s) = some s₂) ↔
    init.length ≤ 1 := by
  obtain ⟨hinit,_,hm,_⟩ := sleeper_found h hl
  have hthr := threaded_set (before_sound h hl hpos).threaded p (Pcb.mark .normal .running) rfl rfl
  have hh := threaded_holds hthr .sleeping
  rw [hl] at hh
  rw [tryToWakeUp, ← mem_take_two rest hinit]
  have hnear := near_iff p hh.pids
  rw [← remove_some_iff hh p] at hnear
  simp only [Option.map_eq_some_iff]
  constructor
  · rintro ⟨_,s₁,hs₁,_⟩
    rcases hnear.mpr ⟨⟨s₁,hs₁⟩,Or.inl (by simp)⟩ with htake | ⟨_,hall⟩
    · exact htake
    · exact absurd rfl (hall p (by simp))
  · intro htake
    obtain ⟨⟨s₁,hs₁⟩,_⟩ := hnear.mp (Or.inl htake)
    exact ⟨_,s₁,hs₁,rfl⟩

structure Woken (s s₂ : System) (lists : QueueType → List Word) (init rest : List Word)
    (p : Word) : Prop where
  threaded : Threaded s₂ (wokenLists lists .sleeping p)
  sleeping : wokenLists lists .sleeping p .sleeping = init++rest
  run : wokenLists lists .sleeping p .run = p::lists .run
  flags : ∀ r ∈ lists .run, (s₂.pcbs r).onRq = true
  made : s₂.made = s.made
  counted : ∀ a ∈ init, (s₂.pcbs a).link none = (passed (s.pcbs a)).link none
  others : ∀ r, r ≠ p → r ∉ init → (s₂.pcbs r).link none = (s.pcbs r).link none

theorem wake_woken {s₂ : System}
    (hs : tryToWakeUp .sleeping (some p) (passAll init s) = some s₂) :
    Woken s s₂ lists init rest p := by
  obtain ⟨hinit,_,hm,hrun⟩ := sleeper_found h hl
  have hnodup := sleepers_nodup h hl
  have h₁ := before_sound h hl hpos
  have hother : ∀ q', q' ≠ QueueType.sleeping → q' ≠ QueueType.run → p ∉ lists q' := by
    intro q' hq _ hpq
    exact hq (h.threaded.linked.disjoint q' .sleeping p hpq (by simp [hl]))
  obtain ⟨h₂,hr⟩ := wake_sound h₁ .sleeping (by decide) p (by rwa [passAll_made]) hother s₂ hs
  have hcore : ∀ r, r ≠ p → (s₂.pcbs r).link none = ((passAll init s).pcbs r).link none := by
    intro r hrp
    rw [hr.pcbs r, set_other _ _ hrp]
  have hrunlist : wokenLists lists .sleeping p .run = p::lists .run := by
    rw [wokenLists, if_neg hrun, Function.update_self]
  constructor
  case threaded => exact h₂.threaded
  case sleeping =>
    rw [wokenLists, if_neg hrun, Function.update_of_ne (by decide), Function.update_self, hl,
      List.erase_append_right _ hinit, List.erase_cons_head]
  case run => exact hrunlist
  case flags =>
    intro r hrl
    have hmem : r ∈ wokenLists lists .sleeping p .run := by simp [hrunlist, hrl]
    exact (h₂.flags r (h₂.threaded.members _ r hmem)).mpr hmem
  case made => rw [hr.made, set_made, passAll_made]
  case counted =>
    intro a ha
    have hne : a ≠ p := fun he => hinit (he ▸ ha)
    rw [← passAll_inside s hnodup.of_append_left ha]
    exact hcore a hne
  case others =>
    intro r hrp hri
    rw [hcore r hrp, passAll_outside s hri]

/-- The whole walk, which goes on in the run queue behind the woken process. -/
theorem walk_woken (hzero : (s.pcbs p).sleepTime = 0) :
    (∀ n s', wakeSleepers n (s.processes .sleeping) s = some s' →
      ∃ s₂, Woken s s₂ lists init rest p ∧ init.length ≤ 1 ∧ s' = passAll (lists .run) s₂) ∧
    ((init++rest).length ≤ 1 → init.length ≤ 1 → ∃ n s₂, Woken s s₂ lists init rest p ∧
      wakeSleepers n (s.processes .sleeping) s = some (passAll (lists .run) s₂)) := by
  obtain ⟨hinit,_,_,_⟩ := sleeper_found h hl
  have hc := h.threaded.linked.chain .sleeping
  rw [hl] at hc
  have hwalk := fun n => walk_waiting (n+1) init (p::rest) s _ hc
    (sleepers_nodup h hl).of_append_left hpos
  have hstill : ((passAll init s).pcbs p).sleepTime = 0 := by rwa [passAll_outside s hinit]
  simp only [List.head?_cons, wakeSleepers, hstill, if_true] at hwalk
  have hrun : ∀ s₂, Woken s s₂ lists init rest p → ∀ n,
      (∀ s', wakeSleepers n (s₂.next p) s₂ = some s' → s' = passAll (lists .run) s₂) ∧
      ((init++rest).length ≤ 1 → (lists .run).length ≤ n →
        wakeSleepers n (s₂.next p) s₂ = some (passAll (lists .run) s₂)) := by
    intro s₂ hw n
    have hchain := hw.threaded.linked.chain .run
    rw [hw.run] at hchain
    rw [← hw.sleeping]
    apply walk_run n s₂ hw.threaded _ hchain.2 (h.threaded.linked.nodup .run)
    intro r hr
    refine ⟨hw.made ▸ h.threaded.members .run r hr,hw.flags r hr,?_⟩
    intro hsleep
    have hmem : r ∈ wokenLists lists .sleeping p .run := by simp [hw.run, hr]
    exact absurd (hw.threaded.linked.disjoint _ _ r hsleep hmem) (by decide)
  constructor
  · intro n s' hs
    have hmore := wakeSleepers_more (1+init.length) _ _ hs
    rw [← Nat.add_assoc, hwalk n] at hmore
    obtain ⟨s₂,hs₂,hrest⟩ := Option.bind_eq_some_iff.mp hmore
    have hw := wake_woken h hl hpos hs₂
    exact ⟨s₂,hw,(wake_some_iff h hl hpos).mp ⟨s₂,hs₂⟩,(hrun s₂ hw n).1 s' hrest⟩
  · intro hfew hlen
    obtain ⟨s₂,hs₂⟩ := (wake_some_iff h hl hpos).mpr hlen
    have hw := wake_woken h hl hpos hs₂
    refine ⟨(lists .run).length+1+init.length,s₂,hw,?_⟩
    rw [hwalk, hs₂]
    exact (hrun s₂ hw _).2 hfew le_rfl

end

/-- No sleeper's time is over; or only that of the last one is, it is the first
or the second, and the processes of the run queue are as a wake-up leaves them. -/
def Servable (s : System) (lists : QueueType → List Word) : Prop :=
  (∀ p ∈ lists .sleeping, (s.pcbs p).sleepTime ≠ 0) ∨
  ∃ init last, lists .sleeping = init++[last] ∧ init.length ≤ 1 ∧
    (∀ p ∈ init, (s.pcbs p).sleepTime ≠ 0) ∧ (s.pcbs last).sleepTime = 0 ∧
    ∀ r ∈ lists .run, (s.pcbs r).sleepTime = 0 ∧ (s.pcbs r).processState = .normal ∧
      (s.pcbs r).threadState = .running

section
variable {s : System} {lists : QueueType → List Word} (h : Sound s lists)
include h

theorem run_awake (r : Word) (hr : r ∈ lists .run) : r ∉ lists .sleeping := fun hs =>
  absurd (h.threaded.linked.disjoint _ _ r hr hs) (by decide)

theorem served_waiting (hpos : ∀ p ∈ lists .sleeping, (s.pcbs p).sleepTime ≠ 0) :
    SleptOn s (passAll (lists .sleeping) s) lists lists := by
  have hn := h.threaded.linked.nodup .sleeping
  constructor
  case toServed =>
    constructor
    case queues => exact threaded_passAll _ _ _ h.threaded
    case woken => exact fun p hp hzero => absurd hzero (hpos p hp)
    case counted =>
      intro p hp hne
      rw [passAll_inside s hn hp, passed_counted hne]
    case others =>
      intro p _ hp
      rw [passAll_outside s hp]
      exact ⟨rfl,rfl,rfl⟩
  case asleep =>
    intro p hp hne
    rw [passAll_inside s hn hp, passed_counted hne]
    exact ⟨hp,fun hr => run_awake h p hr hp,h.states .sleeping (by decide) p hp⟩

variable {init rest : List Word} {p : Word} (hl : lists .sleeping = init++p::rest) {s₂ : System}
  (hw : Woken s s₂ lists init rest p)
include hl hw

omit h hl in
theorem woken_same (hrp : r ≠ p) (hri : r ∉ init) :
    (s₂.pcbs r).processState = (s.pcbs r).processState ∧
    (s₂.pcbs r).threadState = (s.pcbs r).threadState ∧
    (s₂.pcbs r).sleepTime = (s.pcbs r).sleepTime := by
  have hps := congrArg Pcb.processState (hw.others r hrp hri)
  have hts := congrArg Pcb.threadState (hw.others r hrp hri)
  have hst := congrArg Pcb.sleepTime (hw.others r hrp hri)
  exact ⟨hps,hts,hst⟩

omit h in
theorem awake_same (r : Word) (hr : r ∉ lists .sleeping) :
    (s₂.pcbs r).processState = (s.pcbs r).processState ∧
    (s₂.pcbs r).threadState = (s.pcbs r).threadState ∧
    (s₂.pcbs r).sleepTime = (s.pcbs r).sleepTime :=
  woken_same hw (fun he => hr (by simp [hl, he])) (fun hi => hr (by simp [hl, hi]))

theorem run_same_iff (hr : r ∈ lists .run) :
    (((passAll (lists .run) s₂).pcbs r).processState = (s.pcbs r).processState ∧
      ((passAll (lists .run) s₂).pcbs r).threadState = (s.pcbs r).threadState ∧
      ((passAll (lists .run) s₂).pcbs r).sleepTime = (s.pcbs r).sleepTime) ↔
    (s.pcbs r).sleepTime = 0 ∧ (s.pcbs r).processState = .normal ∧
      (s.pcbs r).threadState = .running := by
  obtain ⟨hps,hts,hst⟩ := awake_same hl hw r (run_awake h r hr)
  rw [passAll_inside s₂ (h.threaded.linked.nodup .run) hr, ← hps, ← hts, ← hst]
  exact passed_same_iff

theorem served_rest {lists' : QueueType → List Word}
    (hserved : Served s (passAll (lists .run) s₂) lists lists') : rest = [] := by
  obtain ⟨_,hrestp,_,_⟩ := sleeper_found h hl
  have hthr := threaded_passAll (lists .run) s₂ _ hw.threaded
  have hsame : lists' .run = wokenLists lists .sleeping p .run :=
    chain_unique _ _ _ _ (hserved.queues.linked.chain .run) (hthr.linked.chain .run)
  rw [List.eq_nil_iff_forall_not_mem]
  intro a ha
  have hal : a ∈ lists .sleeping := by simp [hl, ha]
  have harun : a ∉ lists .run := fun hr => run_awake h a hr hal
  have hap : a ≠ p := fun he => hrestp (he ▸ ha)
  have hai : a ∉ init := fun hi =>
    (List.nodup_append.mp (sleepers_nodup h hl)).2.2 a hi a (List.mem_cons_of_mem _ ha) rfl
  by_cases htime : (s.pcbs a).sleepTime = 0
  · have hmoved := (hserved.woken a hal htime).1
    rw [hsame, hw.run] at hmoved
    exact (List.mem_cons.mp hmoved).elim hap harun
  · have hcount := hserved.counted a hal htime
    rw [passAll_outside s₂ harun, (woken_same hw hap hai).2.2] at hcount
    bv_omega

variable (hpos : ∀ a ∈ init, (s.pcbs a).sleepTime ≠ 0) (hzero : (s.pcbs p).sleepTime = 0)
include hpos hzero

theorem served_ready (hrest : rest = []) (hready : ∀ r ∈ lists .run, (s.pcbs r).sleepTime = 0 ∧
      (s.pcbs r).processState = .normal ∧ (s.pcbs r).threadState = .running) :
    SleptOn s (passAll (lists .run) s₂) lists (wokenLists lists .sleeping p) := by
  subst hrest
  have hsplit : ∀ a ∈ lists .sleeping, (s.pcbs a).sleepTime ≠ 0 → a ∈ init ∧
      ((passAll (lists .run) s₂).pcbs a).link none =
        { s.pcbs a with sleepTime := (s.pcbs a).sleepTime-1, nextInQueue := none } := by
    intro a ha htime
    have harun : a ∉ lists .run := fun hr => run_awake h a hr ha
    rw [hl] at ha
    rcases List.mem_append.mp ha with hi | hi
    · rw [passAll_outside s₂ harun, hw.counted a hi, passed_counted htime]
      exact ⟨hi,rfl⟩
    · rw [List.mem_singleton.mp hi] at htime
      exact absurd hzero htime
  constructor
  case toServed =>
    constructor
    case queues => exact threaded_passAll (lists .run) s₂ _ hw.threaded
    case woken =>
      intro a ha htime
      rw [hl] at ha
      rcases List.mem_append.mp ha with hi | hi
      · exact absurd htime (hpos a hi)
      · rw [List.mem_singleton.mp hi, hw.run, hw.sleeping, List.append_nil]
        exact ⟨List.mem_cons_self,(sleeper_found h hl).1⟩
    case counted =>
      intro a ha htime
      have hcount := congrArg Pcb.sleepTime (hsplit a ha htime).2
      exact hcount
    case others =>
      intro r _ hr
      by_cases hrl : r ∈ lists .run
      · exact (run_same_iff h hl hw hrl).mpr (hready r hrl)
      · rw [passAll_outside s₂ hrl]
        exact awake_same hl hw r hr
  case asleep =>
    intro a ha htime
    obtain ⟨hi,hsame⟩ := hsplit a ha htime
    have hps := congrArg Pcb.processState hsame
    have hts := congrArg Pcb.threadState hsame
    obtain ⟨hnormal,hsleeping⟩ := h.states .sleeping (by decide) a ha
    rw [hw.sleeping, hw.run, List.append_nil, List.mem_cons, not_or]
    refine ⟨hi,⟨?_,fun hr => run_awake h a hr ha⟩,hps.trans hnormal,hts.trans hsleeping⟩
    rintro rfl
    exact htime hzero

theorem served_woken_iff :
    (∃ lists', SleptOn s (passAll (lists .run) s₂) lists lists') ↔
      rest = [] ∧ ∀ r ∈ lists .run, (s.pcbs r).sleepTime = 0 ∧
        (s.pcbs r).processState = .normal ∧ (s.pcbs r).threadState = .running := by
  constructor
  · rintro ⟨lists',hserved⟩
    refine ⟨served_rest h hl hw hserved.toServed,?_⟩
    intro r hr
    exact (run_same_iff h hl hw hr).mp
      (hserved.others r (h.threaded.members .run r hr) (run_awake h r hr))
  · rintro ⟨hrest,hready⟩
    exact ⟨_,served_ready h hl hw hpos hzero hrest hready⟩

end

theorem waiting_first (s : System) (init rest : List Word) (p : Word)
    (hpos : ∀ a ∈ init, (s.pcbs a).sleepTime ≠ 0) (hzero : (s.pcbs p).sleepTime = 0) :
    (init++p::rest).takeWhile (fun a => (s.pcbs a).sleepTime ≠ 0) = init := by
  rw [List.takeWhile_append_of_pos (by simpa using hpos),
    List.takeWhile_cons_of_neg (by simpa using hzero),
    List.append_nil]

/-- The walk does its work on the queues exactly if it comes to no woken process
before the last sleeper and finds nothing to change in the run queue. -/
theorem sleepers_served_iff (s : System) (lists : QueueType → List Word) (h : Sound s lists) :
    (∃ n s' lists', wakeSleepers n (s.processes .sleeping) s = some s' ∧
      SleptOn s s' lists lists') ↔ Servable s lists := by
  cases hfind : (lists .sleeping).find? (fun p => (s.pcbs p).sleepTime = 0) with
  | none =>
    have hpos : ∀ p ∈ lists .sleeping, (s.pcbs p).sleepTime ≠ 0 := by
      simpa using List.find?_eq_none.mp hfind
    have hc := h.threaded.linked.chain .sleeping
    have hwalk := walk_waiting 0 (lists .sleeping) [] s _ (by rwa [List.append_nil])
      (h.threaded.linked.nodup .sleeping) hpos
    rw [List.head?_nil, wakeSleepers_none] at hwalk
    exact iff_of_true ⟨_,_,lists,hwalk,served_waiting h hpos⟩ (Or.inl hpos)
  | some p =>
    obtain ⟨hzero,init,rest,hl,hfirst⟩ := List.find?_eq_some_iff_append.mp hfind
    have hzero : (s.pcbs p).sleepTime = 0 := by simpa using hzero
    have hpos : ∀ a ∈ init, (s.pcbs a).sleepTime ≠ 0 := by simpa using hfirst
    obtain ⟨hsome,htotal⟩ := walk_woken h hl hpos hzero
    constructor
    · rintro ⟨n,s',lists',hs,hserved⟩
      obtain ⟨s₂,hw,hlen,rfl⟩ := hsome n s' hs
      obtain ⟨rfl,hready⟩ := (served_woken_iff h hl hw hpos hzero).mp ⟨lists',hserved⟩
      exact Or.inr ⟨init,p,hl,hlen,hpos,hzero,hready⟩
    · rintro (hall | ⟨init',last,hl',hlen,hpos',hlast,hready⟩)
      · exact absurd hzero (hall p (by simp [hl]))
      · -- the last sleeper is the first whose time is over
        have he : init++p::rest = init'++[last] := hl.symm.trans hl'
        obtain rfl : init = init' := by
          rw [← waiting_first s init rest p hpos hzero, he, waiting_first s init' [] last hpos' hlast]
        obtain ⟨rfl,rfl⟩ := List.cons.inj (List.append_cancel_left he)
        obtain ⟨n,s₂,hw,hs⟩ := htotal (by simpa using hlen) hlen
        obtain ⟨lists',hserved⟩ := (served_woken_iff h hl hw hpos hzero).mpr ⟨rfl,hready⟩
        exact ⟨n,_,lists',hs,hserved⟩

def sleeperLists : QueueType → List Word
  | .run => [1]
  | .sleeping => [2,3]
  | _ => []

theorem twoSleepers_sound : Sound twoSleepers.system sleeperLists := by
  constructor
  case threaded =>
    constructor
    case linked =>
      constructor
      case chain =>
        intro q
        cases q
        · exact ⟨rfl,rfl⟩
        · rfl
        · exact ⟨rfl,rfl,rfl⟩
        · rfl
      case nodup => intro q; cases q <;> decide
      case disjoint =>
        intro q q' p hp hq
        cases q <;> cases q' <;> simp_all [sleeperLists]
    case members => intro q; cases q <;> simp [sleeperLists, twoSleepers]
    case pids => simp [twoSleepers, childPcb]
  case flags => simp [sleeperLists, twoSleepers]
  case states => intro q hq; cases q <;> simp_all [sleeperLists, twoSleepers, childPcb, waitState]
  case registered =>
    constructor
    case idleAlive => simp [Alive, twoSleepers, childPcb]
    all_goals simp [twoSleepers, childPcb]

/-- The time of the first of two sleepers is over. -/
theorem sleepers_served_iff_two : ¬ ∃ n s' lists',
    wakeSleepers n (some 2) twoSleepers.system = some s' ∧
      SleptOn twoSleepers.system s' sleeperLists lists' := by
  intro h
  rcases (sleepers_served_iff _ sleeperLists twoSleepers_sound).mp h with h | ⟨init,last,hl,-,hpos,-⟩
  · exact h 2 (by decide) rfl
  · cases init with
    | nil => simp [sleeperLists] at hl
    | cons a init =>
      obtain rfl : 2 = a := (List.cons.inj hl).1
      exact hpos 2 List.mem_cons_self rfl

end PreemptiveOS.TimerTicks
