import PreemptiveOS.Scheduler

/-!
# The queues of the scheduler as lists

What the queue functions do to the lists of processes that the links stand
for. A removal either takes a process out of a list, finds that it is not
there, or does not end; it sees the first two processes of a queue only. The
data of the process blocks stays, apart from the links.
-/

set_option autoImplicit false

namespace PreemptiveOS.SchedulerQueues
open ByteMemory LinkedQueues Scheduler

variable {p r : Word}

@[simp] theorem set_same (s : System) (p : Word) (f : Pcb → Pcb) :
    (s.set p f).pcbs p = f (s.pcbs p) := Function.update_self ..

theorem set_other (s : System) (f : Pcb → Pcb) (h : r ≠ p) :
    (s.set p f).pcbs r = s.pcbs r := Function.update_of_ne h ..

@[simp] theorem set_made (s : System) (p : Word) (f : Pcb → Pcb) : (s.set p f).made = s.made := rfl

@[simp] theorem set_current (s : System) (p : Word) (f : Pcb → Pcb) :
    (s.set p f).current = s.current := rfl

@[simp] theorem set_allproc (s : System) (p : Word) (f : Pcb → Pcb) :
    (s.set p f).allproc = s.allproc := rfl

/-- A field that an update leaves alone is left alone everywhere. -/
theorem set_field {α : Type} (g : Pcb → α) (s : System) (p : Word) (f : Pcb → Pcb)
    (h : g (f (s.pcbs p)) = g (s.pcbs p)) (r : Word) : g ((s.set p f).pcbs r) = g (s.pcbs r) := by
  by_cases hr : r = p
  · subst hr
    rw [set_same, h]
  · rw [set_other s f hr]

variable {f : Pcb → Pcb} {s : System}

theorem set_next (h : (f (s.pcbs p)).nextInQueue = (s.pcbs p).nextInQueue) :
    (s.set p f).next = s.next :=
  funext (set_field Pcb.nextInQueue s p f h)

theorem link_next (s : System) (p : Word) {v : Option Word} :
    (s.set p (Pcb.link v)).next = Function.update s.next p v := by
  funext r
  by_cases hr : r = p
  · subst hr
    rw [Function.update_self, System.next, set_same]
    rfl
  · rw [Function.update_of_ne hr, System.next, set_other _ _ hr]
    rfl

variable {l : List Word} {q : QueueType}

theorem addProcessToQueue_cases (p : Word) (hc : Chain s.next (s.processes q) l) (hn : l.Nodup)
    (hm : ∀ a ∈ l, a ∈ s.made) :
    (l = [] ∧ addProcessToQueue q p s = some (addProcessToQueueFront q p s)) ∨
    ∃ init last, l = init++[last] ∧ addProcessToQueue q p s =
      some ((s.set last (Pcb.link (some p))).set p (Pcb.link none)) := by
  have hhead := chain_head _ _ _ hc
  rcases List.eq_nil_or_concat l with rfl | ⟨init,last,rfl⟩
  · have hnone : s.processes q = none := hhead
    exact Or.inl ⟨rfl,by simp only [addProcessToQueue, addProcessToQueueFront, hnone]⟩
  · rw [List.concat_eq_append] at *
    obtain ⟨first,hfirst⟩ : ∃ first, s.processes q = some first := by
      rw [hhead]
      cases init with
      | nil => exact ⟨last,rfl⟩
      | cons a init => exact ⟨a,rfl⟩
    have hlen : init.length < s.made.length := by
      have hsub := (List.subperm_of_subset hn hm).length_le
      rw [List.length_append, List.length_singleton] at hsub
      omega
    rw [hfirst] at hc
    have hlast := lastFrom_chain first s.made.length hc hlen
    exact Or.inr ⟨init,last,rfl,by simp only [addProcessToQueue, hfirst, hlast, Option.map_some]⟩

structure Threaded (s : System) (lists : QueueType → List Word) : Prop where
  linked : Linked s.next s.processes lists
  members : ∀ q, ∀ p ∈ lists q, p ∈ s.made
  pids : ∀ p ∈ s.made, ∀ r ∈ s.made, (s.pcbs p).pid = (s.pcbs r).pid → p = r

structure Relinked (s s' : System) : Prop where
  pcbs : ∀ r, (s'.pcbs r).link none = (s.pcbs r).link none
  made : s'.made = s.made
  current : s'.current = s.current
  idleTask : s'.idleTask = s.idleTask
  allproc : s'.allproc = s.allproc
  lastPid : s'.lastPid = s.lastPid

theorem relinked_refl (s : System) : Relinked s s := by
  constructor <;> intros <;> rfl

theorem relinked_trans {s₁ s₂ s₃ : System} (h : Relinked s₁ s₂) (h' : Relinked s₂ s₃) :
    Relinked s₁ s₃ := by
  constructor
  case pcbs => exact fun r => (h'.pcbs r).trans (h.pcbs r)
  case made => exact h'.made.trans h.made
  case current => exact h'.current.trans h.current
  case idleTask => exact h'.idleTask.trans h.idleTask
  case allproc => exact h'.allproc.trans h.allproc
  case lastPid => exact h'.lastPid.trans h.lastPid

theorem relinked_link (s : System) (p : Word) (v : Option Word) :
    Relinked s (s.set p (Pcb.link v)) := by
  constructor
  case pcbs => exact set_field (Pcb.link none) s p _ rfl
  all_goals rfl

variable {s' : System}

theorem relinked_field {α : Type} (g : Pcb → α) (hg : ∀ b, g (b.link none) = g b)
    (h : Relinked s s') (r : Word) : g (s'.pcbs r) = g (s.pcbs r) := by
  rw [← hg, h.pcbs r, hg]

theorem relinked_set_field {α : Type} (g : Pcb → α) (hg : ∀ b, g (b.link none) = g b)
    (hf : g (f (s.pcbs p)) = g (s.pcbs p)) (h : Relinked (s.set p f) s') (r : Word) :
    g (s'.pcbs r) = g (s.pcbs r) :=
  (relinked_field g hg h r).trans (set_field g s p f hf r)

section
variable {s : System} {lists : QueueType → List Word} (h : Threaded s lists)
include h

theorem threaded_set (p : Word) (f : Pcb → Pcb)
    (hn : (f (s.pcbs p)).nextInQueue = (s.pcbs p).nextInQueue)
    (hp : (f (s.pcbs p)).pid = (s.pcbs p).pid) : Threaded (s.set p f) lists := by
  constructor
  case linked =>
    rw [set_next hn]
    exact h.linked
  case members => exact h.members
  case pids =>
    intro a ha b hb he
    rw [set_field Pcb.pid s p f hp, set_field Pcb.pid s p f hp] at he
    exact h.pids a ha b hb he

theorem relinked_pids (hr : Relinked s s') :
    ∀ p ∈ s'.made, ∀ r ∈ s'.made, (s'.pcbs p).pid = (s'.pcbs r).pid → p = r := by
  intro p hp r hr' he
  rw [hr.made] at hp hr'
  rw [relinked_field Pcb.pid (fun _ => rfl) hr p,
    relinked_field Pcb.pid (fun _ => rfl) hr r] at he
  exact h.pids p hp r hr' he

theorem threaded_update (hr : Relinked s s') (hl : ∀ p ∈ l, p ∈ s.made)
    (hlinked : Linked s'.next s'.processes (Function.update lists q l)) :
    Threaded s' (Function.update lists q l) := by
  constructor
  case linked => exact hlinked
  case members =>
    intro q' p hp
    rw [hr.made]
    by_cases hq : q' = q
    · subst hq
      rw [Function.update_self] at hp
      exact hl p hp
    · rw [Function.update_of_ne hq] at hp
      exact h.members q' p hp
  case pids => exact relinked_pids h hr

theorem threaded_front (q : QueueType) (p : Word) (hm : p ∈ s.made) (hp : ¬ Member lists p) :
    Threaded (addProcessToQueueFront q p s) (Function.update lists q (p::lists q)) ∧
    Relinked s (addProcessToQueueFront q p s) := by
  have hr : Relinked s (addProcessToQueueFront q p s) := by
    obtain ⟨h₁,h₂,h₃,h₄,h₅,h₆⟩ := relinked_link s p (s.processes q)
    exact ⟨h₁,h₂,h₃,h₄,h₅,h₆⟩
  refine ⟨threaded_update h hr ?_ ?_,hr⟩
  · intro a ha
    rcases List.mem_cons.mp ha with rfl | ha
    · exact hm
    · exact h.members q a ha
  · have hnext : (addProcessToQueueFront q p s).next = Function.update s.next p (s.processes q) :=
      link_next s p
    rw [hnext]
    exact linked_front h.linked q hp

theorem threaded_add (q : QueueType) (p : Word) (hm : p ∈ s.made) (hp : ¬ Member lists p) :
    ∃ s', addProcessToQueue q p s = some s' ∧
      Threaded s' (Function.update lists q (lists q++[p])) ∧ Relinked s s' := by
  have hmem : ∀ a ∈ lists q++[p], a ∈ s.made := by
    intro a ha
    rcases List.mem_append.mp ha with ha | ha
    · exact h.members q a ha
    · rwa [List.mem_singleton.mp ha]
  rcases addProcessToQueue_cases p (h.linked.chain q) (h.linked.nodup q)
    (h.members q) with ⟨hnil,hs⟩ | ⟨init,last,hl,hs⟩
  · obtain ⟨hthr,hr⟩ := threaded_front h q p hm hp
    refine ⟨_,hs,?_,hr⟩
    rw [hnil] at hthr ⊢
    exact hthr
  · have hr := relinked_trans (relinked_link s last (some p))
      (relinked_link (s.set last (Pcb.link (some p))) p none)
    refine ⟨_,hs,?_,hr⟩
    apply threaded_update h hr hmem
    rw [link_next, link_next]
    exact linked_back h.linked hl hp

theorem threaded_remove (q : QueueType) (p : Word) (hm : p ∈ s.made) (s' : System)
    (hs : removeProcessFromQueue q p s = some s') :
    Threaded s' (Function.update lists q ((lists q).erase p)) ∧ Relinked s s' := by
  have hsame : (p ∉ lists q) → Function.update lists q ((lists q).erase p) = lists := by
    intro hnot
    rw [List.erase_of_not_mem hnot, Function.update_eq_self]
  have herase : ∀ a ∈ (lists q).erase p, a ∈ s.made :=
    fun a ha => h.members q a (List.mem_of_mem_erase ha)
  have hpid : ∀ a ∈ lists q, (s.pcbs a).pid = (s.pcbs p).pid → a = p :=
    fun a ha he => h.pids a (h.members q a ha) p hm he
  have hc := h.linked.chain q
  rw [removeProcessFromQueue] at hs
  cases hl : lists q with
  | nil =>
    have hnone : s.processes q = none := by rw [chain_head _ _ _ hc, hl]; rfl
    rw [hnone] at hs
    obtain rfl := Option.some.inj hs
    rw [← hl, hsame (by simp [hl])]
    exact ⟨h,relinked_refl s⟩
  | cons a l =>
    rw [hl] at hc herase hpid
    have hsome : s.processes q = some a := hc.1
    rw [hsome] at hs
    dsimp only at hs
    by_cases ha : (s.pcbs a).pid = (s.pcbs p).pid
    · -- the head goes
      obtain rfl := hpid a (by simp) ha
      rw [if_pos ha] at hs
      obtain rfl := Option.some.inj hs
      have hr : Relinked s { s with processes := Function.update s.processes q (s.next a) } := by
        constructor <;> intros <;> rfl
      rw [List.erase_cons_head] at herase ⊢
      exact ⟨threaded_update h hr herase (linked_pop h.linked hl),hr⟩
    · have hne : a ≠ p := fun he => ha (by rw [he])
      rw [if_neg ha] at hs
      cases l with
      | nil =>
        have hnone : s.next a = none := hc.2
        rw [hnone] at hs
        obtain rfl := Option.some.inj hs
        rw [← hl, hsame (by simp [hl, Ne.symm hne])]
        exact ⟨h,relinked_refl s⟩
      | cons b l =>
        have hsecond : s.next a = some b := hc.2.1
        rw [hsecond] at hs
        dsimp only at hs
        by_cases hb : (s.pcbs b).pid = (s.pcbs p).pid
        · -- the second one goes
          obtain rfl := hpid b (by simp) hb
          rw [if_pos hb] at hs
          obtain rfl := Option.some.inj hs
          have hr := relinked_link s a (s.next b)
          have her : (a::b::l).erase b = a::l := by
            rw [List.erase_cons_tail (by simpa using hne), List.erase_cons_head]
          rw [her] at herase ⊢
          refine ⟨threaded_update h hr herase ?_,hr⟩
          rw [link_next]
          exact linked_second h.linked hl
        · rw [if_neg hb] at hs
          cases hs

end

theorem set_congr (s : System) (p : Word) (f g : Pcb → Pcb) (h : f (s.pcbs p) = g (s.pcbs p)) :
    s.set p f = s.set p g := by
  rw [System.set, System.set, h]

theorem set_set (s : System) (p : Word) (f g : Pcb → Pcb) :
    (s.set p f).set p g = s.set p (fun b => g (f b)) := by
  simp only [System.set, Function.update_self, Function.update_idem]

theorem set_swap (s : System) (f g : Pcb → Pcb) (h : r ≠ p) :
    (s.set p f).set r g = (s.set r g).set p f := by
  simp only [System.set, Function.update_of_ne h, Function.update_of_ne (Ne.symm h)]
  rw [Function.update_comm h]

theorem set_id (s : System) (p : Word) (f : Pcb → Pcb) (h : f (s.pcbs p) = s.pcbs p) :
    s.set p f = s := by
  rw [System.set, h, Function.update_eq_self]

theorem relinked_set (p : Word) (f : Pcb → Pcb) (hr : Relinked s s')
    (hf : ∀ b, (f b).link none = f (b.link none)) : Relinked (s.set p f) (s'.set p f) := by
  constructor
  case pcbs =>
    intro r
    by_cases hrp : r = p
    · subst hrp
      rw [set_same, set_same, hf, hf, hr.pcbs]
    · rw [set_other _ _ hrp, set_other _ _ hrp]
      exact hr.pcbs r
  case made => exact hr.made
  case current => exact hr.current
  case idleTask => exact hr.idleTask
  case allproc => exact hr.allproc
  case lastPid => exact hr.lastPid

def waitState : QueueType → ThreadState
  | .run => .running
  | .blocked => .blocked
  | .sleeping => .sleeping
  | .waiting => .waiting

def Alive (b : Pcb) : Prop := b.processState ≠ .zombie ∧ b.processState ≠ .dead

structure Registered (s : System) : Prop where
  current : s.current ∈ s.made
  idle : s.idleTask ∈ s.made
  parents : ∀ p ∈ s.made, ∀ r ∈ (s.pcbs p).pptr, r ∈ s.made
  listed : ∀ n ∈ s.allproc, n.process ∈ s.made
  pids : ∀ p ∈ s.made, (s.pcbs p).pid.toNat ≤ s.lastPid.toNat
  room : s.lastPid.toNat < 2^16
  idlePid : (s.pcbs s.idleTask).pid = 0
  idleAlive : Alive (s.pcbs s.idleTask)

structure Sound (s : System) (lists : QueueType → List Word) : Prop where
  threaded : Threaded s lists
  flags : ∀ p ∈ s.made, (s.pcbs p).onRq = true ↔ p ∈ lists .run
  states : ∀ q, q ≠ .run → ∀ p ∈ lists q,
    (s.pcbs p).processState = .normal ∧ (s.pcbs p).threadState = waitState q
  registered : Registered s

def Living (s : System) (lists : QueueType → List Word) : Prop :=
  ∀ p ∈ lists .run, Alive (s.pcbs p)

theorem registered_relinked (h : Registered s) (hr : Relinked s s') : Registered s' := by
  have hpid := relinked_field Pcb.pid (fun _ => rfl) hr
  have hpptr := relinked_field Pcb.pptr (fun _ => rfl) hr
  constructor
  case current =>
    rw [hr.current, hr.made]
    exact h.current
  case idle =>
    rw [hr.idleTask, hr.made]
    exact h.idle
  case parents =>
    intro p hp r hrp
    rw [hr.made] at hp ⊢
    rw [hpptr] at hrp
    exact h.parents p hp r hrp
  case listed =>
    intro n hn
    rw [hr.made]
    rw [hr.allproc] at hn
    exact h.listed n hn
  case pids =>
    intro p hp
    rw [hr.made] at hp
    rw [hpid, hr.lastPid]
    exact h.pids p hp
  case room =>
    rw [hr.lastPid]
    exact h.room
  case idlePid =>
    rw [hr.idleTask, hpid]
    exact h.idlePid
  case idleAlive =>
    rw [Alive, hr.idleTask, relinked_field Pcb.processState (fun _ => rfl) hr]
    exact h.idleAlive

theorem registered_set (h : Registered s) (hpid : (f (s.pcbs p)).pid = (s.pcbs p).pid)
    (hpptr : (f (s.pcbs p)).pptr = (s.pcbs p).pptr)
    (halive : p = s.idleTask → Alive (f (s.pcbs p))) : Registered (s.set p f) := by
  constructor
  case current => exact h.current
  case idle => exact h.idle
  case parents =>
    intro a ha r hr
    rw [set_field Pcb.pptr s p f hpptr] at hr
    exact h.parents a ha r hr
  case listed => exact h.listed
  case pids =>
    intro a ha
    rw [set_field Pcb.pid s p f hpid]
    exact h.pids a ha
  case room => exact h.room
  case idlePid =>
    rw [set_field Pcb.pid s p f hpid]
    exact h.idlePid
  case idleAlive =>
    by_cases hp : p = s.idleTask
    · subst hp
      show Alive ((s.set s.idleTask f).pcbs s.idleTask)
      rw [set_same]
      exact halive rfl
    · show Alive ((s.set p f).pcbs s.idleTask)
      rw [set_other _ _ (Ne.symm hp)]
      exact h.idleAlive

def wokenLists (lists : QueueType → List Word) (q : QueueType) (p : Word) :
    QueueType → List Word :=
  if p ∈ lists .run then lists
  else Function.update (Function.update lists q ((lists q).erase p)) .run (p::lists .run)

theorem woken_run (lists : QueueType → List Word) (q : QueueType) (p a : Word) :
    a ∈ wokenLists lists q p .run ↔ a = p ∨ a ∈ lists .run := by
  rw [wokenLists]
  split
  · rename_i hp
    exact ⟨Or.inr,fun h => h.elim (fun he => he ▸ hp) id⟩
  · rw [Function.update_self]
    exact List.mem_cons

theorem woken_other (lists : QueueType → List Word) (q q' : QueueType) (p a : Word)
    (hq : q' ≠ .run) (ha : a ∈ wokenLists lists q p q') : a ∈ lists q' := by
  rw [wokenLists] at ha
  split at ha
  · exact ha
  · rw [Function.update_of_ne hq] at ha
    by_cases hqq : q' = q
    · subst hqq
      rw [Function.update_self] at ha
      exact List.mem_of_mem_erase ha
    · rwa [Function.update_of_ne hqq] at ha

def wokenPcb (b : Pcb) : Pcb := (b.mark .normal .running).onQueue true

section
variable {s : System} {lists : QueueType → List Word} (h : Sound s lists)
include h

theorem wake_threaded (hq : q ≠ .run) (hm : p ∈ s.made)
    (hother : ∀ q', q' ≠ q → q' ≠ .run → p ∉ lists q') (hs : tryToWakeUp q (some p) s = some s') :
    Threaded s' (wokenLists lists q p) ∧ Relinked (s.set p wokenPcb) s' := by
  obtain ⟨s₂,hs₂,rfl⟩ := Option.map_eq_some_iff.mp hs
  obtain ⟨ht,hr⟩ := threaded_remove (threaded_set h.threaded p (Pcb.mark .normal .running) rfl rfl)
    q p hm s₂ hs₂
  have hflag : (s₂.pcbs p).onRq = (s.pcbs p).onRq := by
    rw [relinked_field Pcb.onRq (fun _ => rfl) hr p, set_same]
    rfl
  rw [wokenLists]
  by_cases hp : p ∈ lists .run
  · have hon : (s.pcbs p).onRq = true := (h.flags p hm).mpr hp
    have hnot : p ∉ lists q := fun hpq => hq (h.threaded.linked.disjoint q .run p hpq hp)
    rw [if_pos (hflag.trans hon), if_pos hp]
    rw [List.erase_of_not_mem hnot, Function.update_eq_self] at ht
    refine ⟨ht,?_⟩
    rw [set_congr s p wokenPcb (Pcb.mark .normal .running) (by
      rw [wokenPcb, Pcb.onQueue, Pcb.mark, ← hon])]
    exact hr
  · have hoff : ¬ (s.pcbs p).onRq = true := fun hon => hp ((h.flags p hm).mp hon)
    have hmem : ¬ Member (Function.update lists q ((lists q).erase p)) p := by
      rintro ⟨q',hq'⟩
      by_cases hqq : q' = q
      · subst hqq
        rw [Function.update_self] at hq'
        exact (h.threaded.linked.nodup q').not_mem_erase hq'
      · rw [Function.update_of_ne hqq] at hq'
        by_cases hrun : q' = .run
        · exact hp (hrun ▸ hq')
        · exact hother q' hqq hrun hq'
    obtain ⟨ht',hr'⟩ := threaded_front ht .run p (hr.made ▸ hm) hmem
    rw [Function.update_of_ne (Ne.symm hq)] at ht'
    rw [if_neg (hflag ▸ hoff), if_neg hp]
    refine ⟨threaded_set ht' p (Pcb.onQueue true) rfl rfl,?_⟩
    have hboth := relinked_set p (Pcb.onQueue true) (relinked_trans hr hr') (fun _ => rfl)
    rwa [set_set] at hboth

theorem wake_sound (q : QueueType) (hq : q ≠ .run) (p : Word) (hm : p ∈ s.made)
    (hother : ∀ q', q' ≠ q → q' ≠ .run → p ∉ lists q') (s' : System)
    (hs : tryToWakeUp q (some p) s = some s') :
    Sound s' (wokenLists lists q p) ∧ Relinked (s.set p wokenPcb) s' := by
  obtain ⟨ht,hr⟩ := wake_threaded h hq hm hother hs
  refine ⟨?_,hr⟩
  constructor
  case threaded => exact ht
  case flags =>
    intro a ha
    rw [hr.made] at ha
    rw [relinked_field Pcb.onRq (fun _ => rfl) hr a, woken_run]
    by_cases hap : a = p
    · subst hap
      rw [set_same]
      exact ⟨fun _ => Or.inl rfl,fun _ => rfl⟩
    · rw [set_other _ _ hap, h.flags a ha]
      exact ⟨Or.inr,fun hor => hor.resolve_left hap⟩
  case states =>
    intro q' hq' a ha
    have hal := woken_other lists q q' p a hq' ha
    have hne : a ≠ p := by
      rintro rfl
      rw [wokenLists] at ha
      split at ha
      · rename_i hrun
        exact hq' (h.threaded.linked.disjoint q' .run a ha hrun)
      · rw [Function.update_of_ne hq'] at ha
        by_cases hqq : q' = q
        · subst hqq
          rw [Function.update_self] at ha
          exact (h.threaded.linked.nodup q').not_mem_erase ha
        · exact hother q' hqq hq' hal
    rw [relinked_field Pcb.processState (fun _ => rfl) hr a,
      relinked_field Pcb.threadState (fun _ => rfl) hr a, set_other _ _ hne]
    exact h.states q' hq' a hal
  case registered =>
    exact registered_relinked (registered_set h.registered rfl rfl
      (fun _ => ⟨by simp [wokenPcb, Pcb.mark, Pcb.onQueue],
        by simp [wokenPcb, Pcb.mark, Pcb.onQueue]⟩)) hr

theorem removeRun_sound (hm : p ∈ s.made) (hs : removeProcessFromQueue .run p s = some s') :
    Sound (s'.set p (Pcb.onQueue false)) (Function.update lists .run ((lists .run).erase p)) ∧
    Relinked (s.set p (Pcb.onQueue false)) (s'.set p (Pcb.onQueue false)) := by
  obtain ⟨ht,hr⟩ := threaded_remove h.threaded .run p hm s' hs
  have hboth := relinked_set p (Pcb.onQueue false) hr (fun _ => rfl)
  refine ⟨?_,hboth⟩
  constructor
  case threaded => exact threaded_set ht p _ rfl rfl
  case flags =>
    intro a ha
    have ham : a ∈ s.made := hr.made ▸ ha
    rw [relinked_field Pcb.onRq (fun _ => rfl) hboth a, Function.update_self]
    by_cases hap : a = p
    · subst hap
      rw [set_same]
      exact ⟨fun he => (by cases he),fun he => absurd he (h.threaded.linked.nodup .run).not_mem_erase⟩
    · rw [set_other _ _ hap, h.flags a ham, List.mem_erase_of_ne hap]
  case states =>
    intro q hq a ha
    rw [Function.update_of_ne hq] at ha
    rw [relinked_set_field Pcb.processState (fun _ => rfl) rfl hboth a,
      relinked_set_field Pcb.threadState (fun _ => rfl) rfl hboth a]
    exact h.states q hq a ha
  case registered =>
    apply registered_relinked (registered_set h.registered rfl rfl _) hboth
    rintro rfl
    exact h.registered.idleAlive

theorem add_sound (hq : q ≠ .run) (hm : p ∈ s.made) (hp : ¬ Member lists p)
    (hstate : (s.pcbs p).processState = .normal) (hthread : (s.pcbs p).threadState = waitState q) :
    ∃ s', addProcessToQueue q p s = some s' ∧
      Sound s' (Function.update lists q (lists q++[p])) ∧ Relinked s s' := by
  obtain ⟨s',hs',ht,hr⟩ := threaded_add h.threaded q p hm hp
  refine ⟨s',hs',?_,hr⟩
  have hps := relinked_field Pcb.processState (fun _ => rfl) hr
  have hts := relinked_field Pcb.threadState (fun _ => rfl) hr
  constructor
  case threaded => exact ht
  case flags =>
    intro a ha
    rw [hr.made] at ha
    rw [relinked_field Pcb.onRq (fun _ => rfl) hr a, Function.update_of_ne (Ne.symm hq)]
    exact h.flags a ha
  case states =>
    intro q' hq' a ha
    rw [hps, hts]
    by_cases hqq : q' = q
    · subst hqq
      rw [Function.update_self] at ha
      rcases List.mem_append.mp ha with ha | ha
      · exact h.states q' hq' a ha
      · rw [List.mem_singleton.mp ha]
        exact ⟨hstate,hthread⟩
    · rw [Function.update_of_ne hqq] at ha
      exact h.states q' hq' a ha
  case registered => exact registered_relinked h.registered hr

theorem erased_unlisted (hp : p ∈ lists .run) :
    ¬ Member (Function.update lists .run ((lists .run).erase p)) p := by
  rintro ⟨q,hq⟩
  by_cases hrun : q = .run
  · subst hrun
    rw [Function.update_self] at hq
    exact (h.threaded.linked.nodup .run).not_mem_erase hq
  · rw [Function.update_of_ne hrun] at hq
    exact hrun (h.threaded.linked.disjoint q .run p hq hp)

theorem leave_sound (hq : q ≠ .run) (hstate : (s.pcbs s.current).processState = .normal)
    (hthread : (s.pcbs s.current).threadState = waitState q) (hs : leaveRunQueue q s = some s') :
    Sound s' (if s.current ∈ lists .run then
      Function.update (Function.update lists .run ((lists .run).erase s.current)) q
        (lists q++[s.current]) else lists) ∧
    Relinked (s.set s.current (Pcb.onQueue false)) s' := by
  have hm := h.registered.current
  rw [leaveRunQueue] at hs
  by_cases hp : s.current ∈ lists .run
  · rw [if_pos ((h.flags _ hm).mpr hp)] at hs
    rw [if_pos hp]
    obtain ⟨s₁,hs₁,hs⟩ := Option.bind_eq_some_iff.mp hs
    obtain ⟨h₁,hr₁⟩ := removeRun_sound h hm hs₁
    have hps := relinked_set_field Pcb.processState (fun _ => rfl) rfl hr₁ s.current
    have hts := relinked_set_field Pcb.threadState (fun _ => rfl) rfl hr₁ s.current
    obtain ⟨s₂,hs₂,h₂,hr₂⟩ := add_sound h₁ hq (hr₁.made ▸ hm)
      (erased_unlisted h hp) (hps.trans hstate) (hts.trans hthread)
    obtain rfl : s₂ = s' := Option.some.inj (hs₂.symm.trans hs)
    rw [Function.update_of_ne hq] at h₂
    exact ⟨h₂,relinked_trans hr₁ hr₂⟩
  · have hoff : ¬ (s.pcbs s.current).onRq = true := fun hon => hp ((h.flags _ hm).mp hon)
    rw [if_neg hoff] at hs
    obtain rfl := Option.some.inj hs
    rw [if_neg hp, set_id]
    · exact ⟨h,relinked_refl s⟩
    · rw [Pcb.onQueue, ← Bool.not_eq_true _ |>.mp hoff]

end

def Pcb.core (b : Pcb) : Pcb := { b with nextInQueue := none, onRq := false, timeSlice := 0 }

structure Kept (s s' : System) : Prop where
  pcbs : ∀ r, Pcb.core (s'.pcbs r) = Pcb.core (s.pcbs r)
  made : s'.made = s.made
  idleTask : s'.idleTask = s.idleTask
  allproc : s'.allproc = s.allproc
  lastPid : s'.lastPid = s.lastPid

theorem kept_field {α : Type} (g : Pcb → α) (hg : ∀ b, g (Pcb.core b) = g b) (h : Kept s s')
    (r : Word) : g (s'.pcbs r) = g (s.pcbs r) := by
  rw [← hg, h.pcbs r, hg]

theorem kept_refl (s : System) : Kept s s := by
  constructor <;> intros <;> rfl

theorem kept_trans (s₁ s₂ s₃ : System) (h : Kept s₁ s₂) (h' : Kept s₂ s₃) : Kept s₁ s₃ := by
  constructor
  case pcbs => exact fun r => (h'.pcbs r).trans (h.pcbs r)
  case made => exact h'.made.trans h.made
  case idleTask => exact h'.idleTask.trans h.idleTask
  case allproc => exact h'.allproc.trans h.allproc
  case lastPid => exact h'.lastPid.trans h.lastPid

theorem kept_set (hf : Pcb.core (f (s.pcbs p)) = Pcb.core (s.pcbs p)) : Kept s (s.set p f) := by
  constructor
  case pcbs => exact set_field Pcb.core s p f hf
  all_goals rfl

theorem kept_relinked (h : Relinked s s') : Kept s s' := by
  constructor
  case pcbs => exact relinked_field Pcb.core (fun _ => rfl) h
  case made => exact h.made
  case idleTask => exact h.idleTask
  case allproc => exact h.allproc
  case lastPid => exact h.lastPid

def Stays (b : Pcb) : Prop :=
  ¬ (b.processState = .zombie ∧ b.threadState = .stopped) ∧
  ∀ q, q ≠ .run → ¬ (b.processState = .normal ∧ b.threadState = waitState q)

structure Scheduled (s s' : System) (lists lists' : QueueType → List Word) : Prop where
  kept : Kept s s'
  run : ∀ p ∈ lists' .run, p ∈ lists .run
  stays : s.current ∈ lists' .run → Stays (s.pcbs s.current)
  others : ∀ q, q ≠ .run → ∀ p ∈ lists' q, p ∈ lists q ∨ p = s.current ∧ p ∈ lists .run

variable {lists : QueueType → List Word}

theorem scheduled_same (hstays : s.current ∈ lists .run → Stays (s.pcbs s.current)) :
    Scheduled s s lists lists := by
  constructor
  case kept => exact kept_refl s
  case run => exact fun p hp => hp
  case stays => exact hstays
  case others => exact fun q _ p hp => Or.inl hp

section
variable {s : System} {lists : QueueType → List Word} (h : Sound s lists)
include h

theorem sound_set (hn : (f (s.pcbs p)).nextInQueue = (s.pcbs p).nextInQueue)
    (hpid : (f (s.pcbs p)).pid = (s.pcbs p).pid) (hon : (f (s.pcbs p)).onRq = (s.pcbs p).onRq)
    (hpptr : (f (s.pcbs p)).pptr = (s.pcbs p).pptr)
    (hstate : (∀ q, q ≠ .run → p ∉ lists q) ∨ (f (s.pcbs p)).processState = (s.pcbs p).processState ∧
      (f (s.pcbs p)).threadState = (s.pcbs p).threadState)
    (halive : p = s.idleTask → Alive (f (s.pcbs p))) : Sound (s.set p f) lists := by
  constructor
  case threaded => exact threaded_set h.threaded p f hn hpid
  case flags =>
    intro a ha
    rw [set_field Pcb.onRq s p f hon]
    exact h.flags a ha
  case states =>
    intro q hq a ha
    rcases hstate with hout | ⟨hps,hts⟩
    · have hne : a ≠ p := fun he => hout q hq (he ▸ ha)
      rw [set_other _ _ hne]
      exact h.states q hq a ha
    · rw [set_field Pcb.processState s p f hps, set_field Pcb.threadState s p f hts]
      exact h.states q hq a ha
  case registered => exact registered_set h.registered hpid hpptr halive

theorem refill_sound : Sound (refill s) lists := by
  apply sound_set h rfl rfl rfl rfl (Or.inr ⟨rfl,rfl⟩)
  intro he
  rw [he]
  exact h.registered.idleAlive

theorem stop_scheduled
    (hs : (if (s.pcbs s.current).onRq then removeProcessFromQueue .run s.current s else some s).map
      (fun s₁ => s₁.set s.current (Pcb.onQueue false)) = some s') :
    ∃ lists', Sound s' lists' ∧ Scheduled s s' lists lists' ∧ s'.current = s.current := by
  have hm := h.registered.current
  obtain ⟨s₁,hs₁,rfl⟩ := Option.map_eq_some_iff.mp hs
  by_cases hp : s.current ∈ lists .run
  · rw [if_pos ((h.flags _ hm).mpr hp)] at hs₁
    obtain ⟨h₁,hr₁⟩ := removeRun_sound h hm hs₁
    refine ⟨_,h₁,?_,hr₁.current⟩
    constructor
    case kept => exact kept_trans _ _ _ (kept_set rfl) (kept_relinked hr₁)
    case run =>
      intro p hpl
      rw [Function.update_self] at hpl
      exact List.mem_of_mem_erase hpl
    case stays => exact fun hc => absurd ⟨_,hc⟩ (erased_unlisted h hp)
    case others =>
      intro q hq p hpl
      rw [Function.update_of_ne hq] at hpl
      exact Or.inl hpl
  · have hoff : ¬ (s.pcbs s.current).onRq = true := fun hon => hp ((h.flags _ hm).mp hon)
    rw [if_neg hoff] at hs₁
    obtain rfl := Option.some.inj hs₁
    rw [set_id]
    · exact ⟨lists,h,scheduled_same (fun hc => absurd hc hp),rfl⟩
    · rw [Pcb.onQueue, ← Bool.not_eq_true _ |>.mp hoff]

theorem leave_scheduled (q : QueueType) (hq : q ≠ .run)
    (hstate : (s.pcbs s.current).processState = .normal)
    (hthread : (s.pcbs s.current).threadState = waitState q) (s' : System)
    (hs : leaveRunQueue q s = some s') :
    ∃ lists', Sound s' lists' ∧ Scheduled s s' lists lists' ∧ s'.current = s.current := by
  obtain ⟨h',hr⟩ := leave_sound h hq hstate hthread hs
  have hk := kept_trans _ _ _ (kept_set rfl) (kept_relinked hr)
  by_cases hp : s.current ∈ lists .run
  · rw [if_pos hp] at h'
    refine ⟨_,h',?_,hr.current⟩
    constructor
    case kept => exact hk
    case run =>
      intro p hpl
      rw [Function.update_of_ne (Ne.symm hq), Function.update_self] at hpl
      exact List.mem_of_mem_erase hpl
    case stays =>
      intro hc
      rw [Function.update_of_ne (Ne.symm hq)] at hc
      exact absurd ⟨_,hc⟩ (erased_unlisted h hp)
    case others =>
      intro q' hq' p hpl
      by_cases hqq : q' = q
      · subst hqq
        rw [Function.update_self] at hpl
        rcases List.mem_append.mp hpl with hpl | hpl
        · exact Or.inl hpl
        · rw [List.mem_singleton.mp hpl]
          exact Or.inr ⟨rfl,hp⟩
      · rw [Function.update_of_ne hqq, Function.update_of_ne hq'] at hpl
        exact Or.inl hpl
  · rw [if_neg hp] at h'
    refine ⟨_,h',?_,hr.current⟩
    constructor
    case kept => exact hk
    case run => exact fun p hpl => hpl
    case stays => exact fun hc => absurd hc hp
    case others => exact fun q' _ p hpl => Or.inl hpl

theorem dequeue_sound (hs : dequeue s = some s') :
    ∃ lists', Sound s' lists' ∧ Scheduled s s' lists lists' ∧ s'.current = s.current := by
  rw [dequeue] at hs
  split at hs
  · exact stop_scheduled h hs
  · rename_i hps hts
    exact leave_scheduled h .sleeping (by decide) hps hts s' hs
  · rename_i hps hts
    exact leave_scheduled h .blocked (by decide) hps hts s' hs
  · rename_i hps hts
    exact leave_scheduled h .waiting (by decide) hps hts s' hs
  · rename_i hz hsl hbl hwt
    obtain rfl := Option.some.inj hs
    refine ⟨lists,h,scheduled_same (fun _ => ⟨fun hc => hz hc.1 hc.2,?_⟩),rfl⟩
    intro q hq hc
    cases q with
    | run => exact hq rfl
    | blocked => exact hbl hc.1 hc.2
    | sleeping => exact hsl hc.1 hc.2
    | waiting => exact hwt hc.1 hc.2

end

def Picked (s s' : System) (lists' : QueueType → List Word) : Prop :=
  s'.current ∈ lists' .run ∨ s'.current = s.current ∧ (s.pcbs s.current).processState = .normal ∨
    s'.current = s.idleTask

theorem pick_sound (h : Sound s lists) :
    Sound (pickNextTask s) lists ∧ Picked s (pickNextTask s) lists ∧
      (pickNextTask s).pcbs = s.pcbs ∧ Kept s (pickNextTask s) := by
  have hpick : ∀ next, next ∈ s.made → Sound { s with current := next } lists := by
    intro next hn
    obtain ⟨ht,hf,hs,hr⟩ := h
    exact ⟨⟨ht.linked,ht.members,ht.pids⟩,hf,hs,
      ⟨hn,hr.idle,hr.parents,hr.listed,hr.pids,hr.room,hr.idlePid,hr.idleAlive⟩⟩
  have hkept : ∀ next, Kept s { s with current := next } := by
    intro next
    constructor <;> intros <;> rfl
  rw [pickNextTask]
  split
  · rename_i next hnext
    have hmem : next ∈ lists .run := by
      rw [chain_head _ _ _ (h.threaded.linked.chain .run)] at hnext
      exact List.mem_of_mem_head? hnext
    exact ⟨hpick next (h.threaded.members .run next hmem),Or.inl hmem,rfl,hkept next⟩
  · split
    · rename_i hrun
      exact ⟨h,Or.inr (Or.inl ⟨rfl,hrun.1⟩),rfl,kept_refl s⟩
    · exact ⟨hpick _ h.registered.idle,Or.inr (Or.inr rfl),rfl,hkept _⟩

theorem schedule_sound (h : Sound s lists)
    (hlive : ∀ p ∈ lists .run, p ≠ s.current → Alive (s.pcbs p))
    (hcur : Alive (s.pcbs s.current) ∨
      (s.pcbs s.current).processState = .zombie ∧ (s.pcbs s.current).threadState = .stopped)
    (hs : schedule s = some s') :
    ∃ lists', Sound s' lists' ∧ Living s' lists' ∧ Scheduled s s' lists lists' ∧
      Alive (s'.pcbs s'.current) := by
  obtain ⟨s₁,hs₁,rfl⟩ := Option.map_eq_some_iff.mp hs
  obtain ⟨lists',h₁,hsch,hcurr⟩ := dequeue_sound (refill_sound h) hs₁
  obtain ⟨h₂,hpicked,hpcbs,hk⟩ := pick_sound h₁
  have hk₀ : Kept s (refill s) := kept_set rfl
  have hps₀ : ∀ r, ((refill s).pcbs r).processState = (s.pcbs r).processState :=
    kept_field Pcb.processState (fun _ => rfl) hk₀
  have hts₀ : ∀ r, ((refill s).pcbs r).threadState = (s.pcbs r).threadState :=
    kept_field Pcb.threadState (fun _ => rfl) hk₀
  have hkall : Kept s (pickNextTask s₁) := kept_trans _ _ _ hk₀ (kept_trans _ _ _ hsch.kept hk)
  have hstays : s.current ∈ lists' .run → Stays (s.pcbs s.current) := by
    intro hc
    have hst : Stays ((refill s).pcbs s.current) := hsch.stays hc
    rwa [Stays, hps₀, hts₀] at hst
  have hps := kept_field Pcb.processState (fun _ => rfl) hkall
  have hliving : Living (pickNextTask s₁) lists' := by
    intro p hp
    rw [Alive, hps]
    by_cases hpc : p = s.current
    · subst hpc
      exact hcur.resolve_right (hstays hp).1
    · exact hlive p (hsch.run p hp) hpc
  refine ⟨lists',h₂,hliving,⟨hkall,hsch.run,hstays,hsch.others⟩,?_⟩
  rcases hpicked with hrun | ⟨hsame,hnormal⟩ | hidle
  · exact hliving _ hrun
  · rw [hsame, Alive, hpcbs, hnormal]
    exact ⟨by simp,by simp⟩
  · rw [hidle, hpcbs]
    exact h₁.registered.idleAlive

end PreemptiveOS.SchedulerQueues
