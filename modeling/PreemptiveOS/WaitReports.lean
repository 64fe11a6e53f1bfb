import PreemptiveOS.ProcessTree

/-!
# What a wait reports

A wait goes through the list of children. The first one that has exited and has
a pid other than zero is marked as dead, taken out of `zombproc` and reported.
The deletion from a list of processes unlinks the last node when no node has the
pid it looks for. A wait that finds nobody calls the scheduler and starts again,
also when there is nobody left to wait for.
-/

set_option autoImplicit false

namespace PreemptiveOS.WaitReports
open ByteMemory Vmas KernelObjects VirtMmgr Scheduler SchedulerQueues ProcessTree

variable {dead : ProcList → Bool}

theorem deleteRest_absent (temp : ProcList) (l : List ProcList)
    (h : ∀ n ∈ temp::l, ¬ dead n = true) : (deleteRest dead temp l).1 = (temp::l).dropLast := by
  induction l generalizing temp with
  | nil => rfl
  | cons next l ih =>
    rw [deleteRest, if_neg (h temp List.mem_cons_self),
      ih next (fun n hn => h n (List.mem_cons_of_mem _ hn)), List.dropLast_cons_cons]

variable {l : List ProcList}

theorem deleteNode_absent (h : ∀ n ∈ l, ¬ dead n = true) :
    ((deleteNode dead l).map Prod.fst).getD l =
      if l.length ≤ 1 then l else l.dropLast := by
  match l with
  | [] => rfl
  | [first] => simp [deleteNode, h first List.mem_cons_self]
  | first::next::rest =>
    have hrest := deleteRest_absent next rest (fun n hn => h n (List.mem_cons_of_mem _ hn))
    simp [deleteNode, h first List.mem_cons_self, hrest]

theorem deleteNode_exact_iff (hone : l.Pairwise (fun m n => ¬ (dead m = true ∧ dead n = true))) :
    ((deleteNode dead l).map Prod.fst).getD l = l.filter (fun n => !dead n) ↔
      l.length ≤ 1 ∨ ∃ n ∈ l, dead n = true := by
  by_cases hfound : ∃ n ∈ l, dead n = true
  · exact iff_of_true (deleteNode_filter hone hfound) (Or.inr hfound)
  · have habsent : ∀ n ∈ l, ¬ dead n = true := fun n hn hd => hfound ⟨n,hn,hd⟩
    have hfilter : l.filter (fun n => !dead n) = l :=
      List.filter_eq_self.mpr (fun n hn => by simp [habsent n hn])
    rw [deleteNode_absent habsent, hfilter, or_iff_left hfound]
    split_ifs with hlen
    · exact iff_of_true rfl hlen
    · refine iff_of_false ?_ hlen
      intro he
      have hlength := congrArg List.length he
      rw [List.length_dropLast] at hlength
      omega

variable {process : Word}

theorem deleteProcess_list (pid : Word → BitVec 16) (s : Machine) (list : List ProcList)
    (hp : process ≠ 0) : (deleteProcess pid s list process).2 =
      ((deleteNode (fun n => pid n.process = pid process) list).map Prod.fst).getD list := by
  rw [deleteProcess, if_neg hp]
  cases deleteNode (fun n => decide (pid n.process = pid process)) list <;> rfl

def without (pid : Word → BitVec 16) (process : Word) (list : List ProcList) : List ProcList :=
  list.filter (fun n => pid n.process ≠ pid process)

theorem deleteProcess_exact_iff {pid : Word → BitVec 16} (s : Machine) {list : List ProcList}
    (hp : process ≠ 0) (hpids : (list.map (fun n => pid n.process)).Nodup) :
    (deleteProcess pid s list process).2 = without pid process list ↔
      list.length ≤ 1 ∨ ∃ n ∈ list, pid n.process = pid process := by
  have hone : list.Pairwise (fun m n => ¬ (decide (pid m.process = pid process) = true ∧
      decide (pid n.process = pid process) = true)) := by
    apply (List.pairwise_map.mp hpids).imp
    rintro m n hmn ⟨hm,hn⟩
    exact hmn ((of_decide_eq_true hm).trans (of_decide_eq_true hn).symm)
  have hiff := deleteNode_exact_iff hone
  rw [deleteProcess_list pid s list hp, without]
  simpa using hiff

/-- Both deletions are exact if the process is in the list or the list has at most
one node. -/
theorem deletion_exact_iff (pid : Word → BitVec 16) (s : Machine) (list : List ProcList)
    (process : Word) (hp : process ≠ 0) (hpids : (list.map (fun n => pid n.process)).Nodup) :
    ((deleteFromAllproc pid s list process).2 = without pid process list ↔
      list.length ≤ 1 ∨ ∃ n ∈ list, pid n.process = pid process) ∧
    ((deleteFromZombproc pid s list process).2 = without pid process list ↔
      list.length ≤ 1 ∨ ∃ n ∈ list, pid n.process = pid process) :=
  ⟨deleteProcess_exact_iff s hp hpids,
    deleteProcess_exact_iff s hp hpids⟩

def listed (process : Word) : ProcList := ⟨kernelPtr (4096*process),process⟩

def lowPid (process : Word) : BitVec 16 := process.setWidth 16

def noFrames : Machine := ⟨fun _ => 0,[],0,0,0⟩

theorem deletion_exact_iff_three :
    (deleteFromZombproc lowPid noFrames [listed 1,listed 2,listed 3] 2).2 =
      [listed 1,listed 3] := by
  have hiff := deletion_exact_iff lowPid noFrames [listed 1,listed 2,listed 3] 2 (by decide)
    (by decide)
  exact hiff.2.mpr (Or.inr ⟨listed 2,by simp,rfl⟩)

/-- A process that could not be put into `zombproc` for lack of a frame takes the
node of another one with it. -/
theorem missing_process_takes_last :
    (insertZombproc noFrames [listed 1,listed 2] 3).2 = ([listed 1,listed 2],false) ∧
    (deleteFromZombproc lowPid noFrames [listed 1,listed 2] 3).2 = [listed 1] ∧
    (deleteFromAllproc lowPid noFrames [listed 1,listed 2] 3).2 = [listed 1] ∧
    without lowPid 3 [listed 1,listed 2] = [listed 1,listed 2] := by
  refine ⟨rfl,rfl,rfl,rfl⟩

inductive Waited where
  | refused
  | reported (child : Word) (pid status : BitVec 32)
  | schedules
  deriving DecidableEq

section
variable (processExitStatus : Word → BitVec 32)

def scanChildren : List Word → System → System × Waited
  | [], s => (s,.schedules)
  | child::rest, s =>
    let found := doWaitThread child s
    if found.2 ≠ 0 then
      (found.1.set s.current (Pcb.mark .normal .running),
        .reported child (found.2.setWidth 32) (processExitStatus child))
    else scanChildren rest found.1

def waitRound (s : System) : System × Waited :=
  if (s.pcbs s.current).cptr = [] then (s,.refused)
  else
    scanChildren processExitStatus (s.pcbs s.current).cptr
      (s.set s.current (Pcb.mark .normal .waiting))

end

def Zombie (b : Pcb) : Prop := b.processState = .zombie ∧ b.threadState = .stopped

def Reaped (b : Pcb) : Prop := b.processState = .dead ∧ b.threadState = .stopped

instance (b : Pcb) : Decidable (Zombie b) := inferInstanceAs (Decidable (_ ∧ _))

instance (b : Pcb) : Decidable (Reaped b) := inferInstanceAs (Decidable (_ ∧ _))

variable {s : System} {child : Word}

theorem doWaitThread_zombie (h : Zombie (s.pcbs child)) :
    doWaitThread child s = (s.set child (fun b => { b with processState := .dead }),
      (s.pcbs child).pid) := if_pos h

theorem doWaitThread_other (h : ¬ Zombie (s.pcbs child)) : doWaitThread child s = (s,0) := if_neg h

theorem doWaitThread_pcbs (child : Word) (s : System) (r : Word) :
    ((doWaitThread child s).1.pcbs r = s.pcbs r ∨ r = child ∧ Zombie (s.pcbs r) ∧
      (doWaitThread child s).1.pcbs r = { s.pcbs r with processState := .dead }) ∧
    (doWaitThread child s).1.current = s.current := by
  by_cases hz : Zombie (s.pcbs child)
  · rw [doWaitThread_zombie hz]
    refine ⟨?_,rfl⟩
    by_cases hr : r = child
    · subst hr
      exact Or.inr ⟨rfl,hz,by rw [set_same]⟩
    · exact Or.inl (by rw [set_other _ _ hr])
  · rw [doWaitThread_other hz]
    exact ⟨Or.inl rfl,rfl⟩

theorem doWaitThread_found_iff (child : Word) (s : System) :
    (doWaitThread child s).2 ≠ 0 ↔ Zombie (s.pcbs child) ∧ (s.pcbs child).pid ≠ 0 := by
  by_cases hz : Zombie (s.pcbs child)
  · rw [doWaitThread_zombie hz, and_iff_right hz]
  · rw [doWaitThread_other hz]
    simp [hz]

theorem doWaitThread_keeps (child : Word) (s : System) (r : Word) :
    ((doWaitThread child s).1.pcbs r).pid = (s.pcbs r).pid ∧
    (Zombie ((doWaitThread child s).1.pcbs r) → Zombie (s.pcbs r)) := by
  rcases (doWaitThread_pcbs child s r).1 with he | ⟨_,hz,he⟩
  · rw [he]
    exact ⟨rfl,id⟩
  · rw [he]
    exact ⟨rfl,fun _ => hz⟩

section
variable (processExitStatus : Word → BitVec 32)

/-- What a round says: it reports a child that has exited and has a pid other
than zero if there is one. -/
theorem scan_reports (l : List Word) (s : System)
    (hcur : ¬ Zombie (s.pcbs s.current)) :
    (∃ child ∈ l, Zombie (s.pcbs child) ∧ (s.pcbs child).pid ≠ 0 ∧
      (scanChildren processExitStatus l s).2 =
        .reported child ((s.pcbs child).pid.setWidth 32) (processExitStatus child) ∧
      Reaped ((scanChildren processExitStatus l s).1.pcbs child)) ∨
    (∀ child ∈ l, Zombie (s.pcbs child) → (s.pcbs child).pid = 0) ∧
      (scanChildren processExitStatus l s).2 = .schedules := by
  induction l generalizing s with
  | nil => exact Or.inr ⟨by simp,rfl⟩
  | cons child rest ih =>
    obtain ⟨_,hcurrent⟩ := doWaitThread_pcbs child s s.current
    by_cases hfound : (doWaitThread child s).2 ≠ 0
    · left
      obtain ⟨hz,hpid⟩ := (doWaitThread_found_iff child s).mp hfound
      have hne : child ≠ s.current := fun he => hcur (he ▸ hz)
      rw [scanChildren, if_pos hfound, doWaitThread_zombie hz]
      refine ⟨child,List.mem_cons_self,hz,hpid,rfl,?_⟩
      rw [set_other _ _ hne, set_same]
      exact ⟨rfl,hz.2⟩
    · -- the round goes on, with the child as it was or dead with the pid zero
      have hkept := doWaitThread_keeps child s
      have hzero : Zombie (s.pcbs child) → (s.pcbs child).pid = 0 := by
        intro hz
        by_contra hpid
        exact hfound ((doWaitThread_found_iff child s).mpr ⟨hz,hpid⟩)
      have hcur' : ¬ Zombie ((doWaitThread child s).1.pcbs (doWaitThread child s).1.current) := by
        rw [hcurrent]
        exact fun hz => hcur ((hkept _).2 hz)
      rw [scanChildren, if_neg hfound]
      rcases ih (doWaitThread child s).1 hcur' with ⟨c,hc,hz,hpid,hout,hreaped⟩ | ⟨hnone,hout⟩
      · left
        rw [(hkept c).1] at hpid hout
        exact ⟨c,List.mem_cons_of_mem _ hc,(hkept c).2 hz,hpid,hout,hreaped⟩
      · right
        refine ⟨?_,hout⟩
        rw [List.forall_mem_cons]
        refine ⟨hzero,?_⟩
        intro c hc hz
        rcases (doWaitThread_pcbs child s c).1 with he | ⟨rfl,_,_⟩
        · have hc' := hnone c hc
          rw [he] at hc'
          exact hc' hz
        · exact hzero hz

theorem scan_reaped (l : List Word) (s : System) (r : Word) (hr : r ≠ s.current)
    (h : Reaped (s.pcbs r)) : Reaped ((scanChildren processExitStatus l s).1.pcbs r) := by
  induction l generalizing s with
  | nil => exact h
  | cons child rest ih =>
    obtain ⟨hstep,hcurrent⟩ := doWaitThread_pcbs child s r
    have hkept : Reaped ((doWaitThread child s).1.pcbs r) := by
      rcases hstep with he | ⟨_,_,he⟩
      · rwa [he]
      · rw [he]
        exact ⟨rfl,h.2⟩
    rw [scanChildren]
    split_ifs
    · rwa [set_other _ _ hr]
    · exact ih _ (by rwa [hcurrent]) hkept

end

theorem set_comm (s : System) (p r : Word) {f g : Pcb → Pcb} (h : ∀ b, f (g b) = g (f b)) :
    (s.set p f).set r g = (s.set r g).set p f := by
  by_cases hr : r = p
  · subst hr
    rw [set_set, set_set]
    exact set_congr s r _ _ (h _).symm
  · exact set_swap s f g hr

theorem doWaitThread_goOn (child p : Word) (point : Point) (s : System) :
    doWaitThread child (s.set p (Pcb.goOn point)) =
      ((doWaitThread child s).1.set p (Pcb.goOn point),(doWaitThread child s).2) := by
  have hstate := set_field Pcb.processState s p (Pcb.goOn point) rfl child
  have hthread := set_field Pcb.threadState s p (Pcb.goOn point) rfl child
  have hpid := set_field Pcb.pid s p (Pcb.goOn point) rfl child
  by_cases hz : Zombie (s.pcbs child)
  · rw [doWaitThread_zombie hz, doWaitThread_zombie (by
      rw [Zombie, hstate, hthread]
      exact hz), hpid]
    exact congrArg (fun x => (x,_)) (set_comm s p child (fun _ => rfl))
  · rw [doWaitThread_other hz, doWaitThread_other (by
      rw [Zombie, hstate, hthread]
      exact hz)]

theorem scan_goOn (processExitStatus : Word → BitVec 32) (l : List Word) (point : Point)
    (s : System) : scanChildren processExitStatus l (s.set s.current (Pcb.goOn point)) =
      ((scanChildren processExitStatus l s).1.set s.current (Pcb.goOn point),
        (scanChildren processExitStatus l s).2) := by
  induction l generalizing s with
  | nil => rfl
  | cons child rest ih =>
    have hcurrent := (doWaitThread_pcbs child s s.current).2
    rw [scanChildren, scanChildren, doWaitThread_goOn]
    split_ifs
    · exact congrArg (fun x => (x,_)) (set_comm _ _ _ (fun _ => rfl))
    · have hrest := ih (doWaitThread child s).1
      rwa [hcurrent] at hrest

def waitSteps : ℕ → System → Option System
  | 0, s => some s
  | n+1, s => (waitStep s).bind (waitSteps n)

def stopsAt : Waited → Point
  | .schedules => .scanned
  | _ => .user

theorem scan_steps (processExitStatus : Word → BitVec 32) {l : List Word} (i : ℕ) (s : System)
    (hpoint : (s.pcbs s.current).point = .scanning i) (hl : (s.pcbs s.current).cptr.drop i = l)
    (hne : l ≠ []) : ∃ n, waitSteps n s = some ((scanChildren processExitStatus l s).1.set s.current
      (Pcb.goOn (stopsAt (scanChildren processExitStatus l s).2))) := by
  induction l generalizing i s with
  | nil => exact absurd rfl hne
  | cons child rest ih =>
    have hget : (s.pcbs s.current).cptr[i]? = some child := by
      rw [← List.head?_drop, hl, List.head?_cons]
    have hstep : waitStep s = some (scanChild i child s) := by
      rw [waitStep, hpoint]
      dsimp only
      rw [hget, Option.map_some]
    obtain ⟨hpcb,hcurrent⟩ := doWaitThread_pcbs child s s.current
    have hcptr : ((doWaitThread child s).1.pcbs s.current).cptr = (s.pcbs s.current).cptr := by
      rcases hpcb with he | ⟨_,_,he⟩ <;> rw [he]
    rw [scanChildren]
    rw [scanChild] at hstep
    by_cases hfound : (doWaitThread child s).2 ≠ 0
    · rw [if_pos hfound] at hstep ⊢
      refine ⟨1,?_⟩
      rw [waitSteps, hstep, Option.bind_some, waitSteps, set_set]
      rfl
    · rw [if_neg hfound] at hstep ⊢
      have hdrop : (s.pcbs s.current).cptr.drop (i+1) = rest := by
        rw [← List.drop_drop, hl, List.drop_one, List.tail_cons]
      have hlen : (s.pcbs s.current).cptr.length = i+1+rest.length := by
        have hlength := congrArg List.length hl
        rw [List.length_drop, List.length_cons] at hlength
        omega
      rw [hcptr, hlen] at hstep
      cases rest with
      | nil =>
        rw [List.length_nil, if_neg (by omega)] at hstep
        exact ⟨1,by rw [waitSteps, hstep, Option.bind_some]; rfl⟩
      | cons next rest =>
        rw [List.length_cons, if_pos (by omega)] at hstep
        have hgo := scan_goOn processExitStatus (next::rest) (.scanning (i+1))
          (doWaitThread child s).1
        rw [hcurrent] at hgo
        obtain ⟨n,hn⟩ := ih (i+1)
          ((doWaitThread child s).1.set s.current (Pcb.goOn (.scanning (i+1))))
          (by rw [set_current, hcurrent, set_same]; rfl)
          (by
            rw [set_current, hcurrent, set_same]
            exact hcptr ▸ hdrop)
          (by simp)
        rw [hgo, set_current, hcurrent, set_set] at hn
        exact ⟨n+1,by rw [waitSteps, hstep, Option.bind_some, hn]; rfl⟩

theorem waitRound_steps (processExitStatus : Word → BitVec 32) (s : System)
    (hchildren : (s.pcbs s.current).cptr ≠ []) : ∃ n, waitSteps n (sysWait s) =
      some ((waitRound processExitStatus s).1.set s.current
        (Pcb.goOn (stopsAt (waitRound processExitStatus s).2))) := by
  have hmarked : waitStep (sysWait s) = some ((s.set s.current (Pcb.mark .normal .waiting)).set
      s.current (Pcb.goOn (.scanning 0))) := by
    rw [sysWait, if_neg hchildren, waitStep, set_current, set_same, set_set]
    dsimp only [Pcb.goOn]
    rw [set_set]
    rfl
  have hgo := scan_goOn processExitStatus (s.pcbs s.current).cptr (.scanning 0)
    (s.set s.current (Pcb.mark .normal .waiting))
  rw [set_current] at hgo
  obtain ⟨n,hn⟩ := scan_steps processExitStatus 0
    ((s.set s.current (Pcb.mark .normal .waiting)).set s.current (Pcb.goOn (.scanning 0)))
    (by rw [set_current, set_current, set_same]; rfl) (by
      rw [set_current, set_current, set_same, set_same, List.drop_zero]
      rfl) hchildren
  rw [hgo, set_current, set_current] at hn
  rw [waitRound, if_neg hchildren]
  refine ⟨n+1,?_⟩
  rw [waitSteps, hmarked, Option.bind_some, hn]
  dsimp only
  rw [set_set]
  rfl

structure Reports (processExitStatus : Word → BitVec 32) (s : System) : Prop where
  zombie : (∃ child ∈ (s.pcbs s.current).cptr, Zombie (s.pcbs child)) →
    ∃ child ∈ (s.pcbs s.current).cptr, Zombie (s.pcbs child) ∧
      (waitRound processExitStatus s).2 =
        .reported child ((s.pcbs child).pid.setWidth 32) (processExitStatus child) ∧
      Reaped ((waitRound processExitStatus s).1.pcbs child)
  nobody : (∀ child ∈ (s.pcbs s.current).cptr, Reaped (s.pcbs child)) →
    (waitRound processExitStatus s).2 = .refused

def Reportable (s : System) : Prop :=
  ((∃ child ∈ (s.pcbs s.current).cptr, Zombie (s.pcbs child)) →
    ∃ child ∈ (s.pcbs s.current).cptr, Zombie (s.pcbs child) ∧ (s.pcbs child).pid ≠ 0) ∧
  ((∀ child ∈ (s.pcbs s.current).cptr, Reaped (s.pcbs child)) → (s.pcbs s.current).cptr = [])

inductive Waits : System → List Word → Prop
  | done (s : System) : Waits s []
  | reports (processExitStatus : Word → BitVec 32) (s : System) (child : Word)
      (pid status : BitVec 32) (l : List Word) :
      (s.pcbs s.current).processState = .normal →
      (waitRound processExitStatus s).2 = .reported child pid status →
      Waits (waitRound processExitStatus s).1 l → Waits s (child::l)
  | silent (processExitStatus : Word → BitVec 32) (s : System) (l : List Word) :
      (s.pcbs s.current).processState = .normal →
      (∀ child pid status, (waitRound processExitStatus s).2 ≠ .reported child pid status) →
      Waits (waitRound processExitStatus s).1 l → Waits s l
  | other (s s' : System) (l : List Word) :
      (∀ p, Reaped (s.pcbs p) → Reaped (s'.pcbs p)) → Waits s' l → Waits s l

section
variable (processExitStatus : Word → BitVec 32) (s : System)
  (hcur : (s.pcbs s.current).processState = .normal)
include hcur

theorem marked_zombie (r : Word) :
    (Zombie ((s.set s.current (Pcb.mark .normal .waiting)).pcbs r) ↔ Zombie (s.pcbs r)) ∧
    ((s.set s.current (Pcb.mark .normal .waiting)).pcbs r).pid = (s.pcbs r).pid := by
  by_cases hr : r = s.current
  · subst hr
    rw [set_same]
    refine ⟨iff_of_false (fun h => by cases h.1) (fun h => ?_),rfl⟩
    rw [Zombie, hcur] at h
    cases h.1
  · rw [set_other _ _ hr]
    exact ⟨Iff.rfl,rfl⟩

theorem round_reports (hchildren : (s.pcbs s.current).cptr ≠ []) :
    (∃ child ∈ (s.pcbs s.current).cptr, Zombie (s.pcbs child) ∧ (s.pcbs child).pid ≠ 0 ∧
      (waitRound processExitStatus s).2 =
        .reported child ((s.pcbs child).pid.setWidth 32) (processExitStatus child) ∧
      Reaped ((waitRound processExitStatus s).1.pcbs child)) ∨
    (∀ child ∈ (s.pcbs s.current).cptr, Zombie (s.pcbs child) → (s.pcbs child).pid = 0) ∧
      (waitRound processExitStatus s).2 = .schedules := by
  have hmark := marked_zombie s hcur
  have hscan := scan_reports processExitStatus (s.pcbs s.current).cptr
    (s.set s.current (Pcb.mark .normal .waiting)) (by
      rw [set_current, set_same]
      exact fun h => by cases h.1)
  rw [waitRound, if_neg hchildren]
  simpa only [hmark] using hscan

theorem round_reaped {r : Word} (h : Reaped (s.pcbs r)) :
    Reaped ((waitRound processExitStatus s).1.pcbs r) := by
  have hne : r ≠ s.current := by
    rintro rfl
    rw [Reaped, hcur] at h
    cases h.1
  rw [waitRound]
  split_ifs
  · exact h
  · apply scan_reaped processExitStatus
    · exact hne
    · rwa [set_other _ _ hne]

theorem reports_iff : Reports processExitStatus s ↔ Reportable s := by
  by_cases hchildren : (s.pcbs s.current).cptr = []
  · have hout : (waitRound processExitStatus s).2 = .refused := by rw [waitRound, if_pos hchildren]
    refine iff_of_true ⟨?_,fun _ => hout⟩ ⟨?_,fun _ => hchildren⟩
    · simp [hchildren]
    · simp [hchildren]
  · rcases round_reports processExitStatus s hcur hchildren with
      ⟨child,hc,hz,hpid,hout,hreaped⟩ | ⟨hnone,hout⟩
    · have hnot : ¬ ∀ c ∈ (s.pcbs s.current).cptr, Reaped (s.pcbs c) := by
        intro hall
        have hdead := (hall child hc).1
        rw [hz.1] at hdead
        cases hdead
      exact iff_of_true ⟨fun _ => ⟨child,hc,hz,hout,hreaped⟩,fun hall => absurd hall hnot⟩
        ⟨fun _ => ⟨child,hc,hz,hpid⟩,fun hall => absurd hall hnot⟩
    · constructor
      · intro h
        constructor
        · intro hsome
          obtain ⟨c,_,_,hreport,_⟩ := h.zombie hsome
          rw [hout] at hreport
          cases hreport
        · intro hall
          have hrefused := h.nobody hall
          rw [hout] at hrefused
          cases hrefused
      · rintro ⟨hsome,hall⟩
        constructor
        case zombie =>
          intro hz
          obtain ⟨c,hc,hzc,hpid⟩ := hsome hz
          exact absurd (hnone c hc hzc) hpid
        case nobody => exact fun hreaped => absurd (hall hreaped) hchildren

end

theorem waits_once {l : List Word} (h : Waits s l) :
    l.Nodup ∧ ∀ child ∈ l, ¬ Reaped (s.pcbs child) := by
  induction h with
  | done s => exact ⟨List.nodup_nil,by simp⟩
  | reports processExitStatus s child pid status l hcur hout _ ih =>
    obtain ⟨hnodup,hfresh⟩ := ih
    have hchildren : (s.pcbs s.current).cptr ≠ [] := by
      intro he
      rw [waitRound, if_pos he] at hout
      cases hout
    rcases round_reports processExitStatus s hcur hchildren with
      ⟨c,_,hz,_,hreport,hreaped⟩ | ⟨_,hnone⟩
    · rw [hreport] at hout
      obtain ⟨rfl,_,_⟩ := Waited.reported.inj hout
      refine ⟨List.nodup_cons.mpr ⟨fun hc => hfresh c hc hreaped,hnodup⟩,?_⟩
      intro d hd hdead
      rcases List.mem_cons.mp hd with rfl | hd
      · rw [Reaped, hz.1] at hdead
        cases hdead.1
      · exact hfresh d hd (round_reaped processExitStatus s hcur hdead)
    · rw [hnone] at hout
      cases hout
  | silent processExitStatus s l hcur _ _ ih =>
    exact ⟨ih.1,fun c hc hdead => ih.2 c hc (round_reaped processExitStatus s hcur hdead)⟩
  | other s s' l hkeep _ ih => exact ⟨ih.1,fun c hc hdead => ih.2 c hc (hkeep c hdead)⟩

/-- A wait reports as it should unless only children with the pid zero have
exited or all children have been reaped; in no sequence of waits is a child
reported twice. -/
theorem wait_reports_iff (processExitStatus : Word → BitVec 32) (s : System)
    (hcur : (s.pcbs s.current).processState = .normal) :
    (Reports processExitStatus s ↔ Reportable s) ∧ ∀ l, Waits s l → l.Nodup :=
  ⟨reports_iff processExitStatus s hcur,fun _ hl => (waits_once hl).1⟩

def parentOf (state₁ state₂ : ProcessState) : System where
  pcbs := fun p => { childPcb 0 (p.setWidth 16) with
    cptr := if p = 1 then [2,3] else []
    processState := if p = 2 then state₁ else if p = 3 then state₂ else .normal
    threadState := if p = 1 then .running else .stopped }
  made := [3,2,1,0]
  processes := fun _ => none
  current := 1
  idleTask := 0
  allproc := []
  lastPid := 3

theorem wait_reports_iff_zombie : Zombie ((parentOf .dead .zombie).pcbs 3) ∧
    Reports (fun _ => 7) (parentOf .dead .zombie) := by
  refine ⟨by decide,(wait_reports_iff (fun _ => 7) (parentOf .dead .zombie) rfl).1.mpr ?_⟩
  refine ⟨fun _ => ⟨3,by simp [parentOf],by decide,by decide⟩,fun hall => ?_⟩
  exact absurd (hall 3 (by simp [parentOf])) (by decide)

/-- A parent whose children have all been reaped waits on. -/
theorem wait_without_children_left :
    (∀ child ∈ ((parentOf .dead .dead).pcbs 1).cptr, Reaped ((parentOf .dead .dead).pcbs child)) ∧
    (waitRound (fun _ => 0) (parentOf .dead .dead)).2 = .schedules := by
  constructor
  · simp [parentOf, Reaped]
  · decide

end PreemptiveOS.WaitReports
