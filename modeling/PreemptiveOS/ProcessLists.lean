import PreemptiveOS.ProcessTree

/-!
# The lists of processes

A fork puts the new process at the end of `allproc`. An exit takes it out, puts
it at the end of `zombproc` and wakes the parent, and a wait takes it out of
`zombproc`. Both lists are searched by pid, which is the count of forks cut to
16 bits. Waking marks the parent as normal whatever it was, so that a process
that has exited, or was waited for, can run and exit again.
-/

set_option autoImplicit false

namespace PreemptiveOS.ProcessLists
open ByteMemory KernelObjects Vmas Scheduler SchedulerQueues ProcessTree

structure Ledger where
  system : System
  zombproc : List ProcList
  exited : List Word
  reaped : List Word

def samePid (s : System) (p : Word) (n : ProcList) : Bool :=
  decide ((s.pcbs n.process).pid = (s.pcbs p).pid)

def wakeParent (process : Word) (s : System) : System :=
  match (s.pcbs process).pptr with
  | none => s
  | some parent => s.set parent (Pcb.mark .normal .running)

/-- The loop of `sys_exit` inserts into `zombproc` at each match, as long as
there are frames for the nodes. -/
def enterZombproc (process : Word) (nodes : List KernelPtr) (x : Ledger) : List ProcList :=
  x.zombproc++(nodes.take (x.system.allproc.countP (samePid x.system process))).map
    (fun node => ⟨node,process⟩)

def exitProcess (process : Word) (frames : ℕ) (nodes : List KernelPtr) (x : Ledger) :
    Option Ledger :=
  if (x.system.pcbs process).pid = 0 then some x
  else (bury process frames x.system).map (fun s => {
    system := wakeParent process s
    zombproc := enterZombproc process nodes x
    exited := x.exited++[process]
    reaped := x.reaped })

def deleteFromZombproc (process : Word) (x : Ledger) : List ProcList :=
  ((deleteNode (samePid x.system process) x.zombproc).map Prod.fst).getD x.zombproc

def reapChild (child : Word) (x : Ledger) : Ledger :=
  if (x.system.pcbs child).processState = .zombie ∧ (x.system.pcbs child).threadState = .stopped then
    { system := (doWaitThread child x.system).1
      zombproc := deleteFromZombproc child x
      exited := x.exited
      reaped := x.reaped++[child] }
  else x

inductive ListEvent where
  | fork (parent child : Word) (node : Option KernelPtr)
  | exit (process : Word) (frames : ℕ) (nodes : List KernelPtr)
  | reap (parent child : Word)

def listStep (x : Ledger) : ListEvent → Option Ledger
  | .fork parent child node =>
    if parent ∈ x.system.made ∧ Alive (x.system.pcbs parent) then
      some { x with system := enlist child node (adopt parent child x.system) }
    else none
  | .exit process frames nodes =>
    if process ∈ x.system.made ∧ Alive (x.system.pcbs process) then
      exitProcess process frames nodes x
    else none
  | .reap parent child =>
    if (parent ∈ x.system.made ∧ Alive (x.system.pcbs parent)) ∧ child ∈ x.system.made ∧
        child ∈ (x.system.pcbs parent).cptr then some (reapChild child x)
    else none

def listRun : Ledger → List ListEvent → Option Ledger
  | x, [] => some x
  | x, e::es => (listStep x e).bind (fun x' => listRun x' es)

def begun (memory : Word → Pcb) (idle : Word) : Ledger := ⟨schedulerInit memory idle,[],[],[]⟩

def forked (s : System) : List Word := s.made.dropLast.reverse

structure Partitioned (x : Ledger) : Prop where
  live : x.system.allproc.map ProcList.process =
    (forked x.system).filter (fun p => decide (p ∉ x.exited))
  zombies : x.zombproc.map ProcList.process = x.exited.filter (fun p => decide (p ∉ x.reaped))
  once : ∀ p ∈ forked x.system, ((x.system.allproc++x.zombproc).map ProcList.process).count p =
    if p ∈ x.reaped then 0 else 1

def Supplied (x : Ledger) : ListEvent → Prop
  | .fork _ child node => child ∉ x.system.made ∧ node.isSome ∧
    ∀ p ∈ forked x.system, (x.system.pcbs p).pid ≠ (x.system.lastPid+1).setWidth 16
  | .exit _ _ nodes => nodes ≠ []
  | .reap _ _ => True

def FirstExit (x : Ledger) : ListEvent → Prop
  | .exit process _ _ => process ∉ x.exited
  | _ => True

def RunMeets (P : Ledger → ListEvent → Prop) : Ledger → List ListEvent → Prop
  | _, [] => True
  | x, e::es => P x e ∧ ∀ x', listStep x e = some x' → RunMeets P x' es

theorem wake_field {α : Type} (g : Pcb → α) (hg : ∀ b, g (b.mark .normal .running) = g b)
    (p : Word) (s : System) (r : Word) : g ((wakeParent p s).pcbs r) = g (s.pcbs r) := by
  rw [wakeParent]
  cases (s.pcbs p).pptr with
  | none => rfl
  | some parent => exact set_field g s parent _ (hg _) r

theorem wake_made (p : Word) (s : System) : (wakeParent p s).made = s.made := by
  rw [wakeParent]
  cases (s.pcbs p).pptr <;> rfl

theorem wake_allproc (p : Word) (s : System) : (wakeParent p s).allproc = s.allproc := by
  rw [wakeParent]
  cases (s.pcbs p).pptr <;> rfl

theorem wake_lastPid (p : Word) (s : System) : (wakeParent p s).lastPid = s.lastPid := by
  rw [wakeParent]
  cases (s.pcbs p).pptr <;> rfl

variable {s : System} {p r : Word}

theorem wake_zombie (hz : ((wakeParent p s).pcbs r).processState = .zombie) :
    (s.pcbs r).processState = .zombie := by
  rw [wakeParent] at hz
  cases hp : (s.pcbs p).pptr with
  | none => rwa [hp] at hz
  | some parent =>
    rw [hp] at hz
    by_cases hr : r = parent
    · subst hr
      rw [set_same] at hz
      cases hz
    · rwa [set_other _ _ hr] at hz

variable {s' : System} {frames : ℕ}

theorem exit_pcbs (hs : bury p frames s = some s') :
    (∀ r, ((wakeParent p s').pcbs r).pid = (s.pcbs r).pid) ∧
    ∀ r, ((wakeParent p s').pcbs r).processState = .zombie → r = p ∨
      (s.pcbs r).processState = .zombie := by
  have hb := bury_effect hs
  constructor
  · intro r
    rw [wake_field Pcb.pid (fun _ => rfl)]
    exact (congrArg Pcb.pid (hb.pcbs r)).trans (set_field Pcb.pid s p _ rfl r)
  · intro r hz
    by_cases hr : r = p
    · exact Or.inl hr
    · have hstate := congrArg Pcb.processState (hb.pcbs r)
      rw [set_other _ _ hr] at hstate
      exact Or.inr (hstate.symm.trans (wake_zombie hz))

def forkNumber : List Word → Word → ℕ
  | [], _ => 0
  | child::made, r => if r = child then made.length else forkNumber made r

theorem forkNumber_lt {made : List Word} (hr : r ∈ made) : forkNumber made r < made.length := by
  induction made with
  | nil => cases hr
  | cons child made ih =>
    rw [forkNumber, List.length_cons]
    split
    · exact Nat.lt_succ_self _
    · rename_i hne
      exact (ih (List.mem_of_ne_of_mem hne hr)).trans (Nat.lt_succ_self _)

structure Numbered (x : Ledger) : Prop where
  count : x.system.lastPid+1 = BitVec.ofNat 32 x.system.made.length
  pids : ∀ r ∈ x.system.made,
    (x.system.pcbs r).pid = BitVec.ofNat 16 (forkNumber x.system.made r)
  listed : ∀ n ∈ x.system.allproc++x.zombproc, n.process ∈ x.system.made

theorem numbered_begun (memory : Word → Pcb) (idle : Word) : Numbered (begun memory idle) := by
  constructor
  case count => rfl
  case pids =>
    intro r hr
    rw [List.mem_singleton.mp hr]
    simp [begun, schedulerInit, idlePcb, forkNumber]
  case listed => simp [begun, schedulerInit]

variable {x' : Ledger} {e : ListEvent}

section
variable {x : Ledger} (h : Numbered x)
include h

theorem new_pid : (x.system.lastPid+1).setWidth 16 = BitVec.ofNat 16 x.system.made.length := by
  rw [h.count]
  apply BitVec.eq_of_toNat_eq
  rw [BitVec.toNat_setWidth, BitVec.toNat_ofNat, BitVec.toNat_ofNat]
  omega

theorem numbered_fork (parent child : Word) (node : Option KernelPtr) :
    Numbered { x with system := enlist child node (adopt parent child x.system) } := by
  constructor
  case count =>
    show x.system.lastPid+1+1 = BitVec.ofNat 32 (x.system.made.length+1)
    rw [h.count, BitVec.ofNat_add]
    rfl
  case pids =>
    intro r hr
    show ((adopt parent child x.system).pcbs r).pid =
      BitVec.ofNat 16 (if r = child then x.system.made.length else forkNumber x.system.made r)
    by_cases hc : r = child
    · rw [if_pos hc, hc, adopt_new]
      exact new_pid h
    · rw [if_neg hc, adopt_field Pcb.pid (fun _ _ => rfl) parent x.system hc]
      exact h.pids r (List.mem_of_ne_of_mem hc hr)
  case listed =>
    intro n hn
    show n.process ∈ child::x.system.made
    rcases List.mem_append.mp hn with hn | hn
    · rcases List.mem_append.mp hn with hn | hn
      · exact List.mem_cons_of_mem _ (h.listed n (List.mem_append_left _ hn))
      · obtain ⟨k,_,rfl⟩ := List.mem_map.mp hn
        exact List.mem_cons_self
    · exact List.mem_cons_of_mem _ (h.listed n (List.mem_append_right _ hn))

theorem numbered_exit (nodes : List KernelPtr) (hp : p ∈ x.system.made)
    (hs : bury p frames x.system = some s') :
    Numbered ⟨wakeParent p s',enterZombproc p nodes x,x.exited++[p],x.reaped⟩ := by
  have hb := bury_effect hs
  have hmade : (wakeParent p s').made = x.system.made := (wake_made p s').trans hb.made
  constructor
  case count =>
    rw [hmade, wake_lastPid, hb.lastPid]
    exact h.count
  case pids =>
    intro r hr
    rw [hmade] at hr ⊢
    rw [(exit_pcbs hs).1]
    exact h.pids r hr
  case listed =>
    intro n hn
    rw [hmade]
    rcases List.mem_append.mp hn with hn | hn
    · rw [wake_allproc, hb.allproc] at hn
      exact h.listed n (List.mem_append_left _ ((leaveAllproc_sublist p x.system).subset hn))
    · rcases List.mem_append.mp hn with hn | hn
      · exact h.listed n (List.mem_append_right _ hn)
      · obtain ⟨k,_,rfl⟩ := List.mem_map.mp hn
        exact hp

theorem numbered_reap (child : Word) : Numbered (reapChild child x) := by
  rw [reapChild]
  split
  · rename_i hz
    rw [doWaitThread, if_pos hz]
    constructor
    case count => exact h.count
    case pids =>
      intro r hr
      rw [set_field Pcb.pid x.system child _ rfl]
      exact h.pids r hr
    case listed =>
      intro n hn
      rcases List.mem_append.mp hn with hn | hn
      · exact h.listed n (List.mem_append_left _ hn)
      · exact h.listed n (List.mem_append_right _ ((deleteNode_sublist _ _).subset hn))
  · exact h

theorem numbered_step (hs : listStep x e = some x') : Numbered x' := by
  cases e with
  | fork parent child node =>
    rw [listStep] at hs
    split at hs
    · obtain rfl := Option.some.inj hs
      exact numbered_fork h parent child node
    · cases hs
  | exit process frames nodes =>
    rw [listStep] at hs
    split at hs
    · rename_i hp
      rw [exitProcess] at hs
      split at hs
      · obtain rfl := Option.some.inj hs
        exact h
      · obtain ⟨s',hs',rfl⟩ := Option.map_eq_some_iff.mp hs
        exact numbered_exit h nodes hp.1 hs'
    · cases hs
  | reap parent child =>
    rw [listStep] at hs
    split at hs
    · obtain rfl := Option.some.inj hs
      exact numbered_reap h child
    · cases hs

end

variable {es : List ListEvent}

theorem numbered_run (x : Ledger) (h : Numbered x) (hs : listRun x es = some x') : Numbered x' := by
  induction es generalizing x with
  | nil =>
    obtain rfl := Option.some.inj hs
    exact h
  | cons e es ih =>
    obtain ⟨x₁,hx₁,hs⟩ := Option.bind_eq_some_iff.mp hs
    exact ih x₁ (numbered_step h hx₁) hs

def NewPid (x : Ledger) (pid : BitVec 16) : Prop :=
  pid ≠ 0 ∧ ∀ n ∈ x.system.allproc++x.zombproc, (x.system.pcbs n.process).pid ≠ pid

variable {x : Ledger} {child : Word}

theorem fork_pid (h : Numbered x) {parent : Word} {node : Option KernelPtr}
    (hs : listStep x (.fork parent child node) = some x') :
    (x'.system.pcbs child).pid = BitVec.ofNat 16 x.system.made.length := by
  rw [listStep] at hs
  split at hs
  · obtain rfl := Option.some.inj hs
    show ((adopt parent child x.system).pcbs child).pid = _
    rw [adopt_new]
    exact new_pid h
  · cases hs

theorem ofNat_eq_iff (m n : ℕ) :
    BitVec.ofNat 16 m = BitVec.ofNat 16 n ↔ m%65536 = n%65536 := by
  rw [← BitVec.toNat_inj, BitVec.toNat_ofNat, BitVec.toNat_ofNat]

/-- The pid of a fork is new exactly when the number of the fork is not a
multiple of 65536 and no listed process was made a multiple of 65536 forks before. -/
theorem fork_pid_new_iff (memory : Word → Pcb) (idle : Word) (es : List ListEvent) (x x' : Ledger)
    (hx : listRun (begun memory idle) es = some x) (parent child : Word) (node : Option KernelPtr)
    (hs : listStep x (.fork parent child node) = some x') :
    NewPid x (x'.system.pcbs child).pid ↔
      x.system.made.length%65536 ≠ 0 ∧ ∀ n ∈ x.system.allproc++x.zombproc,
        forkNumber x.system.made n.process%65536 ≠ x.system.made.length%65536 := by
  have h := numbered_run _ (numbered_begun memory idle) hx
  rw [fork_pid h hs, NewPid]
  apply and_congr
  · rw [Ne, show (0 : BitVec 16) = BitVec.ofNat 16 0 from rfl, ofNat_eq_iff]
  · apply forall₂_congr
    intro n hn
    rw [h.pids _ (h.listed n hn), Ne, ofNat_eq_iff]

def place : Option KernelPtr := some (kernelPtr 0x9000)

def firstLedger : Ledger := begun (fun _ => childPcb 0 0) 0x1000

/-- The second fork. -/
theorem fork_pid_new_second : ∃ x x', listRun firstLedger [.fork 0x1000 0x2000 place] = some x ∧
    listStep x (.fork 0x2000 0x3000 place) = some x' ∧ NewPid x (x'.system.pcbs 0x3000).pid := by
  refine ⟨_,_,rfl,rfl,?_⟩
  refine (fork_pid_new_iff (fun _ => childPcb 0 0) 0x1000 [.fork 0x1000 0x2000 place] _ _ rfl 0x2000
    0x3000 place rfl).mpr ⟨by decide,?_⟩
  intro n hn
  obtain rfl := List.mem_singleton.mp hn
  decide

def forks (n : ℕ) : List ListEvent :=
  (List.range n).map (fun i => .fork 0x1000 (BitVec.ofNat 64 (0x2000+4096*i)) place)

theorem listRun_append (es es' : List ListEvent) (x : Ledger) :
    listRun x (es++es') = (listRun x es).bind (fun x' => listRun x' es') := by
  induction es generalizing x with
  | nil => rfl
  | cons e es ih =>
    rw [List.cons_append, listRun, listRun, Option.bind_assoc]
    congr 1
    funext x'
    exact ih x'

theorem forks_run (n : ℕ) : ∃ x, listRun firstLedger (forks n) = some x ∧
    x.system.made.length = n+1 ∧ 0x1000 ∈ x.system.made ∧ Alive (x.system.pcbs 0x1000) := by
  induction n with
  | zero => exact ⟨firstLedger,rfl,rfl,by decide,by decide⟩
  | succ n ih =>
    obtain ⟨x,hrun,hlen,hmem,halive⟩ := ih
    have hforks : forks (n+1) = forks n++[.fork 0x1000 (BitVec.ofNat 64 (0x2000+4096*n)) place] := by
      rw [forks, List.range_succ, List.map_append]
      rfl
    generalize BitVec.ofNat 64 (0x2000+4096*n) = child at hforks
    have hstep : listStep x (.fork 0x1000 child place) =
      some { x with system := enlist child place (adopt 0x1000 child x.system) } :=
      if_pos ⟨hmem,halive⟩
    refine ⟨{ x with system := enlist child place (adopt 0x1000 child x.system) },?_,?_,?_,?_⟩
    · rw [hforks, listRun_append, hrun, Option.bind_some, listRun, hstep]
      rfl
    · show x.system.made.length+1 = _
      rw [hlen]
    · exact List.mem_cons_of_mem _ hmem
    · show Alive ((adopt 0x1000 child x.system).pcbs 0x1000)
      by_cases hc : 0x1000 = child
      · rw [← hc, adopt_new]
        exact ⟨by simp [childPcb],by simp [childPcb]⟩
      · rw [Alive, adopt_field Pcb.processState (fun _ _ => rfl) _ _ hc]
        exact halive

/-- The fork with the number 65536 gets the pid of the idle task. -/
theorem fork_pid_comes_round : ∃ x x', listRun firstLedger (forks 65535) = some x ∧
    listStep x (.fork 0x1000 0x70000000 place) = some x' ∧
    (x'.system.pcbs 0x70000000).pid = 0 ∧ ¬ NewPid x (x'.system.pcbs 0x70000000).pid := by
  obtain ⟨x,hrun,hlen,hmem,halive⟩ := forks_run 65535
  have hstep : listStep x (.fork 0x1000 0x70000000 place) = some _ := if_pos ⟨hmem,halive⟩
  have hpid := fork_pid (numbered_run _ (numbered_begun _ _) hrun) hstep
  rw [hlen] at hpid
  refine ⟨x,_,hrun,hstep,hpid,?_⟩
  rw [hpid]
  exact fun hnew => hnew.1 rfl

structure Filed (x : Ledger) : Prop where
  nonempty : x.system.made ≠ []
  nodup : x.system.made.Nodup
  first : ∀ p ∈ x.system.made, p ∈ forked x.system ∨ (x.system.pcbs p).pid = 0
  pids : ∀ p ∈ forked x.system, ∀ q ∈ forked x.system,
    (x.system.pcbs p).pid = (x.system.pcbs q).pid → p = q
  live : x.system.allproc.map ProcList.process =
    (forked x.system).filter (fun p => decide (p ∉ x.exited))
  zombies : x.zombproc.map ProcList.process = x.exited.filter (fun p => decide (p ∉ x.reaped))
  exits : x.exited.Nodup ∧ ∀ p ∈ x.exited, p ∈ forked x.system
  reaps : ∀ p ∈ x.reaped, p ∈ x.exited
  states : ∀ p ∈ x.system.made, (x.system.pcbs p).processState = .zombie →
    p ∈ x.exited ∧ p ∉ x.reaped

theorem filed_begun (memory : Word → Pcb) (idle : Word) : Filed (begun memory idle) := by
  have hpid : ((schedulerInit memory idle).pcbs idle).pid = 0 := by
    simp [schedulerInit, idlePcb]
  have hstate : ((schedulerInit memory idle).pcbs idle).processState = .normal := by
    simp [schedulerInit, idlePcb]
  have hmem : ∀ p ∈ (begun memory idle).system.made, p = idle := fun p hp => List.mem_singleton.mp hp
  constructor
  case nonempty => exact List.cons_ne_nil _ _
  case nodup => exact List.nodup_singleton _
  case first =>
    intro p hp
    rw [hmem p hp]
    exact Or.inr hpid
  case states =>
    intro p hp hz
    rw [hmem p hp] at hz
    rw [show ((begun memory idle).system.pcbs idle).processState = .normal from hstate] at hz
    cases hz
  all_goals simp [begun, schedulerInit, forked]

theorem filed_partitioned (h : Filed x) : Partitioned x := by
  have hforked : (forked x.system).Nodup :=
    List.nodup_reverse.mpr (h.nodup.sublist (List.dropLast_sublist _))
  constructor
  case live => exact h.live
  case zombies => exact h.zombies
  case once =>
    intro p hp
    rw [List.map_append, List.count_append, h.live, h.zombies, (hforked.filter _).count,
      (h.exits.1.filter _).count]
    simp only [List.mem_filter, decide_eq_true_eq, hp, true_and]
    by_cases hr : p ∈ x.reaped
    · simp [hr, h.reaps p hr]
    · by_cases he : p ∈ x.exited <;> simp [hr, he]

theorem forked_fork (parent child : Word) (node : Option KernelPtr) (h : s.made ≠ []) :
    forked (enlist child node (adopt parent child s)) = forked s++[child] := by
  show (child::s.made).dropLast.reverse = s.made.dropLast.reverse++[child]
  rw [List.dropLast_cons_of_ne_nil h, List.reverse_cons]

theorem forked_mem (s : System) (p : Word) (hp : p ∈ forked s) : p ∈ s.made :=
  (List.dropLast_sublist _).subset (List.mem_reverse.mp hp)

theorem forked_congr (h : s'.made = s.made) : forked s' = forked s := by
  rw [forked, forked, h]

variable {l : List ProcList}

theorem strike_map (hl : ∀ n ∈ l, (s.pcbs n.process).pid = (s.pcbs p).pid → n.process = p) :
    (l.filter (fun n => !samePid s p n)).map ProcList.process =
      (l.map ProcList.process).filter (fun q => decide (q ≠ p)) := by
  rw [List.filter_map]
  congr 1
  apply List.filter_congr
  intro n hn
  by_cases he : n.process = p
  · simp [samePid, he]
  · have hne : (s.pcbs n.process).pid ≠ (s.pcbs p).pid := fun hp => he (hl n hn hp)
    simp [samePid, hne, he]

theorem filter_append_one (l done : List Word) (p : Word) :
    (l.filter (fun q => decide (q ∉ done))).filter (fun q => decide (q ≠ p)) =
      l.filter (fun q => decide (q ∉ done++[p])) := by
  rw [List.filter_filter]
  congr 1
  funext q
  by_cases hd : q ∈ done <;> by_cases hq : q = p <;> simp [hd, hq]

variable {nodes : List KernelPtr} {n : ProcList}

section
variable {x : Ledger} (h : Filed x)
include h

theorem filed_fork (parent : Word) (node : KernelPtr) (hnew : child ∉ x.system.made)
    (hpid : ∀ p ∈ forked x.system, (x.system.pcbs p).pid ≠ (x.system.lastPid+1).setWidth 16) :
    Filed { x with system := enlist child (some node) (adopt parent child x.system) } := by
  have hforked := forked_fork parent child (some node) h.nonempty
  have hmem : ∀ p ∈ forked x.system++[child], p = child ∨ p ∈ forked x.system := by
    intro p hp
    rwa [List.mem_append, List.mem_singleton, or_comm] at hp
  constructor
  case nonempty => exact List.cons_ne_nil _ _
  case nodup => exact List.nodup_cons.mpr ⟨hnew,h.nodup⟩
  case first =>
    intro p hp
    rw [hforked]
    rcases List.mem_cons.mp hp with rfl | hp
    · exact Or.inl (by simp)
    · rcases h.first p hp with hf | hz
      · exact Or.inl (List.mem_append_left _ hf)
      · exact Or.inr ((adopt_made parent child hnew Pcb.pid (fun _ _ => rfl) p hp).trans hz)
  case pids =>
    rw [hforked]
    intro p hp q hq
    exact adopt_pids parent child hnew _ (forked_mem _) h.pids hpid p q (hmem p hp) (hmem q hq)
  case live =>
    have hout : child ∉ x.exited := fun he => hnew (forked_mem _ _ (h.exits.2 _ he))
    rw [hforked, List.filter_append, ← h.live]
    simp [enlist, adopt, hout]
  case zombies => exact h.zombies
  case exits =>
    rw [hforked]
    exact ⟨h.exits.1,fun p hp => List.mem_append_left _ (h.exits.2 p hp)⟩
  case reaps => exact h.reaps
  case states =>
    intro p hp hz
    change ((adopt parent child x.system).pcbs p).processState = .zombie at hz
    rcases List.mem_cons.mp hp with rfl | hp
    · rw [adopt_new] at hz
      cases hz
    · rw [adopt_made parent child hnew Pcb.processState (fun _ _ => rfl) p hp] at hz
      exact h.states p hp hz

theorem listed_forked (hn : n ∈ x.system.allproc) :
    n.process ∈ forked x.system ∧ n.process ∉ x.exited := by
  have hm : n.process ∈ x.system.allproc.map ProcList.process := List.mem_map.mpr ⟨n,hn,rfl⟩
  rw [h.live, List.mem_filter] at hm
  exact ⟨hm.1,of_decide_eq_true hm.2⟩

theorem listed_zombie (hn : n ∈ x.zombproc) : n.process ∈ x.exited := by
  have hm : n.process ∈ x.zombproc.map ProcList.process := List.mem_map.mpr ⟨n,hn,rfl⟩
  rw [h.zombies, List.mem_filter] at hm
  exact hm.1

theorem samePid_once (p : Word) (hl : ∀ n ∈ l, n.process ∈ forked x.system)
    (hd : (l.map ProcList.process).Nodup) : l.Pairwise (fun m n =>
      ¬ (samePid x.system p m = true ∧ samePid x.system p n = true)) := by
  apply List.Pairwise.imp_of_mem _ (List.pairwise_map.mp hd)
  intro m n hm hn hne hdead
  rw [samePid, samePid, decide_eq_true_eq, decide_eq_true_eq] at hdead
  exact hne (h.pids _ (hl m hm) _ (hl n hn) (hdead.1.trans hdead.2.symm))

theorem allproc_nodup : (x.system.allproc.map ProcList.process).Nodup := by
  rw [h.live]
  exact (List.nodup_reverse.mpr (h.nodup.sublist (List.dropLast_sublist _))).filter _

theorem leave_live (hp : p ∈ forked x.system) :
    ((leaveAllproc p x.system).allproc).map ProcList.process =
      (forked x.system).filter (fun q => decide (q ∉ x.exited++[p])) := by
  have hone := samePid_once h p (fun n hn => (listed_forked h hn).1) (allproc_nodup h)
  have hvisit : (leaveAllproc p x.system).allproc =
      x.system.allproc.filter (fun n => !samePid x.system p n) := visit_filter hone
  have hpid : ∀ n ∈ x.system.allproc,
      (x.system.pcbs n.process).pid = (x.system.pcbs p).pid → n.process = p :=
    fun n hn => h.pids _ (listed_forked h hn).1 _ hp
  rw [hvisit, strike_map hpid, h.live, filter_append_one]

theorem enter_zombies (hp : p ∈ forked x.system) (hout : p ∉ x.exited) (hnodes : nodes ≠ []) :
    (enterZombproc p nodes x).map ProcList.process =
      (x.exited++[p]).filter (fun q => decide (q ∉ x.reaped)) := by
  have hcount : x.system.allproc.countP (samePid x.system p) = 1 := by
    have hmatch : ∀ n ∈ x.system.allproc,
        samePid x.system p n = true ↔ (ProcList.process n == p) = true := by
      intro n hn
      rw [samePid, decide_eq_true_eq, beq_iff_eq]
      exact ⟨h.pids _ (listed_forked h hn).1 _ hp,fun he => by rw [he]⟩
    have hmem : p ∈ x.system.allproc.map ProcList.process := by
      rw [h.live, List.mem_filter]
      exact ⟨hp,decide_eq_true hout⟩
    have hmap : (x.system.allproc.map ProcList.process).count p =
        x.system.allproc.countP (fun n => n.process == p) := List.countP_map
    rw [List.countP_congr hmatch, ← hmap]
    exact List.count_eq_one_of_mem (allproc_nodup h) hmem
  obtain ⟨node,rest,rfl⟩ := List.exists_cons_of_ne_nil hnodes
  have hkept : p ∉ x.reaped := fun hr => hout (h.reaps p hr)
  rw [enterZombproc, hcount, List.map_append, h.zombies, List.filter_append]
  simp [hkept]

theorem filed_exit (hp : p ∈ x.system.made) (hpid : (x.system.pcbs p).pid ≠ 0)
    (hnodes : nodes ≠ []) (hout : p ∉ x.exited) (hs : bury p frames x.system = some s') :
    Filed ⟨wakeParent p s',enterZombproc p nodes x,x.exited++[p],x.reaped⟩ := by
  have hb := bury_effect hs
  obtain ⟨hpids,hstates⟩ := exit_pcbs hs
  have hin : p ∈ forked x.system := (h.first p hp).resolve_right hpid
  have hmade : (wakeParent p s').made = x.system.made := (wake_made p s').trans hb.made
  have hforked := forked_congr hmade
  constructor
  case nonempty => exact hmade ▸ h.nonempty
  case nodup => exact hmade ▸ h.nodup
  case first =>
    intro q hq
    rw [hforked, hpids]
    exact h.first q (hmade ▸ hq)
  case pids =>
    rw [hforked]
    intro q hq r hr he
    rw [hpids, hpids] at he
    exact h.pids q hq r hr he
  case live =>
    rw [hforked, wake_allproc, hb.allproc]
    exact leave_live h hin
  case zombies => exact enter_zombies h hin hout hnodes
  case exits =>
    rw [hforked]
    constructor
    · rw [List.nodup_append]
      refine ⟨h.exits.1,List.nodup_singleton p,?_⟩
      intro a ha b hb' he
      rw [List.mem_singleton.mp hb'] at he
      exact hout (he ▸ ha)
    · intro q hq
      rcases List.mem_append.mp hq with hq | hq
      · exact h.exits.2 q hq
      · rwa [List.mem_singleton.mp hq]
  case reaps => exact fun q hq => List.mem_append_left _ (h.reaps q hq)
  case states =>
    intro q hq hz
    rcases hstates q hz with rfl | hz
    · exact ⟨by simp,fun hr => hout (h.reaps q hr)⟩
    · obtain ⟨he,hr⟩ := h.states q (hmade ▸ hq) hz
      exact ⟨List.mem_append_left _ he,hr⟩

theorem strike_zombies (he : child ∈ x.exited) (hr : child ∉ x.reaped) :
    (deleteFromZombproc child x).map ProcList.process =
      x.exited.filter (fun q => decide (q ∉ x.reaped++[child])) := by
  have hlisted : ∀ n ∈ x.zombproc, n.process ∈ forked x.system :=
    fun n hn => h.exits.2 _ (listed_zombie h hn)
  have hone := samePid_once h child hlisted (h.zombies ▸ h.exits.1.filter _)
  have hmem : child ∈ x.zombproc.map ProcList.process := by
    rw [h.zombies, List.mem_filter]
    exact ⟨he,decide_eq_true hr⟩
  obtain ⟨n,hn,hnc⟩ := List.mem_map.mp hmem
  have hfound : ∃ n ∈ x.zombproc, samePid x.system child n = true :=
    ⟨n,hn,by rw [samePid, hnc]; exact decide_eq_true rfl⟩
  have hpid : ∀ n ∈ x.zombproc,
      (x.system.pcbs n.process).pid = (x.system.pcbs child).pid → n.process = child :=
    fun n hn => h.pids _ (hlisted n hn) _ (h.exits.2 child he)
  rw [deleteFromZombproc, deleteNode_filter hone hfound, strike_map hpid,
    h.zombies, filter_append_one]

theorem filed_reap (hc : child ∈ x.system.made) : Filed (reapChild child x) := by
  rw [reapChild]
  split
  · rename_i hz
    obtain ⟨he,hr⟩ := h.states child hc hz.1
    have hpids := set_field Pcb.pid x.system child (fun b => { b with processState := .dead }) rfl
    rw [doWaitThread, if_pos hz]
    constructor
    case nonempty => exact h.nonempty
    case nodup => exact h.nodup
    case first =>
      intro p hp
      rw [hpids]
      exact h.first p hp
    case pids =>
      intro p hp q hq
      rw [hpids, hpids]
      exact h.pids p hp q hq
    case live => exact h.live
    case zombies => exact strike_zombies h he hr
    case exits => exact h.exits
    case reaps =>
      intro p hp
      rcases List.mem_append.mp hp with hp | hp
      · exact h.reaps p hp
      · rwa [List.mem_singleton.mp hp]
    case states =>
      intro p hp hpz
      by_cases hpc : p = child
      · subst hpc
        rw [set_same] at hpz
        cases hpz
      · rw [set_other _ _ hpc] at hpz
        obtain ⟨hpe,hpr⟩ := h.states p hp hpz
        refine ⟨hpe,?_⟩
        rw [List.mem_append, not_or, List.mem_singleton]
        exact ⟨hpr,hpc⟩
  · exact h

theorem filed_step (hsupply : Supplied x e) (hfirst : FirstExit x e) (hs : listStep x e = some x') :
    Filed x' := by
  cases e with
  | fork parent child node =>
    rw [listStep] at hs
    split at hs
    · obtain rfl := Option.some.inj hs
      obtain ⟨hnew,hnode,hpid⟩ := hsupply
      obtain ⟨k,rfl⟩ := Option.isSome_iff_exists.mp hnode
      exact filed_fork h parent k hnew hpid
    · cases hs
  | exit process frames nodes =>
    rw [listStep] at hs
    split at hs
    · rename_i hp
      rw [exitProcess] at hs
      split at hs
      · obtain rfl := Option.some.inj hs
        exact h
      · rename_i hpid
        obtain ⟨s',hs',rfl⟩ := Option.map_eq_some_iff.mp hs
        exact filed_exit h hp.1 hpid hsupply hfirst hs'
    · cases hs
  | reap parent child =>
    rw [listStep] at hs
    split at hs
    · rename_i hp
      obtain rfl := Option.some.inj hs
      exact filed_reap h hp.2.1
    · cases hs

end

theorem filed_run (x : Ledger) (h : Filed x) (hsupply : RunMeets Supplied x es)
    (hfirst : RunMeets FirstExit x es) (hs : listRun x es = some x') : Filed x' := by
  induction es generalizing x with
  | nil =>
    obtain rfl := Option.some.inj hs
    exact h
  | cons e es ih =>
    obtain ⟨x₁,hx₁,hs⟩ := Option.bind_eq_some_iff.mp hs
    exact ih x₁ (filed_step h hsupply.1 hfirst.1 hx₁) (hsupply.2 x₁ hx₁) (hfirst.2 x₁ hx₁) hs

/-- In every run in which nobody exits twice, `allproc` and `zombproc` share the
processes that were not reaped. -/
theorem lists_partition (memory : Word → Pcb) (idle : Word) (es : List ListEvent) (x : Ledger)
    (hsupply : RunMeets Supplied (begun memory idle) es)
    (hfirst : RunMeets FirstExit (begun memory idle) es)
    (hs : listRun (begun memory idle) es = some x) : Partitioned x :=
  filed_partitioned (filed_run _ (filed_begun memory idle) hsupply hfirst hs)

def Early (x : Ledger) : ListEvent → Prop
  | .fork _ child node => child ∉ x.system.made ∧ node.isSome ∧ x.system.made.length < 65536
  | .exit _ _ nodes => nodes ≠ []
  | .reap _ _ => True

theorem early_supplied (h : Numbered x) (he : Early x e) : Supplied x e := by
  cases e with
  | fork parent child node =>
    refine ⟨he.1,he.2.1,?_⟩
    intro p hp
    have hlt := forkNumber_lt (forked_mem _ p hp)
    have hlen := he.2.2
    rw [h.pids p (forked_mem _ p hp), new_pid h, Ne, ofNat_eq_iff]
    omega
  | exit process frames nodes => exact he
  | reap parent child => trivial

theorem early_run (x : Ledger) (h : Numbered x) (he : RunMeets Early x es) :
    RunMeets Supplied x es := by
  induction es generalizing x with
  | nil => trivial
  | cons e es ih =>
    exact ⟨early_supplied h he.1,fun x' hx' => ih x' (numbered_step h hx') (he.2 x' hx')⟩

def oneChild : List ListEvent :=
  [.fork 0x1000 0x2000 place,.fork 0x2000 0x3000 place,.exit 0x3000 4 [kernelPtr 0x9000],
    .reap 0x2000 0x3000]

theorem lists_partition_child : ∃ x, listRun firstLedger oneChild = some x ∧ Partitioned x ∧
    x.reaped = [0x3000] := by
  refine ⟨_,rfl,?_,rfl⟩
  refine lists_partition (fun _ => childPcb 0 0) 0x1000 oneChild _
    (early_run _ (numbered_begun _ _) ?_) ?_ rfl
  · refine ⟨⟨by decide,rfl,by decide⟩,?_⟩
    rintro x₁ ⟨⟩
    refine ⟨⟨by decide,rfl,by decide⟩,?_⟩
    exact fun x₂ _ => ⟨List.cons_ne_nil _ _,fun x₃ _ => ⟨trivial,fun _ _ => trivial⟩⟩
  · refine ⟨trivial,?_⟩
    rintro x₁ ⟨⟩
    refine ⟨trivial,?_⟩
    rintro x₂ ⟨⟩
    exact ⟨List.not_mem_nil,fun x₃ _ => ⟨trivial,fun _ _ => trivial⟩⟩

def wokenAgain : List ListEvent :=
  [.fork 0x1000 0x2000 place,.fork 0x2000 0x3000 place,.fork 0x3000 0x4000 place,
    .fork 0x3000 0x5000 place,.exit 0x3000 4 [kernelPtr 0x9000],.reap 0x2000 0x3000,
    .exit 0x4000 4 [kernelPtr 0x9000],.exit 0x5000 4 [kernelPtr 0x9000],
    .exit 0x3000 4 [kernelPtr 0x9000],.reap 0x2000 0x3000]

/-- Its second exit puts it into no list, and when it is waited for again
another zombie is dropped in its place. -/
theorem second_exit_drops_zombie : ∃ x, RunMeets Supplied firstLedger wokenAgain ∧
    listRun firstLedger wokenAgain = some x ∧ 0x5000 ∈ forked x.system ∧ 0x5000 ∉ x.reaped ∧
      ¬ Partitioned x := by
  refine ⟨_,early_run _ (numbered_begun _ _) ?_,rfl,by decide,by decide,?_⟩
  · refine ⟨⟨by decide,rfl,by decide⟩,?_⟩
    rintro x₁ ⟨⟩
    refine ⟨⟨by decide,rfl,by decide⟩,?_⟩
    rintro x₂ ⟨⟩
    refine ⟨⟨by decide,rfl,by decide⟩,?_⟩
    rintro x₃ ⟨⟩
    refine ⟨⟨by decide,rfl,by decide⟩,fun x₄ _ => ⟨List.cons_ne_nil _ _,?_⟩⟩
    refine fun x₅ _ => ⟨trivial,fun x₆ _ => ⟨List.cons_ne_nil _ _,?_⟩⟩
    refine fun x₇ _ => ⟨List.cons_ne_nil _ _,fun x₈ _ => ⟨List.cons_ne_nil _ _,?_⟩⟩
    exact fun x₉ _ => ⟨trivial,fun _ _ => trivial⟩
  · intro h
    exact absurd (h.once 0x5000 (by decide)) (by decide)

end PreemptiveOS.ProcessLists
