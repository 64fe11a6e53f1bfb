import PreemptiveOS.KernelObjects
import PreemptiveOS.LinkedQueues

/-!
# The scheduler and the life of a process

The queue functions of `queue.c`, the scheduler, and those parts of fork,
wait, exit, signals and the timer interrupt that act on process blocks. All
queues go through the one link of a process block. A system call runs with
interrupts on; a wait is therefore taken step by step, with a record in the
process block of the point it has come to. The other calls run up to the
switch to another process. An undefined result is a walk that never ends or a
read through a null pointer.
-/

set_option autoImplicit false

namespace PreemptiveOS.Scheduler
open KernelObjects LinkedQueues ByteMemory Vmas

inductive ProcessState where
  | new
  | normal
  | zombie
  | dead
  deriving DecidableEq, Repr

inductive ThreadState where
  | running
  | blocked
  | waiting
  | sleeping
  | stopped
  deriving DecidableEq, Repr

inductive QueueType where
  | run
  | blocked
  | sleeping
  | waiting
  deriving DecidableEq, Repr

/-- Where a process goes on: in user mode, at the start of a round of `sys_wait`,
at a child of that round, before its call of the scheduler, or in a timer
interrupt behind its call of `sys_exit`. -/
inductive Point where
  | user
  | marked
  | scanning (i : ℕ)
  | scanned
  | timerRest (interrupted : Point)
  deriving DecidableEq, Repr

structure Pcb where
  pid : BitVec 16
  isSigkillPending : Bool
  isSigsegvPending : Bool
  onRq : Bool
  timeSlice : Word
  sleepTime : Word
  pptr : Option Word
  cptr : List Word
  processState : ProcessState
  nextInQueue : Option Word
  threadState : ThreadState
  point : Point
  deriving DecidableEq

def fullSlice : Word := 1000

structure System where
  pcbs : Word → Pcb
  made : List Word
  processes : QueueType → Option Word
  current : Word
  idleTask : Word
  allproc : List ProcList
  lastPid : BitVec 32

def System.next (s : System) (p : Word) : Option Word := (s.pcbs p).nextInQueue

def System.set (s : System) (p : Word) (f : Pcb → Pcb) : System :=
  { s with pcbs := Function.update s.pcbs p (f (s.pcbs p)) }

def Pcb.mark (process : ProcessState) (thread : ThreadState) (b : Pcb) : Pcb :=
  { b with processState := process, threadState := thread }

def Pcb.link (next : Option Word) (b : Pcb) : Pcb := { b with nextInQueue := next }

def Pcb.onQueue (flag : Bool) (b : Pcb) : Pcb := { b with onRq := flag }

def Pcb.goOn (point : Point) (b : Pcb) : Pcb := { b with point := point }

def addProcessToQueueFront (q : QueueType) (curr : Word) (s : System) : System :=
  let s₁ := s.set curr (Pcb.link (s.processes q))
  { s₁ with processes := Function.update s.processes q (some curr) }

/-- A walk of more steps than there are process blocks never ends. -/
def addProcessToQueue (q : QueueType) (curr : Word) (s : System) : Option System :=
  match s.processes q with
  | none =>
    let s₁ := s.set curr (Pcb.link none)
    some { s₁ with processes := Function.update s.processes q (some curr) }
  | some first =>
    (lastFrom s.next s.made.length first).map
      (fun last => (s.set last (Pcb.link (some curr))).set curr (Pcb.link none))

/-- The loop compares the second process only, again and again. -/
def removeProcessFromQueue (q : QueueType) (curr : Word) (s : System) : Option System :=
  match s.processes q with
  | none => some s
  | some first =>
    if (s.pcbs first).pid = (s.pcbs curr).pid then
      some { s with processes := Function.update s.processes q (s.next first) }
    else
      match s.next first with
      | none => some s
      | some second =>
        if (s.pcbs second).pid = (s.pcbs curr).pid then
          some (s.set first (Pcb.link (s.next second)))
        else none

def tryToWakeUp (q : QueueType) (process : Option Word) (s : System) : Option System :=
  match process with
  | none => some s
  | some p =>
    (removeProcessFromQueue q p (s.set p (Pcb.mark .normal .running))).map (fun s₁ =>
      if (s₁.pcbs p).onRq then s₁
      else (addProcessToQueueFront .run p s₁).set p (Pcb.onQueue true))

def leaveRunQueue (q : QueueType) (s : System) : Option System :=
  if (s.pcbs s.current).onRq then
    (removeProcessFromQueue .run s.current s).bind (fun s₁ =>
      addProcessToQueue q s.current (s₁.set s.current (Pcb.onQueue false)))
  else some s

def dequeue (s : System) : Option System :=
  match (s.pcbs s.current).processState, (s.pcbs s.current).threadState with
  | .zombie, .stopped =>
    (if (s.pcbs s.current).onRq then removeProcessFromQueue .run s.current s else some s).map
      (fun s₁ => s₁.set s.current (Pcb.onQueue false))
  | .normal, .sleeping => leaveRunQueue .sleeping s
  | .normal, .blocked => leaveRunQueue .blocked s
  | .normal, .waiting => leaveRunQueue .waiting s
  | _, _ => some s

def refill (s : System) : System :=
  s.set s.current (fun b =>
    { b with timeSlice := if b.timeSlice = 0 then fullSlice else b.timeSlice })

def pickNextTask (s : System) : System :=
  match s.processes .run with
  | some next => { s with current := next }
  | none =>
    if (s.pcbs s.current).processState = .normal ∧ (s.pcbs s.current).threadState = .running then s
    else { s with current := s.idleTask }

def schedule (s : System) : Option System := (dequeue (refill s)).map pickNextTask

def sysSleepProcess (seconds : Word) (s : System) : Option System :=
  if seconds = 0 then some s
  else
    schedule (s.set s.current
      (fun b => { b.mark .normal .sleeping with sleepTime := seconds*1000 }))

def blockProcess (process : Option Word) (s : System) : Option System :=
  match process with
  | none => some s
  | some p => schedule (s.set p (Pcb.mark .normal .blocked))

def childPcb (parent : Word) (pid : BitVec 16) : Pcb where
  pid := pid
  isSigkillPending := false
  isSigsegvPending := false
  onRq := false
  timeSlice := fullSlice
  sleepTime := 0
  pptr := some parent
  cptr := []
  processState := .normal
  nextInQueue := none
  threadState := .running
  point := .user

/-- The family side of a fork. The walk to the end of the list of children moves
the pointer to the list itself, so that the new child is the only one left. -/
def adopt (parent child : Word) (s : System) : System :=
  let s₁ := s.set parent (fun b => { b with cptr := [child] })
  { s₁ with
    pcbs := Function.update s₁.pcbs child (childPcb parent ((s.lastPid+1).setWidth 16))
    made := child::s.made
    lastPid := s.lastPid+1 }

def enlist (child : Word) (node : Option KernelPtr) (s : System) : System :=
  { s with allproc := s.allproc++node.toList.map (fun n => ⟨n,child⟩) }

/-- A child whose node of `allproc` cannot be had is never queued. -/
def doFork (child : Word) (node : Option KernelPtr) (s : System) : Option System :=
  let s₁ := enlist child node (adopt s.current child s)
  if node.isNone then some s₁
  else (addProcessToQueue .run child s₁).map (fun s₂ => s₂.set child (Pcb.onQueue true))

/-- An empty list stays empty: the pointer that gets the new node is a copy. -/
def insertIntoPchildren (parent child : Word) (frames : ℕ) (s : System) : System :=
  if frames = 0 then s
  else s.set parent (fun b => { b with cptr := if b.cptr = [] then [] else b.cptr++[child] })

def reparentProcessToInit (child : Word) (frames : ℕ) (s : System) : Option System :=
  match s.allproc with
  | [] => none
  | init::_ =>
    some (insertIntoPchildren init.process child frames
      (s.set child (fun b => { b with pptr := some init.process })))

/-- The loop over the children of an exiting process, from the child at an
index on. Each round takes a frame for a list node as long as there is one. -/
def reparentFrom (parent : Word) : ℕ → ℕ → ℕ → System → Option System
  | 0, _, _, _ => none
  | n+1, i, frames, s =>
    match (s.pcbs parent).cptr[i]? with
    | none => some s
    | some child =>
      (reparentProcessToInit child frames s).bind (reparentFrom parent n (i+1) (frames-1))

/-- A list that grows while the loop goes through it, as the first process of
`allproc` makes it, ends when the frames do. -/
def reparentChildren (parent : Word) (frames : ℕ) (s : System) : Option System :=
  reparentFrom parent ((s.pcbs parent).cptr.length+frames+1) 0 frames s

def leaveAllproc (process : Word) (s : System) : System :=
  let dead := fun n : ProcList => decide ((s.pcbs n.process).pid = (s.pcbs process).pid)
  let visit := fun l n => if dead n then ((deleteNode dead l).map Prod.fst).getD l else l
  { s with allproc := s.allproc.foldl visit s.allproc }

def bury (process : Word) (frames : ℕ) (s : System) : Option System :=
  (reparentChildren process frames s).map (fun s₁ =>
    (leaveAllproc process s₁).set process (Pcb.mark .zombie .stopped))

def exitNotify (process : Word) (s : System) : Option System :=
  tryToWakeUp .waiting (s.pcbs process).pptr s

def sysExit (frames : ℕ) (s : System) : Option System :=
  if (s.pcbs s.current).pid = 0 then some s
  else ((bury s.current frames s).bind (exitNotify s.current)).bind schedule

def doWaitThread (child : Word) (s : System) : System × BitVec 16 :=
  if (s.pcbs child).processState = .zombie ∧ (s.pcbs child).threadState = .stopped then
    (s.set child (fun b => { b with processState := .dead }),(s.pcbs child).pid)
  else (s,0)

def sysWait (s : System) : System :=
  if (s.pcbs s.current).cptr = [] then s
  else s.set s.current (fun b => (b.mark .normal .waiting).goOn .marked)

def scanChild (i : ℕ) (child : Word) (s : System) : System :=
  let found := doWaitThread child s
  if found.2 ≠ 0 then
    found.1.set s.current (fun b => (b.mark .normal .running).goOn .user)
  else if i+1 < (found.1.pcbs s.current).cptr.length then
    found.1.set s.current (Pcb.goOn (.scanning (i+1)))
  else found.1.set s.current (Pcb.goOn .scanned)

def waitStep (s : System) : Option System :=
  match (s.pcbs s.current).point with
  | .marked => some (s.set s.current (Pcb.goOn (.scanning 0)))
  | .scanning i => (s.pcbs s.current).cptr[i]?.map (fun child => scanChild i child s)
  | .scanned => schedule (s.set s.current (Pcb.goOn .marked))
  | _ => none

def getProcessDescriptorFromPid (pid : BitVec 32) (s : System) : Option Word :=
  (s.allproc.find? (fun n => (s.pcbs n.process).pid.setWidth 32 = pid)).map ProcList.process

def raiseSignal (sig : BitVec 32) (b : Pcb) : Pcb :=
  if sig = 9 then { b with isSigkillPending := true }
  else if sig = 11 then { b with isSigsegvPending := true }
  else b

def sendSignal (pid sig : BitVec 32) (s : System) : Option System :=
  match getProcessDescriptorFromPid pid s with
  | none => some s
  | some proc =>
    let s₁ := s.set proc (raiseSignal sig)
    if (s.pcbs proc).onRq then some s₁
    else
      match (s.pcbs proc).threadState, (s.pcbs proc).processState with
      | .sleeping, .normal => (tryToWakeUp .sleeping (some proc) s₁).bind schedule
      | .blocked, .normal => (tryToWakeUp .blocked (some proc) s₁).bind schedule
      | .waiting, .normal => (tryToWakeUp .waiting (some proc) s₁).bind schedule
      | .stopped, _ => some s₁
      | _, _ => schedule s₁

/-- The walk through the sleeping queue, in a bounded number of rounds. A woken
process is already linked into the run queue when its link is read. -/
def wakeSleepers : ℕ → Option Word → System → Option System
  | _, none, s => some s
  | 0, some _, _ => none
  | n+1, some p, s =>
    if (s.pcbs p).sleepTime = 0 then
      (tryToWakeUp .sleeping (some p) s).bind (fun s₁ => wakeSleepers n (s₁.next p) s₁)
    else
      let s₁ := s.set p (fun b => { b with sleepTime := b.sleepTime-1 })
      wakeSleepers n (s₁.next p) s₁

def spendSlice (s : System) : Option System :=
  let s₁ := s.set s.current (fun b => { b with timeSlice := b.timeSlice-1 })
  if (s₁.pcbs s.current).timeSlice = 0 then schedule s₁ else some s₁

def takeSignal (b : Pcb) : Pcb :=
  if b.isSigkillPending then { b with isSigkillPending := false }
  else { b with isSigsegvPending := false }

def pitSignal (frames : ℕ) (s : System) : Option System :=
  if (s.pcbs s.current).isSigkillPending ∨ (s.pcbs s.current).isSigsegvPending then
    sysExit frames
      (s.set s.current (fun b => (takeSignal b).goOn (.timerRest b.point)))
  else spendSlice s

def pitIrq (rounds frames : ℕ) (s : System) : Option System :=
  (wakeSleepers rounds (s.processes .sleeping) s).bind (pitSignal frames)

def pitRest (interrupted : Point) (s : System) : Option System :=
  spendSlice (s.set s.current (Pcb.goOn interrupted))

def idlePcb (idle : Word) (frame : Pcb) : Pcb :=
  { frame with
    onRq := false, isSigkillPending := false, isSigsegvPending := false, pid := 0,
    processState := .normal, threadState := .running, timeSlice := fullSlice, pptr := some idle,
    point := .user }

def schedulerInit (memory : Word → Pcb) (idle : Word) : System where
  pcbs := Function.update memory idle (idlePcb idle (memory idle))
  made := [idle]
  processes := fun _ => none
  current := idle
  idleTask := idle
  allproc := []
  lastPid := 0

/-- What the current process or the timer does next. The scheduler is called
directly once, at the end of the start-up. -/
inductive Event where
  | schedule
  | fork (child : Word) (node : Option KernelPtr)
  | wait
  | waitStep
  | exit (frames : ℕ)
  | signal (pid sig : BitVec 32)
  | sleep (seconds : Word)
  | block (process : Option Word)
  | timer (rounds frames : ℕ)
  | timerRest

/-- A call is made from user mode; a wait or an interrupt goes on where it is. -/
def step (s : System) : Event → Option System
  | .schedule => if (s.pcbs s.current).point = .user then schedule s else none
  | .fork child node => if (s.pcbs s.current).point = .user then doFork child node s else none
  | .wait => if (s.pcbs s.current).point = .user then some (sysWait s) else none
  | .waitStep => waitStep s
  | .exit frames => if (s.pcbs s.current).point = .user then sysExit frames s else none
  | .signal pid sig => if (s.pcbs s.current).point = .user then sendSignal pid sig s else none
  | .sleep seconds => if (s.pcbs s.current).point = .user then sysSleepProcess seconds s else none
  | .block process => if (s.pcbs s.current).point = .user then blockProcess process s else none
  | .timer rounds frames =>
    match (s.pcbs s.current).point with
    | .timerRest _ => none
    | _ => pitIrq rounds frames s
  | .timerRest =>
    match (s.pcbs s.current).point with
    | .timerRest interrupted => pitRest interrupted s
    | _ => none

def run : System → List Event → Option System
  | s, [] => some s
  | s, e::es => (step s e).bind (fun s' => run s' es)

end PreemptiveOS.Scheduler
