import PreemptiveOS.SchedulerQueues

/-!
# Operations on one queue

The functions of `queue.c` on a single queue, against appending, prepending and
erasing on the list of its processes. The two insertions do what the list does.
The loop of the removal looks at the second process in every round and never
moves on. So a removal is right for the first two processes of a queue, and for
a queue of at most one process that has another pid.
-/

set_option autoImplicit false

namespace PreemptiveOS.QueueOperations
open ByteMemory LinkedQueues Scheduler SchedulerQueues

/-- The loop of the removal, in a bounded number of rounds. Nothing that it
tests changes from one round to the next. -/
def removeRounds (q : QueueType) (curr : Word) : ℕ → System → Option System
  | 0, _ => none
  | n+1, s =>
    match s.processes q with
    | none => none
    | some first =>
      match s.next first with
      | none => some s
      | some second =>
        if (s.pcbs second).pid = (s.pcbs curr).pid then
          some (s.set first (Pcb.link (s.next second)))
        else removeRounds q curr n s

def removeWithin (n : ℕ) (q : QueueType) (curr : Word) (s : System) : Option System :=
  match s.processes q with
  | none => some s
  | some first =>
    if (s.pcbs first).pid = (s.pcbs curr).pid then
      some { s with processes := Function.update s.processes q (s.next first) }
    else removeRounds q curr n s

variable {q : QueueType} {s s' : System}

theorem removeRounds_first {curr : Word} {n : ℕ} (h : removeRounds q curr n s = some s') :
    removeRounds q curr 1 s = some s' := by
  induction n with
  | zero => cases h
  | succ n ih =>
    rw [removeRounds] at h ⊢
    cases hfirst : s.processes q with
    | none =>
      rw [hfirst] at h
      exact h
    | some first =>
      rw [hfirst] at h
      dsimp only at h ⊢
      cases hsecond : s.next first with
      | none =>
        rw [hsecond] at h
        exact h
      | some second =>
        rw [hsecond] at h
        dsimp only at h ⊢
        split_ifs at h ⊢ with hpid
        · exact h
        · have hone := ih h
          rw [removeRounds, hfirst] at hone
          dsimp only at hone
          rw [hsecond] at hone
          dsimp only at hone
          rwa [if_neg hpid] at hone

theorem remove_ends_iff (q : QueueType) (curr : Word) (s s' : System) :
    (∃ n, removeWithin n q curr s = some s') ↔ removeProcessFromQueue q curr s = some s' := by
  have hone : removeWithin 1 q curr s = removeProcessFromQueue q curr s := by
    rw [removeWithin, removeProcessFromQueue]
    cases hfirst : s.processes q with
    | none => rfl
    | some first =>
      dsimp only
      rw [removeRounds, hfirst]
      dsimp only
      cases s.next first <;> rfl
  rw [← hone]
  constructor
  · rintro ⟨n,hn⟩
    rw [removeWithin] at hn ⊢
    cases hfirst : s.processes q with
    | none => rwa [hfirst] at hn
    | some first =>
      rw [hfirst] at hn
      dsimp only at hn ⊢
      split_ifs at hn ⊢
      · exact hn
      · exact removeRounds_first hn
  · exact fun h => ⟨1,h⟩

abbrev pidOf (s : System) (p : Word) : BitVec 16 := (s.pcbs p).pid

structure Holds (s : System) (q : QueueType) (l : List Word) : Prop where
  chain : Chain s.next (s.processes q) l
  members : ∀ p ∈ l, p ∈ s.made
  pids : l.Pairwise (fun a b => pidOf s a ≠ pidOf s b)

inductive QueueOp where
  | add (p : Word)
  | addFront (p : Word)
  | remove (p : Word)
  deriving DecidableEq

def Performs (q : QueueType) (s s' : System) : QueueOp → Prop
  | .add p => addProcessToQueue q p s = some s'
  | .addFront p => addProcessToQueueFront q p s = s'
  | .remove p => ∃ n, removeWithin n q p s = some s'

def listStep (l : List Word) : QueueOp → List Word
  | .add p => l++[p]
  | .addFront p => p::l
  | .remove p => l.erase p

def Refines (q : QueueType) : System → List Word → List QueueOp → Prop
  | _, _, [] => True
  | s, l, op::ops => ∃ s', Performs q s s' op ∧ Holds s' q (listStep l op) ∧
    Refines q s' (listStep l op) ops

def AddsNew (made : List Word) (pid : Word → BitVec 16) : List Word → List QueueOp → Prop
  | _, [] => True
  | l, op::ops =>
    (match op with
      | .add p => p ∈ made ∧ ∀ a ∈ l, pid a ≠ pid p
      | .addFront p => p ∈ made ∧ ∀ a ∈ l, pid a ≠ pid p
      | .remove _ => True) ∧ AddsNew made pid (listStep l op) ops

def Near (pid : Word → BitVec 16) (l : List Word) (p : Word) : Prop :=
  p ∈ l.take 2 ∨ (l.length ≤ 1 ∧ ∀ a ∈ l, pid a ≠ pid p)

def RemovalsNear (pid : Word → BitVec 16) : List Word → List QueueOp → Prop
  | _, [] => True
  | l, op::ops =>
    (match op with
      | .remove p => Near pid l p
      | _ => True) ∧ RemovalsNear pid (listStep l op) ops

theorem pidOf_relinked (hr : Relinked s s') : pidOf s' = pidOf s :=
  funext (relinked_field Pcb.pid (fun _ => rfl) hr)

theorem relinked_front (q : QueueType) (p : Word) (s : System) :
    Relinked s (addProcessToQueueFront q p s) := by
  obtain ⟨hpcbs,hmade,hcurrent,hidle,hallproc,hlast⟩ := relinked_link s p (s.processes q)
  exact ⟨hpcbs,hmade,hcurrent,hidle,hallproc,hlast⟩

theorem threaded_holds {lists : QueueType → List Word} (h : Threaded s lists) (q : QueueType) :
    Holds s q (lists q) := by
  constructor
  case chain => exact h.linked.chain q
  case members => exact h.members q
  case pids =>
    apply (h.linked.nodup q).imp_of_mem
    intro a b ha hb hne he
    exact hne (h.pids a (h.members q a ha) b (h.members q b hb) he)

variable {p : Word}

section
variable {s : System} {q : QueueType} {l : List Word} (h : Holds s q l)
include h

theorem holds_nodup : l.Nodup := by
  apply h.pids.imp
  rintro a b hab rfl
  exact hab rfl

omit h in
theorem holds_relinked {l' : List Word} (hr : Relinked s s')
    (hc : Chain s'.next (s'.processes q) l') (hm : ∀ p ∈ l', p ∈ s.made)
    (hp : l'.Pairwise (fun a b => pidOf s a ≠ pidOf s b)) : Holds s' q l' := by
  constructor
  case chain => exact hc
  case members =>
    intro p hpl
    rw [hr.made]
    exact hm p hpl
  case pids =>
    apply hp.imp
    intro a b hab
    rwa [pidOf_relinked hr]

theorem holds_front (hm : p ∈ s.made) (hp : ∀ a ∈ l, pidOf s a ≠ pidOf s p) :
    Holds (addProcessToQueueFront q p s) q (p::l) := by
  have hout : p ∉ l := fun hpl => hp p hpl rfl
  apply holds_relinked (relinked_front q p s)
  · have hnext : (addProcessToQueueFront q p s).next = Function.update s.next p (s.processes q) :=
      link_next s p
    have hhead : (addProcessToQueueFront q p s).processes q = some p := Function.update_self ..
    rw [hnext, hhead]
    refine ⟨rfl,?_⟩
    rw [Function.update_self]
    exact chain_outside s.next _ l p _ hout h.chain
  · intro a ha
    rcases List.mem_cons.mp ha with rfl | ha
    · exact hm
    · exact h.members a ha
  · exact List.pairwise_cons.mpr ⟨fun a ha => Ne.symm (hp a ha),h.pids⟩

theorem holds_add (hm : p ∈ s.made) (hp : ∀ a ∈ l, pidOf s a ≠ pidOf s p) :
    ∃ s', addProcessToQueue q p s = some s' ∧ Relinked s s' ∧ Holds s' q (l++[p]) := by
  have hout : p ∉ l := fun hpl => hp p hpl rfl
  rcases addProcessToQueue_cases p h.chain (holds_nodup h) h.members with
    ⟨rfl,hs⟩ | ⟨init,last,rfl,hs⟩
  · exact ⟨_,hs,relinked_front q p s,holds_front h hm hp⟩
  · have hr := relinked_trans (relinked_link s last (some p))
      (relinked_link (s.set last (Pcb.link (some p))) p none)
    refine ⟨_,hs,hr,holds_relinked hr ?_ ?_ ?_⟩
    · rw [link_next, link_next]
      exact chain_append s.next _ init last p (holds_nodup h) hout h.chain
    · intro a ha
      rcases List.mem_append.mp ha with ha | ha
      · exact h.members a ha
      · rwa [List.mem_singleton.mp ha]
    · rw [List.pairwise_append]
      refine ⟨h.pids,List.pairwise_singleton _ _,?_⟩
      intro a ha b hb
      rw [List.mem_singleton.mp hb]
      exact hp a ha

theorem remove_some_iff (p : Word) : (∃ s', removeProcessFromQueue q p s = some s') ↔
    l.length ≤ 1 ∨ ∃ a ∈ l.take 2, pidOf s a = pidOf s p := by
  have hc := h.chain
  rw [removeProcessFromQueue]
  cases l with
  | nil =>
    have hnone : s.processes q = none := hc
    simp [hnone]
  | cons a l =>
    rw [show s.processes q = some a from hc.1]
    dsimp only
    by_cases ha : pidOf s a = pidOf s p
    · rw [if_pos ha]
      simp [ha]
    · rw [if_neg ha]
      cases l with
      | nil => simp [show s.next a = none from hc.2]
      | cons b l =>
        rw [show s.next a = some b from hc.2.1]
        dsimp only
        by_cases hb : pidOf s b = pidOf s p
        · rw [if_pos hb]
          simp [hb]
        · rw [if_neg hb]
          simp [ha, hb]

theorem remove_absent (hp : ∀ a ∈ l, pidOf s a ≠ pidOf s p) :
    removeProcessFromQueue q p s = if l.length ≤ 1 then some s else none := by
  have hc := h.chain
  rw [removeProcessFromQueue]
  cases l with
  | nil => simp [show s.processes q = none from hc]
  | cons a l =>
    rw [show s.processes q = some a from hc.1]
    dsimp only
    rw [if_neg (hp a (by simp))]
    cases l with
    | nil => simp [show s.next a = none from hc.2]
    | cons b l =>
      rw [show s.next a = some b from hc.2.1]
      dsimp only
      rw [if_neg (hp b (by simp))]
      simp

theorem holds_remove (hs : removeProcessFromQueue q p s = some s') :
    Relinked s s' ∧ Holds s' q (l.eraseP (fun a => pidOf s a = pidOf s p)) := by
  have hc := h.chain
  have hn := holds_nodup h
  have hsub := l.eraseP_sublist (p := fun a => decide (pidOf s a = pidOf s p))
  have hmem : ∀ a ∈ l.eraseP (fun a => pidOf s a = pidOf s p), a ∈ s.made :=
    fun a ha => h.members a (hsub.subset ha)
  have hpids := h.pids.sublist hsub
  rw [removeProcessFromQueue] at hs
  cases l with
  | nil =>
    rw [show s.processes q = none from hc] at hs
    obtain rfl := Option.some.inj hs
    exact ⟨relinked_refl s,h⟩
  | cons a l =>
    rw [show s.processes q = some a from hc.1] at hs
    dsimp only at hs
    by_cases ha : pidOf s a = pidOf s p
    · rw [if_pos ha] at hs
      obtain rfl := Option.some.inj hs
      rw [List.eraseP_cons_of_pos (by simpa using ha)] at hmem hpids ⊢
      have hr : Relinked s { s with processes := Function.update s.processes q (s.next a) } := by
        constructor <;> intros <;> rfl
      refine ⟨hr,holds_relinked hr ?_ hmem hpids⟩
      show Chain s.next (Function.update s.processes q (s.next a) q) l
      rw [Function.update_self]
      exact hc.2
    · rw [if_neg ha] at hs
      rw [List.eraseP_cons_of_neg (by simpa using ha)] at hmem hpids ⊢
      cases l with
      | nil =>
        rw [show s.next a = none from hc.2] at hs
        obtain rfl := Option.some.inj hs
        exact ⟨relinked_refl s,h⟩
      | cons b l =>
        rw [show s.next a = some b from hc.2.1] at hs
        dsimp only at hs
        by_cases hb : pidOf s b = pidOf s p
        · rw [if_pos hb] at hs
          obtain rfl := Option.some.inj hs
          rw [List.eraseP_cons_of_pos (by simpa using hb)] at hmem hpids ⊢
          have hr := relinked_link s a (s.next b)
          refine ⟨hr,holds_relinked hr ?_ hmem hpids⟩
          rw [link_next]
          exact chain_second s.next _ a b l hn hc
        · rw [if_neg hb] at hs
          cases hs

end

variable {l : List Word} {pid : Word → BitVec 16}

theorem eraseP_eq_erase_iff (hl : l.Pairwise (fun a b => pid a ≠ pid b)) :
    l.eraseP (fun a => pid a = pid p) = l.erase p ↔ p ∈ l ∨ ∀ a ∈ l, pid a ≠ pid p := by
  induction l with
  | nil => simp
  | cons a l ih =>
    obtain ⟨ha,hrest⟩ := List.pairwise_cons.mp hl
    by_cases hap : a = p
    · subst hap
      simp
    · by_cases hpid : pid a = pid p
      · -- a process with the pid of another one would be taken for it
        have hpl : p ∉ l := fun hm => ha p hm hpid
        rw [List.eraseP_cons_of_pos (by simpa using hpid), List.erase_cons_tail (by simpa using hap),
          List.erase_of_not_mem hpl]
        constructor
        · intro he
          have hlen := congrArg List.length he
          rw [List.length_cons] at hlen
          omega
        · rintro (hm | hall)
          · exact absurd hm (by simp [Ne.symm hap, hpl])
          · exact absurd hpid (hall a List.mem_cons_self)
      · rw [List.eraseP_cons_of_neg (by simpa using hpid), List.erase_cons_tail (by simpa using hap),
          List.cons_inj_right, ih hrest]
        simp [Ne.symm hap, hpid]

theorem near_iff (p : Word) (hl : l.Pairwise (fun a b => pid a ≠ pid b)) :
    Near pid l p ↔ (l.length ≤ 1 ∨ ∃ a ∈ l.take 2, pid a = pid p) ∧
      (p ∈ l ∨ ∀ a ∈ l, pid a ≠ pid p) := by
  have hsame : ∀ a ∈ l, p ∈ l → pid a = pid p → a = p := by
    intro a ha hp he
    have hnodup : (l.map pid).Nodup := List.pairwise_map.mpr hl
    exact List.inj_on_of_nodup_map hnodup ha hp he
  constructor
  · rintro (hp | ⟨hlen,hall⟩)
    · exact ⟨Or.inr ⟨p,hp,rfl⟩,Or.inl (List.mem_of_mem_take hp)⟩
    · exact ⟨Or.inl hlen,Or.inr hall⟩
  · rintro ⟨hseen,hp | hall⟩
    · left
      rcases hseen with hlen | ⟨a,ha,he⟩
      · rwa [List.take_of_length_le (by omega)]
      · rwa [hsame a (List.mem_of_mem_take ha) hp he] at ha
    · right
      rcases hseen with hlen | ⟨a,ha,he⟩
      · exact ⟨hlen,hall⟩
      · exact absurd he (hall a (List.mem_of_mem_take ha))

theorem remove_exact_iff (h : Holds s q l) (p : Word) :
    (∃ s', removeProcessFromQueue q p s = some s' ∧ Holds s' q (l.erase p)) ↔
      Near (pidOf s) l p := by
  rw [near_iff _ h.pids, ← remove_some_iff h p, ← eraseP_eq_erase_iff h.pids]
  constructor
  · rintro ⟨s',hs,hh⟩
    refine ⟨⟨s',hs⟩,?_⟩
    exact chain_unique _ _ _ _ (holds_remove h hs).2.chain hh.chain
  · rintro ⟨⟨s',hs⟩,he⟩
    refine ⟨s',hs,?_⟩
    rw [← he]
    exact (holds_remove h hs).2

/-- From the third process on, a removal never ends. -/
theorem far_removal_never_ends (q : QueueType) (a b p : Word) (l : List Word)
    (h : Holds s q (a::b::l)) (hp : p ∈ l) (n : ℕ) : removeWithin n q p s = none := by
  have hpids := h.pids
  simp only [List.pairwise_cons, List.mem_cons, forall_eq_or_imp] at hpids
  obtain ⟨⟨_,ha⟩,hb,_⟩ := hpids
  rw [Option.eq_none_iff_forall_ne_some]
  intro s' hs
  rcases (remove_some_iff h p).mp ⟨s',(remove_ends_iff q p s s').mp ⟨n,hs⟩⟩ with hlen | hseen
  · simp at hlen
  · simp [ha p hp, hb p hp] at hseen

variable {ops : List QueueOp} {op : QueueOp}

theorem step_refines_iff (h : Holds s q l) (hnew : AddsNew s.made (pidOf s) l (op::ops)) :
    (∃ s', Performs q s s' op ∧ Holds s' q (listStep l op)) ↔
      RemovalsNear (pidOf s) l [op] := by
  cases op with
  | add p =>
    obtain ⟨s',hs,_,hh⟩ := holds_add h hnew.1.1 hnew.1.2
    exact iff_of_true ⟨s',hs,hh⟩ ⟨trivial,trivial⟩
  | addFront p =>
    exact iff_of_true ⟨_,rfl,holds_front h hnew.1.1 hnew.1.2⟩ ⟨trivial,trivial⟩
  | remove p =>
    have hstep : RemovalsNear (pidOf s) l [.remove p] ↔ Near (pidOf s) l p := by
      simp only [RemovalsNear, and_true]
    rw [hstep, ← remove_exact_iff h p]
    simp only [Performs, remove_ends_iff]
    rfl

theorem performs_relinked (h : Holds s q l) (hnew : AddsNew s.made (pidOf s) l (op::ops))
    (hs : Performs q s s' op) : Relinked s s' := by
  cases op with
  | add p =>
    obtain ⟨s₁,hs₁,hr,_⟩ := holds_add h hnew.1.1 hnew.1.2
    obtain rfl := Option.some.inj (hs₁.symm.trans hs)
    exact hr
  | addFront p =>
    obtain rfl : addProcessToQueueFront q p s = s' := hs
    exact relinked_front q p s
  | remove p => exact (holds_remove h ((remove_ends_iff q p s s').mp hs)).1

/-- A sequence of operations goes on as the list does as long as each removal is
of a process that is near enough. -/
theorem queue_refines_iff (q : QueueType) (ops : List QueueOp) (s : System) (l : List Word)
    (h : Holds s q l) (hnew : AddsNew s.made (pidOf s) l ops) :
    Refines q s l ops ↔ RemovalsNear (pidOf s) l ops := by
  induction ops generalizing s l with
  | nil => exact Iff.rfl
  | cons op ops ih =>
    have hsplit : RemovalsNear (pidOf s) l (op::ops) ↔ RemovalsNear (pidOf s) l [op] ∧
        RemovalsNear (pidOf s) (listStep l op) ops := by
      simp only [RemovalsNear, and_true]
    have hrest : ∀ s', Performs q s s' op → Holds s' q (listStep l op) →
        (Refines q s' (listStep l op) ops ↔ RemovalsNear (pidOf s) (listStep l op) ops) := by
      intro s' hs hh
      have hr := performs_relinked h hnew hs
      rw [← pidOf_relinked hr]
      apply ih s' _ hh
      rw [hr.made, pidOf_relinked hr]
      exact hnew.2
    rw [hsplit, ← step_refines_iff h hnew]
    constructor
    · rintro ⟨s',hs,hh,hrun⟩
      exact ⟨⟨s',hs,hh⟩,(hrest s' hs hh).mp hrun⟩
    · rintro ⟨⟨s',hs,hh⟩,hrun⟩
      exact ⟨s',hs,hh,(hrest s' hs hh).mpr hrun⟩

def threeQueued : System where
  pcbs := fun p => { childPcb 0 (p.setWidth 16) with
    nextInQueue := if p = 1 then some 2 else if p = 2 then some 3 else none }
  made := [3,2,1,0]
  processes := fun _ => some 1
  current := 0
  idleTask := 0
  allproc := []
  lastPid := 3

theorem threeQueued_holds : Holds threeQueued .run [1,2,3] := by
  constructor
  case chain => exact ⟨rfl,rfl,rfl,rfl⟩
  case members => simp [threeQueued]
  case pids => decide

theorem queue_refines_iff_three : Holds threeQueued .run [1,2,3] ∧
    Refines .run threeQueued [1,2,3] [.remove 2,.addFront 2,.remove 1,.add 1] := by
  refine ⟨threeQueued_holds,(queue_refines_iff .run _ threeQueued _ threeQueued_holds ?_).mpr ?_⟩
  · simp [AddsNew, listStep, pidOf, threeQueued, childPcb]
  · exact ⟨Or.inl (by decide),trivial,Or.inl (by decide),trivial,trivial⟩

/-- The removal of the third process goes round for ever. -/
theorem third_is_not_removed : Holds threeQueued .run [1,2,3] ∧
    (∀ n, removeWithin n .run 3 threeQueued = none) ∧
    ¬ Refines .run threeQueued [1,2,3] [.remove 3] := by
  have hnever := far_removal_never_ends .run 1 2 3 [3] threeQueued_holds (by simp)
  refine ⟨threeQueued_holds,hnever,?_⟩
  rintro ⟨s',⟨n,hn⟩,_⟩
  rw [hnever n] at hn
  cases hn

end PreemptiveOS.QueueOperations
