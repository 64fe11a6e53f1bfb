import PreemptiveOS.SchedulerQueues

/-!
# Parents and children

A process block names its parent and has a list of its children. A fork makes
the new child the only one of that list, and an exit hands the children on to
the first process of `allproc`, whose list grows only if it is not empty. In a
run of forks, exits and waits of any processes, the two sides of the relation
agree as long as no fork and no exit meets one of these cases.
-/

set_option autoImplicit false

namespace PreemptiveOS.ProcessTree
open ByteMemory KernelObjects Vmas Scheduler SchedulerQueues

def alone (b : Pcb) : Pcb := { b with pptr := none, cptr := [] }

structure Regrouped (s s' : System) : Prop where
  pcbs : ∀ r, alone (s'.pcbs r) = alone (s.pcbs r)
  processes : s'.processes = s.processes
  made : s'.made = s.made
  current : s'.current = s.current
  idleTask : s'.idleTask = s.idleTask
  allproc : s'.allproc = s.allproc
  lastPid : s'.lastPid = s.lastPid

theorem regrouped_refl (s : System) : Regrouped s s := by
  constructor <;> intros <;> rfl

variable {s₁ : System}

theorem regrouped_trans {s₂ s₃ : System} (h : Regrouped s₁ s₂) (h' : Regrouped s₂ s₃) :
    Regrouped s₁ s₃ := by
  constructor
  case pcbs => exact fun r => (h'.pcbs r).trans (h.pcbs r)
  case processes => exact h'.processes.trans h.processes
  case made => exact h'.made.trans h.made
  case current => exact h'.current.trans h.current
  case idleTask => exact h'.idleTask.trans h.idleTask
  case allproc => exact h'.allproc.trans h.allproc
  case lastPid => exact h'.lastPid.trans h.lastPid

variable {s : System} {p : Word}

theorem regrouped_set {f : Pcb → Pcb} (hf : alone (f (s.pcbs p)) = alone (s.pcbs p)) :
    Regrouped s (s.set p f) := by
  constructor
  case pcbs => exact set_field alone s p f hf
  all_goals rfl

variable {s' : System} {rest : List ProcList} {init : ProcList} {child : Word} {frames : ℕ}

theorem reparent_round (hall : s.allproc = init::rest)
    (hs : reparentProcessToInit child frames s = some s') :
    Regrouped s s' ∧
    (∀ r, (s'.pcbs r).pptr = if r = child then some init.process else (s.pcbs r).pptr) ∧
    ∀ r, (s'.pcbs r).cptr = (s.pcbs r).cptr++
      (if r = init.process ∧ (s.pcbs r).cptr ≠ [] ∧ frames ≠ 0 then [child] else []) := by
  rw [reparentProcessToInit, hall] at hs
  obtain rfl := Option.some.inj hs
  have hfirst : Regrouped s (s.set child (fun b => { b with pptr := some init.process })) :=
    regrouped_set rfl
  have hpptr : ∀ r, ((s.set child (fun b => { b with pptr := some init.process })).pcbs r).pptr =
      if r = child then some init.process else (s.pcbs r).pptr := by
    intro r
    by_cases hr : r = child
    · subst hr
      rw [set_same, if_pos rfl]
    · rw [set_other _ _ hr, if_neg hr]
  have hcptr := set_field Pcb.cptr s child (fun b => { b with pptr := some init.process }) rfl
  generalize s.set child (fun b => { b with pptr := some init.process }) = s₁ at *
  rw [insertIntoPchildren]
  by_cases hframes : frames = 0
  · rw [if_pos hframes]
    refine ⟨hfirst,hpptr,?_⟩
    intro r
    rw [if_neg (fun h => h.2.2 hframes), List.append_nil]
    exact hcptr r
  · rw [if_neg hframes]
    refine ⟨regrouped_trans hfirst (regrouped_set rfl),?_,?_⟩
    · intro r
      rw [set_field Pcb.pptr s₁ init.process _ rfl]
      exact hpptr r
    · intro r
      by_cases hr : r = init.process
      · subst hr
        rw [set_same, hcptr]
        by_cases hnil : (s.pcbs init.process).cptr = []
        · simp [hnil]
        · simp [hnil, hframes]
      · rw [set_other _ _ hr, if_neg (fun h => hr h.1), List.append_nil]
        exact hcptr r

variable {n : ℕ}

theorem reparentFrom_cases {i : ℕ} (hs : reparentFrom p (n+1) i frames s = some s') :
    ((s.pcbs p).cptr.drop i = [] ∧ s' = s) ∨
    ∃ child s₁, i < (s.pcbs p).cptr.length ∧
      (s.pcbs p).cptr.drop i = child::(s.pcbs p).cptr.drop (i+1) ∧
      reparentProcessToInit child frames s = some s₁ ∧
      reparentFrom p n (i+1) (frames-1) s₁ = some s' := by
  rw [reparentFrom] at hs
  cases hget : (s.pcbs p).cptr[i]? with
  | none =>
    rw [hget] at hs
    obtain rfl := Option.some.inj hs
    exact Or.inl ⟨List.drop_eq_nil_iff.mpr (List.getElem?_eq_none_iff.mp hget),rfl⟩
  | some child =>
    rw [hget] at hs
    obtain ⟨s₁,hs₁,hrest⟩ := Option.bind_eq_some_iff.mp hs
    obtain ⟨hi,hchild⟩ := List.getElem?_eq_some_iff.mp hget
    exact Or.inr ⟨child,s₁,hi,by rw [List.drop_eq_getElem_cons hi, hchild],hs₁,hrest⟩

/-- The whole loop, by induction on its rounds. What a round appends to the
list it goes through is a child it has just passed. -/
theorem reparentFrom_effect (i frames : ℕ) (s : System) (hall : s.allproc = init::rest)
    (hs : reparentFrom p n i frames s = some s') :
    Regrouped s s' ∧
    (∀ r, (s'.pcbs r).pptr =
      if r ∈ (s.pcbs p).cptr.drop i then some init.process else (s.pcbs r).pptr) ∧
    ∀ r, ∃ l, (∀ x ∈ l, x ∈ (s.pcbs p).cptr.drop i) ∧ (s'.pcbs r).cptr = (s.pcbs r).cptr++l ∧
      (l ≠ [] → r = init.process ∧ (s.pcbs r).cptr ≠ []) := by
  induction n generalizing i frames s with
  | zero => cases hs
  | succ n ih =>
    rcases reparentFrom_cases hs with
      ⟨hdrop,rfl⟩ | ⟨child,s₁,hi,hdrop,hs₁,hrest⟩
    · refine ⟨regrouped_refl s',?_,?_⟩
      · intro r
        rw [hdrop, if_neg (by simp)]
      · intro r
        exact ⟨[],by simp,by simp,fun h => absurd rfl h⟩
    · obtain ⟨hr₁,hpptr₁,hcptr₁⟩ := reparent_round hall hs₁
      obtain ⟨hr,hpptr,hcptr⟩ := ih (i+1) (frames-1) s₁ (hr₁.allproc.trans hall) hrest
      have hdrop₁ : ∀ x, x ∈ (s₁.pcbs p).cptr.drop (i+1) → x ∈ (s.pcbs p).cptr.drop i := by
        intro x hx
        rw [hcptr₁ p, List.drop_append_of_le_length (by omega)] at hx
        rw [hdrop]
        rcases List.mem_append.mp hx with hx | hx
        · exact List.mem_cons_of_mem _ hx
        · split at hx
          · exact List.mem_cons.mpr (Or.inl (List.mem_singleton.mp hx))
          · simp at hx
      have hback : ∀ x, x ∈ (s.pcbs p).cptr.drop (i+1) → x ∈ (s₁.pcbs p).cptr.drop (i+1) := by
        intro x hx
        rw [hcptr₁ p, List.drop_append_of_le_length (by omega)]
        exact List.mem_append_left _ hx
      refine ⟨regrouped_trans hr₁ hr,?_,?_⟩
      · intro r
        rw [hpptr r, hpptr₁ r]
        by_cases hmem : r ∈ (s₁.pcbs p).cptr.drop (i+1)
        · rw [if_pos hmem, if_pos (hdrop₁ r hmem)]
        · rw [if_neg hmem]
          by_cases hrc : r = child
          · rw [if_pos hrc, if_pos (by rw [hdrop, hrc]; exact List.mem_cons_self)]
          · have hnot : r ∉ (s.pcbs p).cptr.drop i := by
              rw [hdrop, List.mem_cons, not_or]
              exact ⟨hrc,fun hm => hmem (hback r hm)⟩
            rw [if_neg hrc, if_neg hnot]
      · intro r
        obtain ⟨l,hl,hcat,hne⟩ := hcptr r
        have hround := hcptr₁ r
        split at hround
        · rename_i hc
          refine ⟨child::l,?_,?_,fun _ => ⟨hc.1,hc.2.1⟩⟩
          · intro x hx
            rcases List.mem_cons.mp hx with rfl | hx
            · rw [hdrop]
              exact List.mem_cons_self
            · exact hdrop₁ x (hl x hx)
          · rw [hcat, hround, List.append_assoc, List.singleton_append]
        · rw [List.append_nil] at hround
          refine ⟨l,fun x hx => hdrop₁ x (hl x hx),?_,?_⟩
          · rw [hcat, hround]
          · rw [← hround]
            exact hne

/-- With frames enough, and in another process that has children, the list of
the first process grows by the whole list. -/
theorem reparentFrom_list (i frames : ℕ) (s : System) (hall : s.allproc = init::rest)
    (hne : init.process ≠ p) (hsome : (s.pcbs init.process).cptr ≠ [])
    (hframes : (s.pcbs p).cptr.length-i ≤ frames) (hs : reparentFrom p n i frames s = some s') :
    (s'.pcbs init.process).cptr = (s.pcbs init.process).cptr++(s.pcbs p).cptr.drop i := by
  induction n generalizing i frames s with
  | zero => cases hs
  | succ n ih =>
    rcases reparentFrom_cases hs with
      ⟨hdrop,rfl⟩ | ⟨child,s₁,hi,hdrop,hs₁,hrest⟩
    · rw [hdrop, List.append_nil]
    · obtain ⟨hr₁,_,hcptr₁⟩ := reparent_round hall hs₁
      have hown : (s₁.pcbs p).cptr = (s.pcbs p).cptr := by
        rw [hcptr₁ p, if_neg (fun h => hne h.1.symm), List.append_nil]
      have hinit : (s₁.pcbs init.process).cptr = (s.pcbs init.process).cptr++[child] := by
        rw [hcptr₁, if_pos ⟨rfl,hsome,by omega⟩]
      have hrec := ih (i+1) (frames-1) s₁ (hr₁.allproc.trans hall) (by simp [hinit])
        (by rw [hown]; omega) hrest
      rw [hrec, hinit, hown, List.append_assoc, hdrop, List.singleton_append]

variable {dead : ProcList → Bool}

theorem deleteRest_match (temp : ProcList) (l : List ProcList) (h : ∃ n ∈ temp::l, dead n = true) :
    (deleteRest dead temp l).1 = (temp::l).eraseP dead := by
  induction l generalizing temp with
  | nil =>
    obtain ⟨n,hn,hd⟩ := h
    rw [List.mem_singleton.mp hn] at hd
    rw [deleteRest, List.eraseP_cons_of_pos hd]
  | cons next l ih =>
    rw [deleteRest]
    by_cases hd : dead temp = true
    · rw [if_pos hd, List.eraseP_cons_of_pos hd]
    · rw [if_neg hd, List.eraseP_cons_of_neg hd]
      obtain ⟨n,hn,hdn⟩ := h
      rcases List.mem_cons.mp hn with rfl | hn
      · exact absurd hdn hd
      · rw [ih next ⟨n,hn,hdn⟩]

variable {l : List ProcList}

theorem deleteNode_match (h : ∃ n ∈ l, dead n = true) :
    ((deleteNode dead l).map Prod.fst).getD l = l.eraseP dead := by
  match l, h with
  | [first], h =>
    obtain ⟨n,hn,hd⟩ := h
    rw [List.mem_singleton.mp hn] at hd
    simp [deleteNode, hd]
  | first::next::rest, h =>
    by_cases hd : dead first = true
    · simp [deleteNode, hd]
    · obtain ⟨n,hn,hdn⟩ := h
      rcases List.mem_cons.mp hn with rfl | hn
      · exact absurd hdn hd
      · have hrest := deleteRest_match next rest ⟨n,hn,hdn⟩
        rw [List.eraseP_cons_of_neg hd, ← hrest]
        simp [deleteNode, hd]

theorem split_dead (hone : l.Pairwise (fun m n => ¬ (dead m = true ∧ dead n = true)))
    (h : ∃ n ∈ l, dead n = true) : ∃ a n b, l = a++n::b ∧ dead n = true ∧
      (∀ m ∈ a, ¬ dead m = true) ∧ ∀ m ∈ b, ¬ dead m = true := by
  obtain ⟨n,hn,hd⟩ := h
  obtain ⟨a,b,rfl⟩ := List.append_of_mem hn
  rw [List.pairwise_append, List.pairwise_cons] at hone
  exact ⟨a,n,b,rfl,hd,fun m hm hdm => hone.2.2 m hm n List.mem_cons_self ⟨hdm,hd⟩,
    fun m hm hdm => hone.2.1.1 m hm ⟨hd,hdm⟩⟩

theorem deleteNode_filter (hone : l.Pairwise (fun m n => ¬ (dead m = true ∧ dead n = true)))
    (h : ∃ n ∈ l, dead n = true) :
    ((deleteNode dead l).map Prod.fst).getD l = l.filter (fun n => !dead n) := by
  have hfilter : ∀ ns : List ProcList, (∀ m ∈ ns, ¬ dead m = true) →
      ns.filter (fun m => !dead m) = ns :=
    fun ns hns => List.filter_eq_self.mpr (fun m hm => by simp [hns m hm])
  rw [deleteNode_match h]
  obtain ⟨a,n,b,rfl,hd,ha,hb⟩ := split_dead hone h
  rw [List.eraseP_append_right _ ha, List.eraseP_cons_of_pos hd, List.filter_append,
    List.filter_cons_of_neg (by simp [hd]), hfilter a ha, hfilter b hb]

theorem visit_filter (hone : l.Pairwise (fun m n => ¬ (dead m = true ∧ dead n = true))) :
    l.foldl (fun l n => if dead n then ((deleteNode dead l).map Prod.fst).getD l else l) l =
      l.filter (fun n => !dead n) := by
  have hskip : ∀ (ns l : List ProcList), (∀ n ∈ ns, ¬ dead n = true) → ns.foldl
      (fun l n => if dead n then ((deleteNode dead l).map Prod.fst).getD l else l) l = l := by
    intro ns
    induction ns with
    | nil => exact fun l _ => rfl
    | cons n ns ih =>
      intro l hns
      rw [List.foldl_cons, if_neg (hns n List.mem_cons_self)]
      exact ih l (fun m hm => hns m (List.mem_cons_of_mem _ hm))
  by_cases hany : ∃ n ∈ l, dead n = true
  · have hdelete := deleteNode_filter hone hany
    obtain ⟨a,n,b,rfl,hd,ha,hb⟩ := split_dead hone hany
    rw [List.foldl_append, hskip a _ ha, List.foldl_cons, if_pos hd, hdelete, hskip b _ hb]
  · have hno : ∀ n ∈ l, ¬ dead n = true := fun n hn hd => hany ⟨n,hn,hd⟩
    rw [hskip l l hno, List.filter_eq_self.mpr (fun m hm => by simp [hno m hm])]

theorem deleteRest_sublist (dead : ProcList → Bool) (temp : ProcList) (l : List ProcList) :
    ((deleteRest dead temp l).1).Sublist (temp::l) := by
  induction l generalizing temp with
  | nil => exact List.nil_sublist _
  | cons next l ih =>
    rw [deleteRest]
    split
    · exact List.sublist_cons_self _ _
    · exact (ih next).cons_cons _

theorem deleteNode_sublist (dead : ProcList → Bool) (l : List ProcList) :
    (((deleteNode dead l).map Prod.fst).getD l).Sublist l := by
  match l with
  | [] => exact List.Sublist.refl _
  | [first] =>
    by_cases hd : dead first = true
    · simp [deleteNode, hd]
    · simp [deleteNode, hd]
  | first::next::rest =>
    by_cases hd : dead first = true
    · simp [deleteNode, hd]
    · simpa [deleteNode, hd] using deleteRest_sublist dead next rest

theorem leaveAllproc_sublist (p : Word) (s : System) :
    (leaveAllproc p s).allproc.Sublist s.allproc := by
  have hfold : ∀ (dead : ProcList → Bool) (ns l l₀ : List ProcList), l.Sublist l₀ → (ns.foldl
      (fun l n => if dead n then ((deleteNode dead l).map Prod.fst).getD l else l) l).Sublist l₀ := by
    intro dead ns
    induction ns with
    | nil => exact fun l l₀ hl => hl
    | cons n ns ih =>
      intro l l₀ hl
      rw [List.foldl_cons]
      apply ih
      split
      · exact (deleteNode_sublist dead l).trans hl
      · exact hl
  exact hfold _ _ _ _ (List.Sublist.refl _)

def initTask (s : System) : Option Word := s.allproc.head?.map ProcList.process

structure Buried (p : Word) (s s' : System) : Prop where
  pcbs : ∀ r, alone (s'.pcbs r) = alone ((s.set p (Pcb.mark .zombie .stopped)).pcbs r)
  pptr : ∀ r, (s'.pcbs r).pptr = if r ∈ (s.pcbs p).cptr then initTask s else (s.pcbs r).pptr
  cptr : ∀ r, ∃ l, (∀ x ∈ l, x ∈ (s.pcbs p).cptr) ∧ (s'.pcbs r).cptr = (s.pcbs r).cptr++l ∧
    (l ≠ [] → initTask s = some r ∧ (s.pcbs r).cptr ≠ [])
  processes : s'.processes = s.processes
  made : s'.made = s.made
  current : s'.current = s.current
  idleTask : s'.idleTask = s.idleTask
  allproc : s'.allproc = (leaveAllproc p s).allproc
  lastPid : s'.lastPid = s.lastPid

theorem buried_regrouped (h : Regrouped s s₁)
    (hpptr : ∀ r, (s₁.pcbs r).pptr = if r ∈ (s.pcbs p).cptr then initTask s else (s.pcbs r).pptr)
    (hcptr : ∀ r, ∃ l, (∀ x ∈ l, x ∈ (s.pcbs p).cptr) ∧ (s₁.pcbs r).cptr = (s.pcbs r).cptr++l ∧
      (l ≠ [] → initTask s = some r ∧ (s.pcbs r).cptr ≠ [])) :
    Buried p s ((leaveAllproc p s₁).set p (Pcb.mark .zombie .stopped)) := by
  constructor
  case pcbs =>
    intro r
    by_cases hr : r = p
    · subst hr
      rw [set_same, set_same]
      exact congrArg (Pcb.mark .zombie .stopped) (h.pcbs r)
    · rw [set_other _ _ hr, set_other _ _ hr]
      exact h.pcbs r
  case pptr =>
    intro r
    rw [set_field Pcb.pptr (leaveAllproc p s₁) p _ rfl]
    exact hpptr r
  case cptr =>
    intro r
    rw [set_field Pcb.cptr (leaveAllproc p s₁) p _ rfl]
    exact hcptr r
  case allproc =>
    have hpid : ∀ r, (s₁.pcbs r).pid = (s.pcbs r).pid := fun r => (congrArg Pcb.pid (h.pcbs r) :)
    show (leaveAllproc p s₁).allproc = (leaveAllproc p s).allproc
    simp only [leaveAllproc, hpid, h.allproc]
  case processes => exact h.processes
  case made => exact h.made
  case current => exact h.current
  case idleTask => exact h.idleTask
  case lastPid => exact h.lastPid

theorem bury_effect (hs : bury p frames s = some s') : Buried p s s' := by
  obtain ⟨s₁,hs₁,rfl⟩ := Option.map_eq_some_iff.mp hs
  rw [reparentChildren] at hs₁
  cases hall : s.allproc with
  | nil =>
    -- without a first process there must be no child to hand on
    have hnil : (s.pcbs p).cptr = [] := by
      cases hc : (s.pcbs p).cptr with
      | nil => rfl
      | cons c cs =>
        rw [hc, reparentFrom, hc] at hs₁
        simp [reparentProcessToInit, hall] at hs₁
    rw [hnil, reparentFrom, hnil] at hs₁
    obtain rfl := Option.some.inj hs₁
    apply buried_regrouped (regrouped_refl s)
    · intro r
      rw [hnil, if_neg (by simp)]
    · intro r
      exact ⟨[],by simp,by simp,fun h => absurd rfl h⟩
  | cons init rest =>
    obtain ⟨hr,hpptr,hcptr⟩ := reparentFrom_effect 0 frames s hall hs₁
    have hinit : initTask s = some init.process := by rw [initTask, hall]; rfl
    rw [List.drop_zero] at hpptr hcptr
    apply buried_regrouped hr
    · rw [hinit]
      exact hpptr
    · intro r
      obtain ⟨l,hl,hcat,hne⟩ := hcptr r
      refine ⟨l,hl,hcat,?_⟩
      intro hl'
      rw [hinit, (hne hl').1]
      exact ⟨rfl,(hne hl').1 ▸ (hne hl').2⟩

theorem buried_field {α : Type} (g : Pcb → α) (hg : ∀ b, g (alone b) = g b)
    (hm : ∀ b, g (b.mark .zombie .stopped) = g b) (h : Buried p s s') (r : Word) :
    g (s'.pcbs r) = g (s.pcbs r) := by
  rw [← hg, h.pcbs r, hg]
  exact set_field g s p _ (hm _) r

theorem buried_other {α : Type} (g : Pcb → α) (hg : ∀ b, g (alone b) = g b) (p : Word)
    (s s' : System) (h : Buried p s s') (r : Word) (hr : r ≠ p) : g (s'.pcbs r) = g (s.pcbs r) := by
  rw [← hg, h.pcbs r, hg, set_other _ _ hr]

theorem buried_self (h : Buried p s s') :
    (s'.pcbs p).processState = .zombie ∧ (s'.pcbs p).threadState = .stopped := by
  have he := h.pcbs p
  rw [set_same] at he
  exact ⟨congrArg Pcb.processState he,congrArg Pcb.threadState he⟩

theorem buried_alive (p : Word) (s s' : System) (h : Buried p s s') (r : Word) (hr : r ≠ p) :
    Alive (s'.pcbs r) ↔ Alive (s.pcbs r) := by
  rw [Alive, Alive, buried_other Pcb.processState (fun _ => rfl) p s s' h r hr]

theorem buried_children (h : Buried p s s') (hp : p ∈ s.made) (ha : Alive (s.pcbs p))
    (hold : ∀ q ∈ s.made, Alive (s.pcbs q) → ∀ c ∈ (s.pcbs q).cptr,
      c ∈ s.made ∧ (s.pcbs c).pptr = some q) {q : Word} (hq : q ∈ s.made) (hqp : q ≠ p)
    (haq : Alive (s.pcbs q)) {c : Word} (hc : c ∈ (s'.pcbs q).cptr) :
    c ∈ s.made ∧ (s'.pcbs c).pptr = some q := by
  obtain ⟨l,hl,hcat,hne⟩ := h.cptr q
  rw [hcat] at hc
  rw [h.pptr c]
  rcases List.mem_append.mp hc with hc | hc
  · obtain ⟨hcm,hcq⟩ := hold q hq haq c hc
    have hnot : c ∉ (s.pcbs p).cptr :=
      fun hcp => hqp (Option.some.inj (hcq.symm.trans (hold p hp ha c hcp).2))
    rw [if_neg hnot]
    exact ⟨hcm,hcq⟩
  · rw [if_pos (hl c hc), (hne (List.ne_nil_of_mem hc)).1]
    exact ⟨(hold p hp ha c (hl c hc)).1,rfl⟩

instance : DecidablePred Alive := fun _ => inferInstanceAs (Decidable (_ ∧ _))

inductive FamilyEvent where
  | fork (parent child : Word) (node : Option KernelPtr)
  | exit (process : Word) (frames : ℕ)
  | reap (parent child : Word)

def familyStep (s : System) : FamilyEvent → Option System
  | .fork parent child node =>
    if parent ∈ s.made ∧ Alive (s.pcbs parent) then some (enlist child node (adopt parent child s))
    else none
  | .exit process frames =>
    if process ∈ s.made ∧ Alive (s.pcbs process) ∧ (s.pcbs process).pid ≠ 0 then
      bury process frames s
    else none
  | .reap parent child =>
    if parent ∈ s.made ∧ Alive (s.pcbs parent) ∧ child ∈ (s.pcbs parent).cptr then
      some (doWaitThread child s).1
    else none

def familyRun : System → List FamilyEvent → Option System
  | s, [] => some s
  | s, e::es => (familyStep s e).bind (fun s' => familyRun s' es)

def Related (s : System) : Prop :=
  ∀ c ∈ s.made, (s.pcbs c).pid ≠ 0 → (s.pcbs c).pid ≠ 1 → (s.pcbs c).processState ≠ .dead →
    ∃ p ∈ s.made, (s.pcbs c).pptr = some p ∧ Alive (s.pcbs p) ∧ (s.pcbs p).cptr.count c = 1

def Spare (s : System) (c : Word) : Prop :=
  (s.pcbs c).processState = .dead ∨ (s.pcbs c).pid = 1

def KeepsFamily (s : System) : FamilyEvent → Prop
  | .fork parent child _ => child ∉ s.made ∧ s.lastPid.toNat+1 < 2^16 ∧
    ∀ c ∈ (s.pcbs parent).cptr, c ∈ s.made → Spare s c
  | .exit process frames => (∀ c ∈ (s.pcbs process).cptr, Spare s c) ∨
    ∃ init, initTask s = some init ∧ init ≠ process ∧ (s.pcbs init).cptr ≠ [] ∧
      (s.pcbs process).cptr.length ≤ frames
  | .reap _ _ => True

def RunKeepsFamily : System → List FamilyEvent → Prop
  | _, [] => True
  | s, e::es => KeepsFamily s e ∧ ∀ s', familyStep s e = some s' → RunKeepsFamily s' es

structure Kin (s : System) : Prop where
  pids : ∀ p ∈ s.made, ∀ r ∈ s.made, (s.pcbs p).pid = (s.pcbs r).pid → p = r
  bound : ∀ p ∈ s.made, (s.pcbs p).pid.toNat ≤ s.lastPid.toNat
  children : (∃ idle, s.made = [idle] ∧ (s.pcbs idle).pid = 0) ∨
    ∀ p ∈ s.made, Alive (s.pcbs p) → ∀ c ∈ (s.pcbs p).cptr, c ∈ s.made ∧ (s.pcbs c).pptr = some p
  listed : ∀ n ∈ s.allproc, n.process ∈ s.made ∧ Alive (s.pcbs n.process)
  nodup : (s.allproc.map ProcList.process).Nodup
  related : Related s

theorem kin_init (memory : Word → Pcb) (idle : Word) : Kin (schedulerInit memory idle) := by
  have hpid : ((schedulerInit memory idle).pcbs idle).pid = 0 := by
    simp [schedulerInit, idlePcb]
  have hmem : ∀ p ∈ (schedulerInit memory idle).made, p = idle := fun p hp => List.mem_singleton.mp hp
  constructor
  case pids => exact fun p hp r hr _ => (hmem p hp).trans (hmem r hr).symm
  case bound =>
    intro p hp
    rw [hmem p hp, hpid]
    exact Nat.zero_le _
  case children => exact Or.inl ⟨idle,rfl,hpid⟩
  case listed => simp [schedulerInit]
  case nodup => simp [schedulerInit]
  case related =>
    intro c hc hne
    rw [hmem c hc] at hne
    exact absurd hpid hne

theorem adopt_old (parent child : Word) (s : System) (r : Word) (hr : r ≠ child) :
    (adopt parent child s).pcbs r =
      if r = parent then { s.pcbs r with cptr := [child] } else s.pcbs r := by
  rw [adopt]
  dsimp only
  rw [Function.update_of_ne hr]
  by_cases hp : r = parent
  · subst hp
    rw [if_pos rfl, set_same]
  · rw [if_neg hp, set_other _ _ hp]

theorem adopt_new (parent child : Word) (s : System) :
    (adopt parent child s).pcbs child = childPcb parent ((s.lastPid+1).setWidth 16) :=
  Function.update_self ..

theorem adopt_field {α : Type} (g : Pcb → α) (hg : ∀ b l, g { b with cptr := l } = g b)
    (parent : Word) (s : System) {r : Word} (hr : r ≠ child) :
    g ((adopt parent child s).pcbs r) = g (s.pcbs r) := by
  rw [adopt_old parent child s r hr]
  by_cases hp : r = parent
  · rw [if_pos hp, hg]
  · rw [if_neg hp]

theorem nextPid_toNat (h : s.lastPid.toNat+1 < 2^16) :
    ((s.lastPid+1).setWidth 16).toNat = s.lastPid.toNat+1 ∧
    (s.lastPid+1).toNat = s.lastPid.toNat+1 := by
  have hsum : (s.lastPid+1).toNat = s.lastPid.toNat+1 := by
    rw [BitVec.toNat_add]
    exact Nat.mod_eq_of_lt (by simp; omega)
  refine ⟨?_,hsum⟩
  rw [BitVec.toNat_setWidth, hsum]
  exact Nat.mod_eq_of_lt h

section
variable (parent child : Word) {s : System} (hnew : child ∉ s.made)
include hnew

theorem adopt_made {α : Type} (g : Pcb → α) (hg : ∀ b l, g { b with cptr := l } = g b) (r : Word)
    (hr : r ∈ s.made) : g ((adopt parent child s).pcbs r) = g (s.pcbs r) :=
  adopt_field g hg parent s (fun he => hnew (he ▸ hr))

theorem adopt_cptr (r : Word) (hr : r ∈ s.made) :
    ((adopt parent child s).pcbs r).cptr = if r = parent then [child] else (s.pcbs r).cptr := by
  rw [adopt_old parent child s r (fun he => hnew (he ▸ hr))]
  split <;> rfl

theorem adopt_alive (r : Word) (hr : r ∈ s.made) :
    Alive ((adopt parent child s).pcbs r) ↔ Alive (s.pcbs r) := by
  rw [Alive, Alive, adopt_made parent child hnew Pcb.processState (fun _ _ => rfl) r hr]

theorem adopt_pids (l : List Word) (hl : ∀ r ∈ l, r ∈ s.made)
    (hpids : ∀ p ∈ l, ∀ r ∈ l, (s.pcbs p).pid = (s.pcbs r).pid → p = r)
    (hfresh : ∀ r ∈ l, (s.pcbs r).pid ≠ (s.lastPid+1).setWidth 16) (p r : Word)
    (hp : p = child ∨ p ∈ l) (hr : r = child ∨ r ∈ l)
    (he : ((adopt parent child s).pcbs p).pid = ((adopt parent child s).pcbs r).pid) : p = r := by
  have hkept := fun r hr => adopt_made parent child hnew Pcb.pid (fun _ _ => rfl) r (hl r hr)
  rcases hp with rfl | hp <;> rcases hr with rfl | hr
  · rfl
  · rw [adopt_new, hkept r hr] at he
    exact absurd he.symm (hfresh r hr)
  · rw [adopt_new, hkept p hp] at he
    exact absurd he (hfresh p hp)
  · rw [hkept p hp, hkept r hr] at he
    exact hpids p hp r hr he

theorem adopt_bound (hbound : ∀ p ∈ s.made, (s.pcbs p).pid.toNat ≤ s.lastPid.toNat)
    (hroom : s.lastPid.toNat+1 < 2^16) (p : Word) (hp : p ∈ child::s.made) :
    ((adopt parent child s).pcbs p).pid.toNat ≤ (s.lastPid+1).toNat := by
  obtain ⟨hpid,hlast⟩ := nextPid_toNat hroom
  rw [hlast]
  rcases List.mem_cons.mp hp with rfl | hp
  · rw [adopt_new]
    exact hpid.le
  · rw [adopt_made parent child hnew Pcb.pid (fun _ _ => rfl) p hp]
    exact (hbound p hp).trans (Nat.le_succ _)

theorem adopt_children (hold : ∀ p ∈ s.made, p ≠ parent → Alive (s.pcbs p) →
      ∀ c ∈ (s.pcbs p).cptr, c ∈ s.made ∧ (s.pcbs c).pptr = some p) (p : Word)
    (hp : p ∈ child::s.made) (ha : Alive ((adopt parent child s).pcbs p)) (c : Word)
    (hc : c ∈ ((adopt parent child s).pcbs p).cptr) :
    c ∈ child::s.made ∧ ((adopt parent child s).pcbs c).pptr = some p := by
  rcases List.mem_cons.mp hp with rfl | hp
  · rw [adopt_new] at hc
    exact absurd hc List.not_mem_nil
  · rw [adopt_cptr parent child hnew p hp] at hc
    split at hc
    · rename_i hpp
      rw [List.mem_singleton.mp hc, hpp, adopt_new]
      exact ⟨List.mem_cons_self,rfl⟩
    · rename_i hpp
      obtain ⟨hcm,hcp⟩ := hold p hp hpp ((adopt_alive parent child hnew p hp).mp ha) c hc
      refine ⟨List.mem_cons_of_mem _ hcm,?_⟩
      rw [adopt_made parent child hnew Pcb.pptr (fun _ _ => rfl) c hcm]
      exact hcp

end

theorem nextPid_fresh (hbound : ∀ p ∈ s.made, (s.pcbs p).pid.toNat ≤ s.lastPid.toNat)
    (hroom : s.lastPid.toNat+1 < 2^16) (r : Word) (hr : r ∈ s.made) :
    (s.pcbs r).pid ≠ (s.lastPid+1).setWidth 16 := by
  intro he
  have hb := hbound r hr
  rw [he, (nextPid_toNat hroom).1] at hb
  omega

theorem children_of_exit {P : Word → Prop} (hP : ∀ r, P r → (s.pcbs r).pid = 0) (p : Word)
    (hp : p ∈ s.made) (hpid : (s.pcbs p).pid ≠ 0)
    (h : (∃ idle, s.made = [idle] ∧ P idle) ∨ ∀ p ∈ s.made, Alive (s.pcbs p) →
      ∀ c ∈ (s.pcbs p).cptr, c ∈ s.made ∧ (s.pcbs c).pptr = some p) :
    ∀ p ∈ s.made, Alive (s.pcbs p) → ∀ c ∈ (s.pcbs p).cptr, c ∈ s.made ∧
      (s.pcbs c).pptr = some p := by
  rcases h with ⟨idle,hmade,hidle⟩ | hchildren
  · rw [hmade, List.mem_singleton] at hp
    exact absurd (hP p (hp ▸ hidle)) hpid
  · exact hchildren

theorem children_of_others (P : Word → Prop) (parent : Word) (hp : parent ∈ s.made)
    (h : (∃ idle, s.made = [idle] ∧ P idle) ∨ ∀ p ∈ s.made, Alive (s.pcbs p) →
      ∀ c ∈ (s.pcbs p).cptr, c ∈ s.made ∧ (s.pcbs c).pptr = some p) (p : Word) (hpm : p ∈ s.made)
    (hpp : p ≠ parent) (ha : Alive (s.pcbs p)) (c : Word) (hc : c ∈ (s.pcbs p).cptr) :
    c ∈ s.made ∧ (s.pcbs c).pptr = some p := by
  rcases h with ⟨idle,hmade,_⟩ | hchildren
  · rw [hmade, List.mem_singleton] at hp hpm
    exact absurd (hpm.trans hp.symm) hpp
  · exact hchildren p hpm ha c hc

section
variable {s : System} (h : Kin s)
include h

theorem kin_fork {parent : Word} (node : Option KernelPtr) (hp : parent ∈ s.made)
    (ha : Alive (s.pcbs parent)) (hnew : child ∉ s.made) (hroom : s.lastPid.toNat+1 < 2^16)
    (hspare : ∀ c ∈ (s.pcbs parent).cptr, c ∈ s.made → Spare s c) :
    Kin (enlist child node (adopt parent child s)) := by
  have hcptr := adopt_cptr parent child hnew
  have halive := adopt_alive parent child hnew
  constructor
  case pids =>
    intro p hpc r hrc
    exact adopt_pids parent child hnew s.made (fun _ hr => hr) h.pids (nextPid_fresh h.bound hroom)
      p r (List.mem_cons.mp hpc) (List.mem_cons.mp hrc)
  case bound => exact adopt_bound parent child hnew h.bound hroom
  case children =>
    exact Or.inr (adopt_children parent child hnew (children_of_others _ parent hp h.children))
  case listed =>
    intro n hn
    rcases List.mem_append.mp hn with hn | hn
    · obtain ⟨hm,hal⟩ := h.listed n hn
      exact ⟨List.mem_cons_of_mem _ hm,(halive _ hm).mpr hal⟩
    · obtain ⟨k,_,rfl⟩ := List.mem_map.mp hn
      refine ⟨List.mem_cons_self,?_⟩
      show Alive ((adopt parent child s).pcbs child)
      rw [adopt_new]
      exact ⟨by simp [childPcb],by simp [childPcb]⟩
  case nodup =>
    show ((s.allproc++_).map ProcList.process).Nodup
    rw [List.map_append, List.map_map]
    cases node with
    | none => simpa using h.nodup
    | some k =>
      rw [List.nodup_append]
      refine ⟨h.nodup,by simp,?_⟩
      rintro a hain b hb rfl
      obtain ⟨n,hn,hna⟩ := List.mem_map.mp hain
      obtain rfl : a = child := by simpa using hb
      exact hnew (hna ▸ (h.listed n hn).1)
  case related =>
    intro c hcm hc0 hc1 hcd
    change ((adopt parent child s).pcbs c).pid ≠ 0 at hc0
    change ((adopt parent child s).pcbs c).pid ≠ 1 at hc1
    change ((adopt parent child s).pcbs c).processState ≠ .dead at hcd
    show ∃ p ∈ child::s.made, ((adopt parent child s).pcbs c).pptr = some p ∧
      Alive ((adopt parent child s).pcbs p) ∧ ((adopt parent child s).pcbs p).cptr.count c = 1
    rcases List.mem_cons.mp hcm with rfl | hc
    · refine ⟨parent,List.mem_cons_of_mem _ hp,by rw [adopt_new]; rfl,(halive parent hp).mpr ha,?_⟩
      rw [hcptr parent hp, if_pos rfl]
      simp
    · rw [adopt_made parent child hnew Pcb.pid (fun _ _ => rfl) c hc] at hc0 hc1
      rw [adopt_made parent child hnew Pcb.processState (fun _ _ => rfl) c hc] at hcd
      rw [adopt_made parent child hnew Pcb.pptr (fun _ _ => rfl) c hc]
      obtain ⟨p,hpm,hpp,hap,hcount⟩ := h.related c hc hc0 hc1 hcd
      have hnot : p ≠ parent := by
        rintro rfl
        have hmem : c ∈ (s.pcbs p).cptr := List.count_pos_iff.mp (by omega)
        rcases hspare c hmem hc with hs | hs
        · exact hcd hs
        · exact hc1 hs
      refine ⟨p,List.mem_cons_of_mem _ hpm,hpp,(halive p hpm).mpr hap,?_⟩
      rw [hcptr p hpm, if_neg hnot]
      exact hcount

end

theorem bury_list (hs : bury p frames s = some s') {init : Word} (hinit : initTask s = some init)
    (hne : init ≠ p) (hsome : (s.pcbs init).cptr ≠ []) (hframes : (s.pcbs p).cptr.length ≤ frames) :
    (s'.pcbs init).cptr = (s.pcbs init).cptr++(s.pcbs p).cptr := by
  obtain ⟨s₁,hs₁,rfl⟩ := Option.map_eq_some_iff.mp hs
  obtain ⟨n,hn,rfl⟩ := Option.map_eq_some_iff.mp hinit
  obtain ⟨rest,hall⟩ : ∃ rest, s.allproc = n::rest := List.head?_eq_some_iff.mp hn
  have hlist := reparentFrom_list 0 frames s hall hne hsome (by omega) hs₁
  rw [set_other _ _ hne]
  exact hlist

theorem leaveAllproc_mem (h : Kin s) {n : ProcList} (hn : n ∈ (leaveAllproc p s).allproc) :
    n ∈ s.allproc ∧ n.process ≠ p := by
  have hone : s.allproc.Pairwise (fun m n => ¬ (decide ((s.pcbs m.process).pid = (s.pcbs p).pid) =
      true ∧ decide ((s.pcbs n.process).pid = (s.pcbs p).pid) = true)) := by
    apply List.Pairwise.imp_of_mem _ (List.pairwise_map.mp h.nodup)
    intro m n hm hn hne hdead
    rw [decide_eq_true_eq, decide_eq_true_eq] at hdead
    exact hne (h.pids _ (h.listed m hm).1 _ (h.listed n hn).1 (hdead.1.trans hdead.2.symm))
  rw [leaveAllproc, visit_filter hone, List.mem_filter] at hn
  refine ⟨hn.1,?_⟩
  intro he
  simp [he] at hn

section
variable {s : System} (h : Kin s)
include h

theorem kin_exit (hp : p ∈ s.made) (ha : Alive (s.pcbs p)) (hpid : (s.pcbs p).pid ≠ 0)
    (hkeep : KeepsFamily s (.exit p frames)) (hs : bury p frames s = some s') : Kin s' := by
  have hchildren := children_of_exit (fun _ hr => hr) p hp hpid h.children
  have hb := bury_effect hs
  have hpids := buried_field Pcb.pid (fun _ => rfl) (fun _ => rfl) hb
  have halive := buried_alive p s s' hb
  have hown : ∀ c ∈ (s.pcbs p).cptr, (s.pcbs c).pptr = some p :=
    fun c hc => (hchildren p hp ha c hc).2
  constructor
  case pids =>
    intro a ham b hbm he
    rw [hb.made] at ham hbm
    rw [hpids, hpids] at he
    exact h.pids a ham b hbm he
  case bound =>
    intro a ham
    rw [hb.made] at ham
    rw [hpids, hb.lastPid]
    exact h.bound a ham
  case children =>
    right
    intro q hq haq c hc
    rw [hb.made] at hq ⊢
    have hqp : q ≠ p := fun he => haq.1 (he ▸ (buried_self hb).1)
    exact buried_children hb hp ha hchildren hq hqp ((halive q hqp).mp haq) hc
  case listed =>
    intro n hn
    rw [hb.allproc] at hn
    obtain ⟨hn,hnp⟩ := leaveAllproc_mem h hn
    obtain ⟨hm,hal⟩ := h.listed n hn
    exact ⟨hb.made ▸ hm,(halive _ hnp).mpr hal⟩
  case nodup =>
    rw [hb.allproc]
    have hsub : (leaveAllproc p s).allproc.Sublist s.allproc := leaveAllproc_sublist p s
    exact (hsub.map ProcList.process).nodup h.nodup
  case related =>
    intro c hc hc0 hc1 hcd
    rw [hb.made] at hc
    rw [hpids] at hc0 hc1
    have hcd' : (s.pcbs c).processState ≠ .dead := by
      by_cases hcp : c = p
      · subst hcp
        exact ha.2
      · rwa [buried_other Pcb.processState (fun _ => rfl) p s s' hb c hcp] at hcd
    obtain ⟨q,hq,hcq,haq,hcount⟩ := h.related c hc hc0 hc1 hcd'
    have hcin : c ∈ (s.pcbs q).cptr := List.count_pos_iff.mp (by omega)
    rw [hb.made, hb.pptr c]
    by_cases hqp : q = p
    · -- the exiting process hands the child on
      subst hqp
      rw [if_pos hcin]
      rcases hkeep with hspare | ⟨init,hinit,hne,hsome,hframes⟩
      · exact ((hspare c hcin).elim hcd' hc1).elim
      · obtain ⟨n,hn,hnp⟩ := Option.map_eq_some_iff.mp hinit
        obtain ⟨him,hia⟩ := h.listed n (List.mem_of_mem_head? hn)
        rw [hnp] at him hia
        have hnot : c ∉ (s.pcbs init).cptr :=
          fun hci => hne (Option.some.inj ((hchildren init him hia c hci).2.symm.trans hcq))
        refine ⟨init,him,hinit,(halive init hne).mpr hia,?_⟩
        rw [bury_list hs hinit hne hsome hframes, List.count_append, hcount,
          List.count_eq_zero_of_not_mem hnot]
    · have hnot : c ∉ (s.pcbs p).cptr :=
        fun hcp => hqp (Option.some.inj (hcq.symm.trans (hown c hcp)))
      obtain ⟨l,hl,hcat,_⟩ := hb.cptr q
      refine ⟨q,hq,by rw [if_neg hnot]; exact hcq,(halive q hqp).mpr haq,?_⟩
      rw [hcat, List.count_append, hcount,
        List.count_eq_zero_of_not_mem (fun hcl => hnot (hl c hcl))]

theorem kin_reap (child : Word) : Kin (doWaitThread child s).1 := by
  rw [doWaitThread]
  split
  · rename_i hz
    have hfield : ∀ {α : Type} (g : Pcb → α), (∀ b, g { b with processState := .dead } = g b) →
        ∀ r, g ((s.set child (fun b => { b with processState := .dead })).pcbs r) = g (s.pcbs r) :=
      fun g hg r => set_field g s child _ (hg _) r
    have hpids := hfield Pcb.pid (fun _ => rfl)
    have halive : ∀ r, Alive ((s.set child (fun b => { b with processState := .dead })).pcbs r) ↔
        Alive (s.pcbs r) := by
      intro r
      by_cases hr : r = child
      · subst hr
        rw [set_same]
        exact ⟨fun ha => absurd rfl ha.2,fun ha => absurd hz.1 ha.1⟩
      · rw [set_other _ _ hr]
    constructor
    case pids =>
      intro a ha b hb he
      rw [hpids, hpids] at he
      exact h.pids a ha b hb he
    case bound =>
      intro a ha
      rw [hpids]
      exact h.bound a ha
    case children =>
      rw [set_made]
      simp only [hpids, halive, hfield Pcb.cptr (fun _ => rfl), hfield Pcb.pptr (fun _ => rfl)]
      exact h.children
    case listed =>
      intro n hn
      rw [halive]
      exact h.listed n hn
    case nodup => exact h.nodup
    case related =>
      intro c hc hc0 hc1 hcd
      simp only [hpids, halive, hfield Pcb.cptr (fun _ => rfl), hfield Pcb.pptr (fun _ => rfl)]
        at hc0 hc1 ⊢
      apply h.related c hc hc0 hc1
      by_cases hr : c = child
      · subst hr
        rw [hz.1]
        simp
      · rwa [set_other _ _ hr] at hcd
  · exact h

end

theorem kin_step {e : FamilyEvent} (h : Kin s) (hkeep : KeepsFamily s e)
    (hs : familyStep s e = some s') : Kin s' := by
  cases e with
  | fork parent child node =>
    rw [familyStep] at hs
    split at hs
    · rename_i hp
      obtain rfl := Option.some.inj hs
      exact kin_fork h node hp.1 hp.2 hkeep.1 hkeep.2.1 hkeep.2.2
    · cases hs
  | exit process frames =>
    rw [familyStep] at hs
    split at hs
    · rename_i hp
      exact kin_exit h hp.1 hp.2.1 hp.2.2 hkeep hs
    · cases hs
  | reap parent child =>
    rw [familyStep] at hs
    split at hs
    · obtain rfl := Option.some.inj hs
      exact kin_reap h child
    · cases hs

theorem kin_run {es : List FamilyEvent} (s : System) (h : Kin s) (hkeep : RunKeepsFamily s es)
    (hs : familyRun s es = some s') : Kin s' := by
  induction es generalizing s with
  | nil =>
    obtain rfl := Option.some.inj hs
    exact h
  | cons e es ih =>
    obtain ⟨s₁,hs₁,hs⟩ := Option.bind_eq_some_iff.mp hs
    exact ih s₁ (kin_step h hkeep.1 hs₁) (hkeep.2 s₁ hs₁) hs

/-- In every run of forks, exits and waits whose steps keep the families, both
sides of the relation agree. -/
theorem families_stay_related (memory : Word → Pcb) (idle : Word) (es : List FamilyEvent)
    (s : System) (hkeep : RunKeepsFamily (schedulerInit memory idle) es)
    (hs : familyRun (schedulerInit memory idle) es = some s) : Related s :=
  (kin_run _ (kin_init memory idle) hkeep hs).related

def firstSystem : System := schedulerInit (fun _ => childPcb 0 0) 0x1000

def node : Option KernelPtr := some (kernelPtr 0x9000)

def threeGenerations : List FamilyEvent :=
  [.fork 0x1000 0x2000 node,.fork 0x2000 0x3000 node,.fork 0x3000 0x4000 node]

/-- The grandchild of init is handed on to init. -/
theorem families_stay_related_orphan : ∃ s,
    familyRun firstSystem (threeGenerations++[.exit 0x3000 8]) = some s ∧ Related s ∧
      (s.pcbs 0x4000).pptr = some 0x2000 := by
  refine ⟨_,rfl,?_,rfl⟩
  refine families_stay_related (fun _ => childPcb 0 0) 0x1000 (threeGenerations++[.exit 0x3000 8]) _
    ?_ rfl
  refine ⟨⟨by decide,by decide,by simp [schedulerInit, idlePcb, childPcb]⟩,?_⟩
  rintro s₁ ⟨⟩
  refine ⟨⟨by decide,by decide,?_⟩,?_⟩
  · intro c hc
    cases show c ∈ ([] : List Word) from hc
  rintro s₂ ⟨⟩
  refine ⟨⟨by decide,by decide,?_⟩,?_⟩
  · intro c hc
    cases show c ∈ ([] : List Word) from hc
  rintro s₃ ⟨⟩
  exact ⟨Or.inr ⟨0x2000,rfl,by decide,by decide,by decide⟩,fun _ _ => trivial⟩

/-- A second fork of init takes the first child off its list. -/
theorem second_fork_loses_child : ∃ s,
    familyRun firstSystem [.fork 0x1000 0x2000 node,.fork 0x2000 0x3000 node,
      .fork 0x2000 0x4000 node] = some s ∧ ¬ Related s := by
  refine ⟨_,rfl,?_⟩
  intro h
  obtain ⟨p,_,hp,_,hcount⟩ := h 0x3000 (by decide) (by decide) (by decide) (by decide)
  obtain rfl : 0x2000 = p := Option.some.inj hp
  exact absurd hcount (by decide)

end PreemptiveOS.ProcessTree
