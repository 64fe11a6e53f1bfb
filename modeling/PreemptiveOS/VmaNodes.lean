import PreemptiveOS.DoubleLinks
import PreemptiveOS.KernelObjects
import PreemptiveOS.VmaRanges

/-!
# VMA nodes and their links

The list functions of `memory.c` on the nodes themselves: each node has its
fields and the two links, and an address space has the address of its first
node. A walk of more rounds than it is given never ends. An insertion behind a
predecessor that was never set and a write through a null pointer have no
result.
-/

set_option autoImplicit false

namespace PreemptiveOS.VmaNodes
open ByteMemory Vmas KernelObjects LinkedQueues DoubleLinks

structure Nodes where
  data : KernelPtr → Vma
  next : KernelPtr → Option KernelPtr
  prev : KernelPtr → Option KernelPtr

def Nodes.write (n : Nodes) (p : KernelPtr) (vma : Vma) : Nodes :=
  { n with data := Function.update n.data p vma }

def Nodes.setNext (n : Nodes) (p : KernelPtr) (q : Option KernelPtr) : Nodes :=
  { n with next := Function.update n.next p q }

def Nodes.setPrev (n : Nodes) (p : KernelPtr) (q : Option KernelPtr) : Nodes :=
  { n with prev := Function.update n.prev p q }

section
variable (n : Nodes) (p r : KernelPtr) (q : Option KernelPtr) (vma : Vma)

@[simp] theorem write_data : (n.write p vma).data r = if r = p then vma else n.data r :=
  Function.update_apply n.data p vma r

@[simp] theorem write_next : (n.write p vma).next = n.next := rfl

@[simp] theorem write_prev : (n.write p vma).prev = n.prev := rfl

@[simp] theorem setNext_next : (n.setNext p q).next r = if r = p then q else n.next r :=
  Function.update_apply n.next p q r

@[simp] theorem setNext_prev : (n.setNext p q).prev = n.prev := rfl

@[simp] theorem setPrev_prev : (n.setPrev p q).prev r = if r = p then q else n.prev r :=
  Function.update_apply n.prev p q r

@[simp] theorem setPrev_next : (n.setPrev p q).next = n.next := rfl

end

structure VmaList where
  nodes : Nodes
  head : Option KernelPtr

inductive Found where
  | overlaps
  | place (prev : Option KernelPtr)
  | unset

def findVmaPrevFrom (n : Nodes) (vma : Vma) : ℕ → KernelPtr → Option Found
  | 0, _ => none
  | k+1, curr =>
    if isOverlappingVma (n.data curr) vma then some .overlaps
    else
      match n.next curr with
      | none =>
        some (if (n.data curr).endAddr ≤ vma.startAddr then .place (some curr) else .unset)
      | some next =>
        if (n.data curr).endAddr ≤ vma.startAddr ∧ vma.endAddr ≤ (n.data next).startAddr then
          some (.place (some curr))
        else findVmaPrevFrom n vma k next

def findVmaPrev (rounds : ℕ) (x : VmaList) (vma : Vma) : Option Found :=
  match x.head with
  | none => some (.place none)
  | some curr =>
    if vma.endAddr ≤ (x.nodes.data curr).startAddr then some (.place none)
    else findVmaPrevFrom x.nodes vma rounds curr

def insertVma (x : VmaList) (vma : KernelPtr) (prev : Option KernelPtr) : VmaList :=
  let next := prev.elim x.head x.nodes.next
  let n₁ := prev.elim x.nodes (fun p => x.nodes.setNext p (some vma))
  let n₂ := (n₁.setPrev vma prev).setNext vma next
  ⟨next.elim n₂ (fun q => n₂.setPrev q (some vma)),prev.elim (some vma) (fun _ => x.head)⟩

def addVma (rounds : ℕ) (x : VmaList) (vma : KernelPtr) : Option (VmaList × ℤ) :=
  match findVmaPrev rounds x (x.nodes.data vma) with
  | some .overlaps => some (x,-1)
  | some (.place prev) => some (insertVma x vma prev,0)
  | some .unset => none
  | none => none

def unlink (n : Nodes) (curr : KernelPtr) : Option Nodes :=
  match n.prev curr with
  | none => none
  | some p =>
    match n.next curr with
    | none => some ((n.setNext p none).setPrev curr none)
    | some q => some ((n.setNext p (some q)).setPrev q (some p))

def removeVmaFrom (vma : KernelPtr) : ℕ → KernelPtr → Nodes → Option Nodes
  | 0, _, _ => none
  | k+1, curr, n =>
    if curr = vma then unlink n curr
    else
      match n.next curr with
      | none => some n
      | some next => removeVmaFrom vma k next n

/-- For the first node the back link is cleared one node too far. -/
def removeVma (rounds : ℕ) (x : VmaList) (vma : KernelPtr) : Option VmaList :=
  match x.head with
  | none => none
  | some first =>
    if first = vma then
      match x.nodes.next first with
      | none => none
      | some second =>
        match x.nodes.next second with
        | none => none
        | some third => some ⟨x.nodes.setPrev third none,some second⟩
    else (removeVmaFrom vma rounds first x.nodes).map (fun n => ⟨n,x.head⟩)

def findVmaRegionFrom (n : Nodes) (addr len : Word) : ℕ → Option KernelPtr → Option (Option KernelPtr)
  | _, none => some none
  | 0, some _ => none
  | k+1, some vma =>
    if (n.data vma).startAddr ≤ addr ∧ addr+len ≤ pageRoundDown (n.data vma).endAddr then
      some (some vma)
    else findVmaRegionFrom n addr len k (n.next vma)

def Linked (x : VmaList) (l : List KernelPtr) : Prop :=
  Doubly x.nodes.next x.nodes.prev x.head l

theorem insertVma_next (x : VmaList) (v : KernelPtr) (prev : Option KernelPtr) (p : KernelPtr) :
    (insertVma x v prev).nodes.next p =
      if p = v then prev.elim x.head x.nodes.next
      else if prev = some p then some v else x.nodes.next p := by
  rw [insertVma]
  cases prev.elim x.head x.nodes.next <;> cases prev <;> simp [eq_comm]

theorem insertVma_prev (x : VmaList) (v : KernelPtr) (prev : Option KernelPtr) (p : KernelPtr) :
    (insertVma x v prev).nodes.prev p =
      if prev.elim x.head x.nodes.next = some p then some v
      else if p = v then prev else x.nodes.prev p := by
  rw [insertVma]
  cases prev.elim x.head x.nodes.next <;> cases prev <;> simp [eq_comm]

theorem insertVma_data (x : VmaList) (v : KernelPtr) {prev : Option KernelPtr} :
    (insertVma x v prev).nodes.data = x.nodes.data := by
  rw [insertVma]
  cases prev.elim x.head x.nodes.next <;> cases prev <;> rfl

variable {v : KernelPtr} {l₁ l₂ : List KernelPtr} {x : VmaList}

theorem insert_linked (h : Linked x (l₁++l₂)) (hv : v ∉ l₁++l₂) :
    Linked (insertVma x v l₁.getLast?) (l₁++v::l₂) := by
  have hjoint := doubly_joint x.head l₁ l₂ h
  have hhead : (insertVma x v l₁.getLast?).head = if l₁ = [] then some v else x.head := by
    rcases List.eq_nil_or_concat l₁ with rfl | ⟨l,p,rfl⟩
    · rfl
    · simp [insertVma]
  rw [Linked, hhead]
  apply doubly_insert h
  · intro p hp
    have hne : p ≠ v := fun he => hv (he ▸ hp)
    rw [insertVma_next, if_neg hne]
  · intro p hp
    have hne : p ≠ v := fun he => hv (he ▸ hp)
    rw [insertVma_prev, hjoint, if_neg hne]
  · rw [insertVma_next, if_pos rfl, hjoint]
  · have hout : ¬ l₂.head? = some v := fun he => hv (by simp [List.mem_of_mem_head? he])
    rw [insertVma_prev, hjoint, if_neg hout, if_pos rfl]

def placed (l : List KernelPtr) : Prev → Found
  | .overlaps => .overlaps
  | .null => .place none
  | .entry i => .place l[i]?
  | .unset => .unset

variable {l : List KernelPtr} {n : Nodes}

/-- The walk over the nodes finds what the walk over their records finds, by
induction on the nodes that are left. -/
theorem findVmaPrevFrom_records (vma : Vma) (done : List KernelPtr) (curr : KernelPtr) (k : ℕ)
    (hc : Chain n.next (some curr) (curr::l)) (hk : l.length < k) :
    findVmaPrevFrom n vma k curr = some (placed (done++curr::l)
      (Vmas.findVmaPrevFrom vma done.length ((curr::l).map n.data))) := by
  induction l generalizing done curr k with
  | nil =>
    obtain ⟨k,rfl⟩ := Nat.exists_eq_succ_of_ne_zero (Nat.ne_zero_of_lt hk)
    have hlast : n.next curr = none := hc.2
    simp only [findVmaPrevFrom, hlast, List.map_cons, List.map_nil, Vmas.findVmaPrevFrom]
    split_ifs <;> simp [placed]
  | cons q l ih =>
    obtain ⟨k,rfl⟩ := Nat.exists_eq_succ_of_ne_zero (Nat.ne_zero_of_lt hk)
    obtain ⟨_,hq,hrest⟩ := hc
    have hstep := ih (done++[curr]) q k ⟨rfl,hrest⟩ (by simpa using hk)
    rw [findVmaPrevFrom, hq, List.map_cons, List.map_cons, Vmas.findVmaPrevFrom]
    dsimp only
    split_ifs
    · rfl
    · simp [placed]
    · simpa using hstep

variable {rounds : ℕ}

theorem findVmaPrev_records (vma : Vma) (h : Linked x l) (hr : l.length ≤ rounds) :
    findVmaPrev rounds x vma = some (placed l (Vmas.findVmaPrev (l.map x.nodes.data) vma)) := by
  have hc := doubly_chain x.head l h
  rw [findVmaPrev, doubly_head h]
  cases l with
  | nil => rfl
  | cons p l =>
    rw [List.head?_cons, List.map_cons, Vmas.findVmaPrev]
    dsimp only
    split_ifs
    · rfl
    · exact findVmaPrevFrom_records vma [] p rounds ⟨rfl,hc.2⟩ hr

def Overlap (v w : Vma) : Prop := v.startAddr < w.endAddr ∧ w.startAddr < v.endAddr

variable {vma : Vma}

theorem isOverlappingVma_iff {curr : Vma} (hc : curr.startAddr < curr.endAddr)
    (hv : vma.startAddr < vma.endAddr) : isOverlappingVma curr vma = true ↔ Overlap curr vma := by
  rw [isOverlappingVma, decide_eq_true_eq, Overlap]
  simp only [BitVec.lt_def, BitVec.le_def, ← BitVec.toNat_inj] at *
  omega

structure InOrder (vmas : List Vma) : Prop where
  sorted : vmas.Pairwise (fun v w => v.startAddr ≤ w.startAddr)
  proper : ∀ v ∈ vmas, v.startAddr < v.endAddr
  disjoint : vmas.Pairwise (fun v w => ¬ Overlap v w)

structure Between (vma : Vma) (vmas₁ vmas₂ : List Vma) : Prop where
  below : ∀ w ∈ vmas₁, w.endAddr ≤ vma.startAddr
  above : ∀ w ∈ vmas₂, vma.endAddr ≤ w.startAddr

variable {vmas : List Vma}

theorem inOrder_tail {v : Vma} (h : InOrder (v::vmas)) : InOrder vmas := by
  constructor
  case sorted => exact (List.pairwise_cons.mp h.sorted).2
  case proper => exact fun w hw => h.proper w (by simp [hw])
  case disjoint => exact (List.pairwise_cons.mp h.disjoint).2

theorem inOrder_behind (v w : Vma) (vmas : List Vma) (h : InOrder (v::vmas)) (hw : w ∈ vmas) :
    v.endAddr ≤ w.startAddr := by
  have hs := (List.pairwise_cons.mp h.sorted).1 w hw
  have hd := (List.pairwise_cons.mp h.disjoint).1 w hw
  have hp := h.proper w (by simp [hw])
  simp only [Overlap, BitVec.lt_def, BitVec.le_def] at *
  omega

theorem findVmaPrevFrom_inOrder (curr : Vma) (i : ℕ) (h : InOrder (curr::vmas))
    (hv : vma.startAddr < vma.endAddr) (hcurr : curr.startAddr < vma.endAddr) :
    ((∃ w ∈ curr::vmas, Overlap w vma) ∧
      Vmas.findVmaPrevFrom vma i (curr::vmas) = .overlaps) ∨
    ∃ vmas₁ vmas₂, vmas = vmas₁++vmas₂ ∧ Between vma (curr::vmas₁) vmas₂ ∧
      Vmas.findVmaPrevFrom vma i (curr::vmas) = .entry (i+vmas₁.length) := by
  induction vmas generalizing curr i with
  | nil =>
    have hover := isOverlappingVma_iff (h.proper curr (by simp)) hv
    by_cases ho : Overlap curr vma
    · refine Or.inl ⟨⟨curr,by simp,ho⟩,?_⟩
      rw [Vmas.findVmaPrevFrom, if_pos (hover.mpr ho)]
    · have hend : curr.endAddr ≤ vma.startAddr := by
        simp only [Overlap, BitVec.lt_def, BitVec.le_def] at *
        omega
      refine Or.inr ⟨[],[],rfl,⟨by simpa using hend,by simp⟩,?_⟩
      simp [Vmas.findVmaPrevFrom, hover, ho, hend]
  | cons next vmas ih =>
    have hover := isOverlappingVma_iff (h.proper curr (by simp)) hv
    rw [Vmas.findVmaPrevFrom]
    by_cases ho : Overlap curr vma
    · exact Or.inl ⟨⟨curr,by simp,ho⟩,by rw [if_pos (hover.mpr ho)]⟩
    · have hend : curr.endAddr ≤ vma.startAddr := by
        simp only [Overlap, BitVec.lt_def, BitVec.le_def] at *
        omega
      rw [if_neg (mt hover.mp ho)]
      have htail := inOrder_tail h
      by_cases hnext : vma.endAddr ≤ next.startAddr
      · refine Or.inr ⟨[],next::vmas,rfl,⟨by simpa using hend,?_⟩,by simp [hend, hnext]⟩
        intro w hw
        rcases List.mem_cons.mp hw with rfl | hw
        · exact hnext
        · have hstep := inOrder_behind next w vmas htail hw
          have hp := htail.proper next (by simp)
          simp only [BitVec.lt_def, BitVec.le_def] at *
          omega
      · have hwalk := ih next (i+1) htail (BitVec.not_le.mp hnext)
        simp only [hnext, and_false, if_false]
        rcases hwalk with ⟨⟨w,hw,hwo⟩,hfind⟩ | ⟨vmas₁,vmas₂,rfl,hb,hfind⟩
        · exact Or.inl ⟨⟨w,List.mem_cons_of_mem _ hw,hwo⟩,hfind⟩
        · refine Or.inr ⟨next::vmas₁,vmas₂,rfl,⟨?_,hb.above⟩,?_⟩
          · intro w hw
            rcases List.mem_cons.mp hw with rfl | hw
            · exact hend
            · exact hb.below w hw
          · rw [hfind, List.length_cons]
            congr 1
            omega

variable {vmas₁ vmas₂ : List Vma}

theorem inOrder_insert (h : InOrder (vmas₁++vmas₂)) (hv : vma.startAddr < vma.endAddr)
    (hb : Between vma vmas₁ vmas₂) : InOrder (vmas₁++vma::vmas₂) := by
  have hproper : ∀ w ∈ vmas₁++vma::vmas₂, w.startAddr < w.endAddr := by
    intro w hw
    rw [List.mem_append, List.mem_cons] at hw
    rcases hw with hw | rfl | hw
    · exact h.proper w (by simp [hw])
    · exact hv
    · exact h.proper w (by simp [hw])
  have hinsert : ∀ R : Vma → Vma → Prop, (vmas₁++vmas₂).Pairwise R → (∀ w ∈ vmas₁, R w vma) →
      (∀ w ∈ vmas₂, R vma w) → (vmas₁++vma::vmas₂).Pairwise R := by
    intro R hR hleft hright
    rw [List.pairwise_append] at hR ⊢
    refine ⟨hR.1,List.pairwise_cons.mpr ⟨hright,hR.2.1⟩,?_⟩
    intro a ha b hbm
    rcases List.mem_cons.mp hbm with rfl | hbm
    · exact hleft a ha
    · exact hR.2.2 a ha b hbm
  constructor
  case proper => exact hproper
  case sorted =>
    apply hinsert _ h.sorted
    · intro w hw
      have hend := hb.below w hw
      have hp := h.proper w (by simp [hw])
      simp only [BitVec.lt_def, BitVec.le_def] at *
      omega
    · intro w hw
      have hend := hb.above w hw
      simp only [BitVec.lt_def, BitVec.le_def] at *
      omega
  case disjoint =>
    apply hinsert _ h.disjoint
    · intro w hw
      have hend := hb.below w hw
      simp only [Overlap, BitVec.lt_def, BitVec.le_def] at *
      omega
    · intro w hw
      have hend := hb.above w hw
      simp only [Overlap, BitVec.lt_def, BitVec.le_def] at *
      omega

theorem findVmaPrev_inOrder (h : InOrder vmas) (hv : vma.startAddr < vma.endAddr) :
    ((∃ w ∈ vmas, Overlap w vma) ∧ Vmas.findVmaPrev vmas vma = .overlaps) ∨
    ∃ vmas₁ vmas₂, vmas = vmas₁++vmas₂ ∧ Between vma vmas₁ vmas₂ ∧
      Vmas.findVmaPrev vmas vma = if vmas₁ = [] then .null else .entry (vmas₁.length-1) := by
  cases vmas with
  | nil => exact Or.inr ⟨[],[],rfl,⟨by simp,by simp⟩,rfl⟩
  | cons curr vmas =>
    rw [Vmas.findVmaPrev]
    by_cases hfirst : vma.endAddr ≤ curr.startAddr
    · refine Or.inr ⟨[],curr::vmas,rfl,⟨by simp,?_⟩,by rw [if_pos hfirst, if_pos rfl]⟩
      intro w hw
      rcases List.mem_cons.mp hw with rfl | hw
      · exact hfirst
      · have hstep := (List.pairwise_cons.mp h.sorted).1 w hw
        exact BitVec.le_trans hfirst hstep
    · rw [if_neg hfirst]
      rcases findVmaPrevFrom_inOrder curr 0 h hv (BitVec.not_le.mp hfirst) with
        hover | ⟨vmas₁,vmas₂,rfl,hb,hfind⟩
      · exact Or.inl hover
      · refine Or.inr ⟨curr::vmas₁,vmas₂,rfl,hb,?_⟩
        rw [hfind, if_neg (by simp), List.length_cons]
        simp

theorem placed_last (l₁ l₂ : List KernelPtr) :
    placed (l₁++l₂) (if l₁ = [] then .null else .entry (l₁.length-1)) = .place l₁.getLast? := by
  rcases List.eq_nil_or_concat l₁ with rfl | ⟨l,p,rfl⟩
  · rfl
  · simp [placed]

theorem between_no_overlap (hb : Between vma vmas₁ vmas₂) :
    ∀ w ∈ vmas₁++vmas₂, ¬ Overlap w vma := by
  intro w hw
  rcases List.mem_append.mp hw with hw | hw
  · have hend := hb.below w hw
    simp only [Overlap, BitVec.lt_def, BitVec.le_def] at *
    omega
  · have hend := hb.above w hw
    simp only [Overlap, BitVec.lt_def, BitVec.le_def] at *
    omega

/-- A node goes into a list in order exactly if its range overlaps none there,
and then to its place. -/
theorem add_vma_keeps_order (rounds : ℕ) (x : VmaList) (l : List KernelPtr) (v : KernelPtr)
    (h : Linked x l) (ho : InOrder (l.map x.nodes.data)) (hv : v ∉ l)
    (hrange : (x.nodes.data v).startAddr < (x.nodes.data v).endAddr) (hr : l.length ≤ rounds) :
    (addVma rounds x v = some (x,-1) ↔ ∃ w ∈ l, Overlap (x.nodes.data w) (x.nodes.data v)) ∧
    ((¬ ∃ w ∈ l, Overlap (x.nodes.data w) (x.nodes.data v)) → ∃ x' l₁ l₂, l = l₁++l₂ ∧
      addVma rounds x v = some (x',0) ∧ Linked x' (l₁++v::l₂) ∧
      x'.nodes.data = x.nodes.data ∧
      Between (x.nodes.data v) (l₁.map x.nodes.data) (l₂.map x.nodes.data) ∧
      InOrder ((l₁++v::l₂).map x'.nodes.data)) := by
  have hfind := findVmaPrev_records (x.nodes.data v) h hr
  rcases findVmaPrev_inOrder ho hrange with
    ⟨⟨w,hw,hwo⟩,hover⟩ | ⟨vmas₁,vmas₂,hsplit,hb,hplace⟩
  · obtain ⟨p,hp,rfl⟩ := List.mem_map.mp hw
    have hadd : addVma rounds x v = some (x,-1) := by
      rw [addVma, hfind, hover]
      rfl
    exact ⟨iff_of_true hadd ⟨p,hp,hwo⟩,fun hno => absurd ⟨p,hp,hwo⟩ hno⟩
  · obtain ⟨l₁,l₂,rfl,rfl,rfl⟩ := List.map_eq_append_iff.mp hsplit
    have hnone : ¬ ∃ w ∈ l₁++l₂, Overlap (x.nodes.data w) (x.nodes.data v) := by
      rintro ⟨p,hp,hpo⟩
      refine between_no_overlap hb (x.nodes.data p) ?_ hpo
      rw [← List.map_append]
      exact List.mem_map_of_mem hp
    simp only [List.length_map, List.map_eq_nil_iff] at hplace
    have hadd : addVma rounds x v = some (insertVma x v l₁.getLast?,0) := by
      rw [addVma, hfind, hplace, placed_last]
    have hne : ¬ addVma rounds x v = some (x,-1) := by
      rw [hadd]
      simp
    refine ⟨iff_of_false hne hnone,?_⟩
    intro _
    refine ⟨insertVma x v l₁.getLast?,l₁,l₂,rfl,hadd,insert_linked h hv,
      insertVma_data x v,hb,?_⟩
    rw [insertVma_data, List.map_append, List.map_cons]
    exact inOrder_insert (by rwa [← List.map_append]) hrange hb

def gapList : VmaList where
  head := some (kernelPtr 0x1000)
  nodes :=
    { data := fun p =>
        let start : Word := if p = kernelPtr 0x1000 then 0x400000
          else if p = kernelPtr 0x2000 then 0x600000 else 0x500000
        regionVma p none start 0 4096 0 3
      next := fun p => if p = kernelPtr 0x1000 then some (kernelPtr 0x2000) else none
      prev := fun p => if p = kernelPtr 0x2000 then some (kernelPtr 0x1000) else none }

theorem gapList_linked : Linked gapList [kernelPtr 0x1000,kernelPtr 0x2000] :=
  ⟨some (kernelPtr 0x2000),rfl,by decide,by decide,by decide,by decide,rfl⟩

theorem add_vma_keeps_order_gap : ∃ x' l₁ l₂, [kernelPtr 0x1000,kernelPtr 0x2000] = l₁++l₂ ∧
    addVma 2 gapList (kernelPtr 0x3000) = some (x',0) ∧ Linked x' (l₁++kernelPtr 0x3000::l₂) ∧
    InOrder ((l₁++kernelPtr 0x3000::l₂).map x'.nodes.data) := by
  have hno : ¬ ∃ w ∈ [kernelPtr 0x1000,kernelPtr 0x2000],
      Overlap (gapList.nodes.data w) (gapList.nodes.data (kernelPtr 0x3000)) := by
    simp only [Overlap]
    decide
  obtain ⟨x',l₁,l₂,hl,hadd,hlinked,_,_,horder⟩ := (add_vma_keeps_order 2 gapList _
    (kernelPtr 0x3000) gapList_linked ⟨by decide,by decide,by simp only [Overlap]; decide⟩ (by decide)
    (by decide) (by decide)).2 hno
  exact ⟨x',l₁,l₂,hl,hadd,hlinked,horder⟩

theorem unlink_linked (hne : l₁ ≠ []) (h : Linked x (l₁++v::l₂)) :
    ∃ n, unlink x.nodes v = some n ∧ Linked ⟨n,x.head⟩ (l₁++l₂) ∧ n.data = x.nodes.data := by
  have hd := doubly_nodup h
  have hback := doubly_back x.head l₁ l₂ v h
  have hnext : x.nodes.next v = l₂.head? := by
    have hj := doubly_joint x.head (l₁++[v]) l₂ (by
      rw [List.append_assoc]
      exact h)
    simpa using hj
  obtain ⟨p,hp⟩ : ∃ p, l₁.getLast? = some p := ⟨_,List.getLast?_eq_some_getLast hne⟩
  have hrest : v ∉ l₁++l₂ := (List.nodup_middle.mp hd).notMem
  have hremove : ∀ n : Nodes,
      (∀ r, n.next r = if some p = some r then l₂.head? else x.nodes.next r) →
      (∀ r, r ≠ v → n.prev r = if l₂.head? = some r then some p else x.nodes.prev r) →
      Linked ⟨n,x.head⟩ (l₁++l₂) := by
    intro n hn hpv
    have hlist : Doubly n.next n.prev (if l₁ = [] then l₂.head? else x.head) (l₁++l₂) := by
      apply doubly_remove h
      · intro r _
        rw [hn, hp]
      · intro r hr
        rw [hpv r (fun he => hrest (he ▸ hr)), hp]
    rwa [if_neg hne] at hlist
  rw [unlink, hback, hp, hnext]
  cases hl₂ : l₂.head? with
  | none =>
    refine ⟨_,rfl,hremove _ ?_ ?_,rfl⟩
    · intro r
      simp [eq_comm, hl₂]
    · intro r hr
      simp [hr, hl₂]
  | some q =>
    refine ⟨_,rfl,hremove _ ?_ ?_,rfl⟩
    · intro r
      simp [eq_comm, hl₂]
    · intro r hr
      simp [eq_comm, hl₂]

theorem removeVmaFrom_unlinks (head : Option KernelPtr) (k : ℕ)
    (hc : Chain n.next head (l₁++v::l₂)) (hv : v ∉ l₁) (hk : l₁.length < k) :
    ∃ curr, head = some curr ∧ removeVmaFrom v k curr n = unlink n v := by
  induction l₁ generalizing head k with
  | nil =>
    obtain ⟨k,rfl⟩ := Nat.exists_eq_succ_of_ne_zero (Nat.ne_zero_of_lt hk)
    refine ⟨v,hc.1,?_⟩
    rw [removeVmaFrom, if_pos rfl]
  | cons a l₁ ih =>
    obtain ⟨k,rfl⟩ := Nat.exists_eq_succ_of_ne_zero (Nat.ne_zero_of_lt hk)
    obtain ⟨next,hnext,hwalk⟩ := ih (n.next a) k hc.2 (fun hm => hv (by simp [hm]))
      (by simpa using hk)
    have hne : a ≠ v := fun he => hv (by simp [he])
    refine ⟨a,hc.1,?_⟩
    rw [removeVmaFrom, if_neg hne, hnext]
    exact hwalk

theorem removeVma_behind (h : Linked x (l₁++v::l₂)) (hne : l₁ ≠ [])
    (hr : (l₁++v::l₂).length ≤ rounds) :
    removeVma rounds x v = (unlink x.nodes v).map (fun n => ⟨n,x.head⟩) := by
  have hd := doubly_nodup h
  have hout : v ∉ l₁ := fun hm => (List.nodup_append.mp hd).2.2 v hm v (by simp) rfl
  obtain ⟨curr,hcurr,hwalk⟩ := removeVmaFrom_unlinks x.head rounds
    (doubly_chain x.head _ h) hout (by
      simp only [List.length_append, List.length_cons] at hr
      omega)
  have hfirst : curr ≠ v := by
    rintro rfl
    have hhead := doubly_head h
    rw [hcurr, List.head?_append_of_ne_nil l₁ hne] at hhead
    exact hout (List.mem_of_mem_head? hhead.symm)
  rw [removeVma, hcurr]
  simp [hfirst, hwalk]

def RemovesOne (rounds : ℕ) (x : VmaList) (l : List KernelPtr) (v : KernelPtr) : Prop :=
  ∃ x', removeVma rounds x v = some x' ∧ Linked x' (l.erase v) ∧ x'.nodes.data = x.nodes.data

/-- The first node of a list is removed by a read or a write through a null
pointer, or it stays behind the node that follows it. -/
theorem first_not_removed (rounds : ℕ) (h : Linked x (v::l)) : ¬ RemovesOne rounds x (v::l) v := by
  have hd := doubly_nodup h
  obtain ⟨hhead,hc⟩ := doubly_chain x.head _ h
  rintro ⟨x',hx,hlinked,_⟩
  rw [List.erase_cons_head] at hlinked
  rw [removeVma, hhead] at hx
  simp only [if_true] at hx
  cases l with
  | nil =>
    have hnone : x.nodes.next v = none := hc
    simp [hnone] at hx
  | cons b l =>
    obtain ⟨hb,hc⟩ := hc
    have hback : x.nodes.prev b = some v := by
      simpa using doubly_back x.head [v] l b h
    cases l with
    | nil =>
      have hnone : x.nodes.next b = none := hc
      simp [hb, hnone] at hx
    | cons c l =>
      have hthird : x.nodes.next b = some c := hc.1
      simp only [hb, hthird, Option.some.injEq] at hx
      subst hx
      have hne : b ≠ c := by
        rintro rfl
        simp at hd
      have hprev := doubly_head_prev hlinked
      simp [hne, hback] at hprev

/-- A node is taken out of a list exactly if it is not the first one. -/
theorem remove_vma_iff (rounds : ℕ) (x : VmaList) (l : List KernelPtr) (v : KernelPtr)
    (h : Linked x l) (hv : v ∈ l) (hr : l.length ≤ rounds) :
    RemovesOne rounds x l v ↔ x.head ≠ some v := by
  obtain ⟨l₁,l₂,rfl⟩ := List.append_of_mem hv
  have hd := doubly_nodup h
  have hout : v ∉ l₁ := fun hm => (List.nodup_append.mp hd).2.2 v hm v (by simp) rfl
  cases l₁ with
  | nil =>
    have hhead := doubly_head h
    exact iff_of_false (first_not_removed rounds h) (fun hne => hne hhead)
  | cons a l₁ =>
    have hhead : x.head = some a := doubly_head h
    have hne : a ≠ v := fun he => hout (by simp [he])
    refine iff_of_true ?_ (by rw [hhead]; simpa using hne)
    obtain ⟨n,hn,hlinked,hdata⟩ := unlink_linked (by simp) h
    refine ⟨⟨n,x.head⟩,?_,?_,hdata⟩
    · rw [removeVma_behind h (by simp) hr, hn, Option.map_some]
    · rw [List.erase_append_right _ hout, List.erase_cons_head]
      exact hlinked

theorem remove_vma_iff_last : RemovesOne 2 gapList [kernelPtr 0x1000,kernelPtr 0x2000]
    (kernelPtr 0x2000) :=
  (remove_vma_iff 2 gapList _ _ gapList_linked (by decide) (by decide)).mpr (by decide)

/-- With two nodes, the removal of the first one writes through a null pointer. -/
theorem first_of_two_not_removed : Linked gapList [kernelPtr 0x1000,kernelPtr 0x2000] ∧
    removeVma 2 gapList (kernelPtr 0x1000) = none ∧
    ¬ RemovesOne 2 gapList [kernelPtr 0x1000,kernelPtr 0x2000] (kernelPtr 0x1000) :=
  ⟨gapList_linked,rfl,first_not_removed 2 gapList_linked⟩

end PreemptiveOS.VmaNodes
