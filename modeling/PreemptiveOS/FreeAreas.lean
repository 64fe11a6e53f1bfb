import PreemptiveOS.VmaNodes
import PreemptiveOS.VmaRuns

/-!
# The area that a mapping gets

The search of `memory.c` for a free area takes the hint if it fits before the
first VMA or behind it. Otherwise it stops behind the first later VMA with room
for the area and a page more, or behind the last VMA. What is said about the
area is said in terms of that VMA.
-/

set_option autoImplicit false

namespace PreemptiveOS.FreeAreas
open ByteMemory PhysMmgr VirtMmgr Vmas KernelObjects Exec VmaRanges VmaRuns Supply PageTree
open VmaNodes (InOrder inOrder_tail inOrder_behind isOverlappingVma_iff)

def Room (len : Word) (v w : Vma) : Prop :=
  v.endAddr ≤ v.endAddr+1 ∧ v.endAddr+1+4096+len ≤ w.startAddr

instance (len : Word) (v w : Vma) : Decidable (Room len v w) := by
  unfold Room
  infer_instance

def stopFrom (len : Word) : Vma → List Vma → Vma × Option Vma
  | last, [] => (last,none)
  | curr, next::rest => if Room len curr next then (curr,some next) else stopFrom len next rest

/-- The first VMA of a list counts only if there is no other. -/
def stop (len : Word) : List Vma → Option (Vma × Option Vma)
  | [] => none
  | [only] => some (only,none)
  | _::second::rest => some (stopFrom len second rest)

def behind (len : Word) (c : Vma × Option Vma) : Word :=
  if c.2 = none ∧ kernbase < c.1.endAddr+len then -1 else c.1.endAddr+1

def HintTaken (hint len : Word) (vmas : List Vma) : Prop :=
  ∃ first ∈ vmas.head?, (hint < first.startAddr ∧ hint+len < first.endAddr) ∨
    ∃ second ∈ vmas.tail.head?, first.endAddr ≤ hint ∧ hint+4096+len ≤ second.startAddr

theorem firstFit_behind (len : Word) (rest : List Vma) (curr : Vma) :
    doFirstFitFrom len (curr.endAddr+1) curr rest = behind len (stopFrom len curr rest) := by
  induction rest generalizing curr with
  | nil => simp [doFirstFitFrom, stopFrom, behind]
  | cons next rest ih =>
    rw [doFirstFitFrom, stopFrom]
    by_cases hroom : Room len curr next
    · rw [if_pos (show _ ∧ _ from hroom), if_pos hroom]
      simp [behind]
    · rw [if_neg (show ¬ (_ ∧ _) from hroom), if_neg hroom]
      exact ih next

variable {vmas : List Vma} {hint len : Word}

theorem search_taken (h : HintTaken hint len vmas) :
    doFirstFitSearch vmas hint len = some hint := by
  obtain ⟨first,hfirst,hcase⟩ := h
  cases vmas with
  | nil => cases hfirst
  | cons v rest =>
    obtain rfl : v = first := by simpa using hfirst
    rw [doFirstFitSearch]
    rcases hcase with hfront | ⟨second,hsecond,hgap⟩
    · rw [if_pos hfront]
    · cases rest with
      | nil => simp at hsecond
      | cons w rest =>
        obtain rfl : w = second := by simpa using hsecond
        split_ifs
        · rfl
        · rw [doFirstFitFrom, if_pos hgap]

theorem search_behind (h : ¬ HintTaken hint len vmas) :
    doFirstFitSearch vmas hint len = (stop len vmas).map (behind len) := by
  cases vmas with
  | nil => rfl
  | cons first rest =>
    have hfront : ¬ (hint < first.startAddr ∧ hint+len < first.endAddr) :=
      fun hf => h ⟨first,rfl,Or.inl hf⟩
    rw [doFirstFitSearch, if_neg hfront]
    cases rest with
    | nil => simp [doFirstFitFrom, stop, behind]
    | cons second rest =>
      have hgap : ¬ (first.endAddr ≤ hint ∧ hint+4096+len ≤ second.startAddr) :=
        fun hg => h ⟨first,rfl,Or.inr ⟨second,rfl,hg⟩⟩
      rw [doFirstFitFrom, if_neg hgap, firstFit_behind]
      rfl

theorem stopFrom_place (len : Word) (rest : List Vma) (curr : Vma) :
    ∃ pre post, curr::rest = pre++(stopFrom len curr rest).1::post ∧
      (stopFrom len curr rest).2 = post.head? ∧
      (∀ w ∈ post.head?, Room len (stopFrom len curr rest).1 w) ∧
      (pre++[(stopFrom len curr rest).1]).IsChain (fun v w => ¬ Room len v w) := by
  induction rest generalizing curr with
  | nil => exact ⟨[],[],rfl,rfl,by simp,List.isChain_singleton _⟩
  | cons next rest ih =>
    rw [stopFrom]
    split_ifs with hroom
    · exact ⟨[],next::rest,rfl,rfl,by simpa using hroom,List.isChain_singleton _⟩
    · obtain ⟨pre,post,hlist,hnext,hroom',hchain⟩ := ih next
      refine ⟨curr::pre,post,by rw [List.cons_append, ← hlist],hnext,hroom',?_⟩
      cases pre with
      | nil =>
        obtain ⟨hfirst,_⟩ := List.cons.inj hlist
        exact List.isChain_pair.mpr (hfirst ▸ hroom)
      | cons v pre =>
        obtain ⟨rfl,_⟩ := List.cons.inj hlist
        exact List.isChain_cons_cons.mpr ⟨hroom,hchain⟩

variable {c : Vma × Option Vma}

/-- The search stops behind the first VMA with room before the next one, not counting the
first of several, or behind the last. -/
theorem stop_place (h : stop len vmas = some c) :
    ∃ pre post, vmas = pre++c.1::post ∧ c.2 = post.head? ∧ (∀ w ∈ post.head?, Room len c.1 w) ∧
      (pre.tail++[c.1]).IsChain (fun v w => ¬ Room len v w) ∧ (pre = [] → post = []) := by
  match vmas, h with
  | [only], h =>
    obtain rfl := Option.some.inj h
    exact ⟨[],[],rfl,rfl,by simp,List.isChain_singleton _,fun _ => rfl⟩
  | first::second::rest, h =>
    obtain rfl := Option.some.inj h
    obtain ⟨pre,post,hlist,hnext,hroom,hchain⟩ := stopFrom_place len rest second
    exact ⟨first::pre,post,by rw [List.cons_append, ← hlist],hnext,hroom,hchain,by simp⟩

theorem stop_exists (len : Word) (hne : vmas ≠ []) : ∃ c, stop len vmas = some c := by
  match vmas with
  | [only] => exact ⟨_,rfl⟩
  | first::second::rest => exact ⟨_,rfl⟩

structure Free (vmas : List Vma) (a len : Word) : Prop where
  apart : ∀ v ∈ vmas, ∀ x : ℕ, a.toNat ≤ x → x < a.toNat+len.toNat →
    ¬ (v.startAddr.toNat ≤ x ∧ x < v.endAddr.toNat)
  below : a.toNat+len.toNat ≤ kernbase.toNat

/-- A hint that is taken has its whole area below `KERNBASE` and before the first VMA, if it
is in front of it; otherwise the area behind the VMA of `stop_place` is below `KERNBASE`. -/
structure Suits (vmas : List Vma) (hint len : Word) : Prop where
  taken : HintTaken hint len vmas → hint.toNat+len.toNat ≤ kernbase.toNat ∧
    ∀ first ∈ vmas.head?, hint < first.startAddr → hint.toNat+len.toNat ≤ first.startAddr.toNat
  behind : ¬ HintTaken hint len vmas → ∀ c ∈ stop len vmas, c.1.endAddr+1 ≠ -1 →
    (c.2 = none → ¬ kernbase < c.1.endAddr+len) →
    (c.1.endAddr+1).toNat+len.toNat ≤ kernbase.toNat ∧
    (c.1.endAddr = -1 → ∀ first ∈ vmas.head?, len.toNat ≤ first.startAddr.toNat)

theorem inOrder_pairwise (h : InOrder vmas) :
    vmas.Pairwise (fun v w => v.endAddr.toNat ≤ w.startAddr.toNat) := by
  induction vmas with
  | nil => exact List.Pairwise.nil
  | cons v vmas ih =>
    exact List.pairwise_cons.mpr
      ⟨fun w hw => inOrder_behind v w vmas h hw,ih (inOrder_tail h)⟩

theorem apart_between (pre post : List Vma) (a len : Word) (h : InOrder (pre++post))
    (hpre : ∀ v ∈ pre.getLast?, v.endAddr.toNat ≤ a.toNat)
    (hpost : ∀ w ∈ post.head?, a.toNat+len.toNat ≤ w.startAddr.toNat) :
    ∀ v ∈ pre++post, ∀ x : ℕ, a.toNat ≤ x → x < a.toNat+len.toNat →
      ¬ (v.startAddr.toNat ≤ x ∧ x < v.endAddr.toNat) := by
  obtain ⟨hleft,hright,_⟩ := List.pairwise_append.mp (inOrder_pairwise h)
  intro v hv x hax hxa hx
  have hproper : v.startAddr.toNat < v.endAddr.toNat := h.proper v hv
  rcases List.mem_append.mp hv with hv | hv
  · obtain ⟨init,last,rfl⟩ : ∃ init last, pre = init++[last] :=
      ⟨_,_,(List.dropLast_append_getLast (List.ne_nil_of_mem hv)).symm⟩
    have hlast := hpre last (by simp)
    have hproper' : last.startAddr.toNat < last.endAddr.toNat := h.proper last (by simp)
    rcases List.mem_append.mp hv with hv | hv
    · have hvl := (List.pairwise_append.mp hleft).2.2 v hv last (by simp)
      omega
    · obtain rfl := List.mem_singleton.mp hv
      omega
  · cases post with
    | nil => cases hv
    | cons w post =>
      have hw := hpost w rfl
      rcases List.mem_cons.mp hv with rfl | hv
      · omega
      · have hwv := (List.pairwise_cons.mp hright).1 v hv
        have hproper' : w.startAddr.toNat < w.endAddr.toNat := h.proper w (by simp)
        omega

theorem kernbase_toNat : kernbase.toNat = 2^64-2^31 := rfl

section
variable {vmas : List Vma} (h : InOrder vmas) (hint len : Word)
include h

theorem taken_free (hsum : hint.toNat+len.toNat+4096 < 2^64) (ht : HintTaken hint len vmas) :
    Free vmas hint len ↔ hint.toNat+len.toNat ≤ kernbase.toNat ∧
      ∀ first ∈ vmas.head?, hint < first.startAddr →
        hint.toNat+len.toNat ≤ first.startAddr.toNat := by
  obtain ⟨first,hfirst,hcase⟩ := ht
  obtain ⟨rest,rfl⟩ : ∃ rest, vmas = first::rest := by
    cases vmas with
    | nil => cases hfirst
    | cons v rest => exact ⟨rest,by simpa using hfirst⟩
  have hproper : first.startAddr.toNat < first.endAddr.toNat := h.proper first (by simp)
  constructor
  · intro hfree
    refine ⟨hfree.below,?_⟩
    intro v hv hlt
    obtain rfl : first = v := by simpa using hv
    have hlt' : hint.toNat < first.startAddr.toNat := hlt
    by_contra hover
    exact hfree.apart first (by simp) first.startAddr.toNat (by omega) (by omega)
      ⟨le_rfl,hproper⟩
  · rintro ⟨hbelow,hstart⟩
    refine ⟨?_,hbelow⟩
    rcases hcase with ⟨hlt,_⟩ | ⟨second,hsecond,hend,hgap⟩
    · have hle := hstart first rfl hlt
      exact apart_between [] (first::rest) hint len h (by simp) (by simpa using hle)
    · have hend' : first.endAddr.toNat ≤ hint.toNat := hend
      have hgap' : (hint+4096+len).toNat ≤ second.startAddr.toNat := hgap
      have hno : (hint+4096+len).toNat = hint.toNat+4096+len.toNat := by
        rw [BitVec.toNat_add, BitVec.toNat_add, show (4096 : Word).toNat = 4096 from rfl]
        omega
      apply apart_between [first] rest hint len h
      · simpa using hend'
      · intro w hw
        obtain rfl : second = w := Option.some.inj (hsecond.symm.trans hw)
        omega

theorem wrapped_free : Free vmas 0 len ↔
    len.toNat ≤ kernbase.toNat ∧ ∀ first ∈ vmas.head?, len.toNat ≤ first.startAddr.toNat := by
  have hzero : (0 : Word).toNat = 0 := rfl
  constructor
  · intro hfree
    refine ⟨by simpa using hfree.below,?_⟩
    intro first hfirst
    have hmem := List.mem_of_mem_head? hfirst
    have hproper : first.startAddr.toNat < first.endAddr.toNat := h.proper first hmem
    by_contra hover
    exact hfree.apart first hmem first.startAddr.toNat (by omega) (by omega) ⟨le_rfl,hproper⟩
  · rintro ⟨hbelow,hstart⟩
    refine ⟨apart_between [] vmas 0 len h (by simp) ?_,by omega⟩
    intro first hfirst
    have hle := hstart first hfirst
    omega

theorem behind_free (hc : stop len vmas = some c) :
    Free vmas (c.1.endAddr+1) len ↔ (c.1.endAddr+1).toNat+len.toNat ≤ kernbase.toNat ∧
      (c.1.endAddr = -1 → ∀ first ∈ vmas.head?, len.toNat ≤ first.startAddr.toNat) := by
  by_cases hend : c.1.endAddr = -1
  · rw [hend, show (-1 : Word)+1 = 0 from rfl, wrapped_free h]
    simp
  · have hlast : c.1.endAddr.toNat ≠ 2^64-1 := fun he => hend (BitVec.eq_of_toNat_eq he)
    have hlt := c.1.endAddr.isLt
    have hone : (c.1.endAddr+1).toNat = c.1.endAddr.toNat+1 := by
      rw [BitVec.toNat_add, show (1 : Word).toNat = 1 from rfl]
      omega
    simp only [hend, false_imp_iff, and_true]
    refine ⟨fun hfree => hfree.below,fun hle => ⟨?_,hle⟩⟩
    obtain ⟨pre,post,hlist,_,hroom,_⟩ := stop_place hc
    rw [kernbase_toNat] at hle
    rw [hlist, show pre++c.1::post = (pre++[c.1])++post by simp] at h ⊢
    apply apart_between (pre++[c.1]) post _ _ h
    · intro v hv
      obtain rfl : c.1 = v := by simpa using hv
      omega
    · intro w hw
      obtain ⟨_,hsum⟩ := behind_toNat c.1.endAddr len (by omega)
      have hle' : (c.1.endAddr+1+4096+len).toNat ≤ w.startAddr.toNat := (hroom w hw).2
      omega

end

/-- A search in a list in order ends at a free area exactly if it suits. -/
theorem first_fit_free_iff (vmas : List Vma) (hint len : Word) (h : InOrder vmas) (hne : vmas ≠ [])
    (hsum : hint.toNat+len.toNat+4096 < 2^64) :
    (∀ a, doFirstFitSearch vmas hint len = some a → a ≠ -1 → Free vmas a len) ↔
      Suits vmas hint len := by
  by_cases ht : HintTaken hint len vmas
  · have hhint : hint ≠ -1 := by
      rintro rfl
      exact absurd hsum (by rw [show (-1 : Word).toNat = 2^64-1 from rfl]; omega)
    have hfree := taken_free h hint len hsum ht
    rw [search_taken ht]
    constructor
    · intro hall
      exact ⟨fun _ => hfree.mp (hall hint rfl hhint),fun hn => absurd ht hn⟩
    · rintro hs a ha _
      obtain rfl := Option.some.inj ha
      exact hfree.mpr (hs.taken ht)
  · obtain ⟨c,hc⟩ := stop_exists len hne
    have hfree := behind_free h len hc
    rw [search_behind ht, hc, Option.map_some]
    by_cases hrefused : c.2 = none ∧ kernbase < c.1.endAddr+len
    · rw [behind, if_pos hrefused]
      refine iff_of_true (fun a ha hne => absurd (Option.some.inj ha).symm hne)
        ⟨fun h => absurd h ht,?_⟩
      intro _ c' hc' _ hnone
      obtain rfl := Option.some.inj (hc.symm.trans hc')
      exact absurd hrefused.2 (hnone hrefused.1)
    · rw [behind, if_neg hrefused]
      constructor
      · intro hall
        refine ⟨fun h => absurd h ht,?_⟩
        intro _ c' hc' hvalue _
        obtain rfl := Option.some.inj (hc.symm.trans hc')
        exact hfree.mp (hall _ rfl hvalue)
      · rintro hs a ha hvalue
        obtain rfl := Option.some.inj ha
        exact hfree.mpr (hs.behind ht c hc hvalue (fun hn hlt => hrefused ⟨hn,hlt⟩))

def frontVma : Vma := pageVma (kernelPtr 0x1000)

theorem frontVma_inOrder : InOrder [frontVma] := by
  constructor
  case sorted => exact List.pairwise_singleton _ _
  case proper => decide
  case disjoint => exact List.pairwise_singleton _ _

theorem first_fit_free_iff_page : doFirstFitSearch [frontVma] 0x401000 0x1000 = some 0x401000 ∧
    Free [frontVma] 0x401000 0x1000 := by
  have ht : HintTaken 0x401000 0x1000 [frontVma] := ⟨frontVma,rfl,Or.inl (by decide)⟩
  have hsuits : Suits [frontVma] 0x401000 0x1000 := by
    refine ⟨fun _ => ⟨by decide,?_⟩,fun hn => absurd ht hn⟩
    intro first hfirst _
    obtain rfl := Option.some.inj hfirst
    decide
  have hfound : doFirstFitSearch [frontVma] 0x401000 0x1000 = some 0x401000 := by decide
  exact ⟨hfound,(first_fit_free_iff [frontVma] _ _ frontVma_inOrder (by decide)
    (by decide)).mpr hsuits
    _ hfound (by decide)⟩

/-- An area that starts a page before the first VMA and ends inside it. -/
theorem hint_reaches_first_vma : InOrder [frontVma] ∧
    doFirstFitSearch [frontVma] 0x401000 0x1800 = some 0x401000 ∧
    ¬ Free [frontVma] 0x401000 0x1800 := by
  refine ⟨frontVma_inOrder,by decide,?_⟩
  intro hfree
  exact hfree.apart frontVma (by simp) 0x402000 (by decide) (by decide) (by decide)

def aheadFrom (start stop : Word) : List Vma → List Vma
  | [] => []
  | [last] => [last]
  | curr::next::rest =>
    if curr.endAddr ≤ start ∧ stop ≤ next.startAddr then [curr]
    else curr::aheadFrom start stop (next::rest)

/-- The VMAs that a new one from `start` to `stop` is put behind: those up to the first that
ends before it and whose follower begins behind it. -/
def ahead (start stop : Word) (vmas : List Vma) : List Vma :=
  if ∃ first ∈ vmas.head?, stop ≤ first.startAddr then [] else aheadFrom start stop vmas

variable {v : Vma}

theorem findVmaPrevFrom_ahead (i : ℕ) {n : ℕ} (h : findVmaPrevFrom v i vmas = .entry n) :
    i ≤ n ∧ aheadFrom v.startAddr v.endAddr vmas = vmas.take (n+1-i) ∧
      ∀ w ∈ aheadFrom v.startAddr v.endAddr vmas, isOverlappingVma w v = false := by
  induction vmas generalizing i with
  | nil => cases h
  | cons curr rest ih =>
    cases rest with
    | nil =>
      simp only [findVmaPrevFrom] at h
      split_ifs at h with hover
      obtain rfl : i = n := by simpa using h
      exact ⟨le_rfl,by simp [aheadFrom],by simpa [aheadFrom] using hover⟩
    | cons next rest =>
      rw [findVmaPrevFrom] at h
      rw [aheadFrom]
      have hover : ¬ isOverlappingVma curr v = true := by
        intro ho
        rw [if_pos ho] at h
        cases h
      rw [if_neg hover] at h
      split_ifs at h ⊢
      · obtain rfl : i = n := by simpa using h
        exact ⟨le_rfl,by simp,by simpa using hover⟩
      · obtain ⟨hle,htake,hnone⟩ := ih (i+1) h
        refine ⟨by omega,?_,?_⟩
        · rw [htake, show n+1-i = (n+1-(i+1))+1 by omega, List.take_succ_cons]
        · intro w hw
          rcases List.mem_cons.mp hw with rfl | hw
          · simpa using hover
          · exact hnone w hw

variable {vmas' : List Vma}

theorem addVma_ahead (h : addVma vmas v = .added vmas') :
    ∃ post, vmas = ahead v.startAddr v.endAddr vmas++post ∧
      vmas' = ahead v.startAddr v.endAddr vmas++v::post ∧
      ∀ w ∈ ahead v.startAddr v.endAddr vmas, isOverlappingVma w v = false := by
  rcases addVma_split vmas v with ⟨_,hadd⟩ | ⟨_,hadd⟩ | ⟨vmas₁,vmas₂,hsplit,hadd,hprev⟩
  · simp [hadd] at h
  · simp [hadd] at h
  · obtain rfl : vmas₁++v::vmas₂ = vmas' := by simpa [hadd] using h
    suffices hahead : ahead v.startAddr v.endAddr vmas = vmas₁ ∧
        ∀ w ∈ vmas₁, isOverlappingVma w v = false by
      rw [hahead.1]
      exact ⟨vmas₂,hsplit,rfl,hahead.2⟩
    obtain ⟨hnull,hentry⟩ := findVmaPrev_cases v vmas
    by_cases hnil : vmas₁ = []
    · rw [if_pos hnil] at hprev
      subst hnil
      refine ⟨?_,by simp⟩
      cases vmas with
      | nil => simp [ahead, aheadFrom]
      | cons first rest => exact if_pos ⟨first,rfl,hnull hprev first rfl⟩
    · rw [if_neg hnil] at hprev
      obtain ⟨_,htake,hnone⟩ := findVmaPrevFrom_ahead 0 (hentry _ hprev)
      have hlen : vmas₁.length-1+1-0 = vmas₁.length := by
        have := List.length_pos_iff.mpr hnil
        omega
      rw [hlen, hsplit, List.take_left, ← hsplit] at htake
      rw [htake] at hnone
      refine ⟨?_,hnone⟩
      rw [ahead, if_neg, htake]
      rintro ⟨first,hfirst,hle⟩
      cases vmas with
      | nil => cases hfirst
      | cons c rest =>
        obtain rfl : c = first := by simpa using hfirst
        rw [findVmaPrev, if_pos hle] at hprev
        cases hprev

def reach (len : ℕ) : ℕ := 4095*(len/4097+1)

/-- A region of `len` bytes at `a` is as long as its VMA and straight, and no VMA that it is put
behind claims an address of it. -/
structure Covering (vmas : List Vma) (len a : Word) : Prop where
  length : len.toNat ≤ reach len.toNat+1
  straight : a.toNat+reach len.toNat < 2^64
  aligned : Aligned a
  unclaimed : ∀ w ∈ ahead a (a+4095*(len/4097+1)) vmas,
    hi w < a.toNat ∨ a.toNat+len.toNat ≤ lo w

theorem reach_toNat (a len : Word) :
    (a+4095*(len/4097+1)).toNat = (a.toNat+reach len.toNat)%2^64 := regionEnd_toNat a len

variable {k k' : Kernel} {addr off prot : Word}

theorem mmapRegion_low {file : Option KernelPtr} {filesz memsz : Word}
    (h : mmapRegion k vmas file addr filesz memsz off prot = (k',.mapped vmas' v)) :
    addr ≤ kernbase := by
  by_contra hlt
  rw [mmapRegion, if_pos (BitVec.not_le.mp hlt)] at h
  cases h

theorem doMmap_mapped {both : Bool} (h : doMmap k vmas 0 len prot off both = (k',.mapped vmas' v)) :
    doFirstFitSearch vmas (kernbase/3) len = some v.startAddr ∧ v.startAddr ≤ kernbase ∧
      v = regionVma (object k.machine).2 none v.startAddr 0 len off prot ∧
      addVma vmas v = .added vmas' := by
  unfold doMmap at h
  dsimp only at h
  split_ifs at h
  · cases h
  · split at h
    · cases h
    · rename_i area harea
      have hlow := mmapRegion_low h
      obtain ⟨_,rfl,hadd⟩ := mmapRegion_mapped h
      exact ⟨harea,hlow,rfl,hadd⟩

variable {a : Word}

theorem search_start (ht : ¬ HintTaken hint len vmas)
    (h : doFirstFitSearch vmas hint len = some a) (hlow : a ≤ kernbase) :
    ∃ c, stop len vmas = some c ∧ a = c.1.endAddr+1 := by
  have ha : a ≠ -1 := by
    rintro rfl
    exact absurd hlow (by decide)
  rw [search_behind ht, Option.map_eq_some_iff] at h
  obtain ⟨c,hc,rfl⟩ := h
  refine ⟨c,hc,?_⟩
  rw [behind] at ha ⊢
  split_ifs at ha ⊢
  · exact absurd rfl ha
  · rfl

theorem hint_unaligned (ht : HintTaken (kernbase/3) len vmas)
    (h : doFirstFitSearch vmas (kernbase/3) len = some a) : ¬ Aligned a := by
  rw [← Option.some.inj ((search_taken ht).symm.trans h)]
  decide

variable {pre : List Vma}

theorem findVma_new (post : List Vma) (hv : v ∉ pre) :
    findVma (pre++v::post) addr = some v ↔
      covers addr v = true ∧ ∀ w ∈ pre, ¬ covers addr w = true := by
  rw [findVma, List.find?_append]
  constructor
  · intro h
    refine ⟨?_,?_⟩
    · rw [← List.find?_append] at h
      exact List.find?_some h
    · intro w hw hcov
      obtain ⟨u,hu⟩ := Option.isSome_iff_exists.mp (List.find?_isSome.mpr ⟨w,hw,hcov⟩)
      rw [hu, Option.some_or] at h
      exact hv (Option.some.inj h ▸ List.mem_of_find?_eq_some hu)
  · rintro ⟨hcov,hpre⟩
    rw [List.find?_eq_none.mpr hpre, Option.none_or, List.find?_cons_of_pos hcov]

theorem claims_none_iff (w : Vma) {a len : ℕ} (hlen : 1 ≤ len) (hfit : a+len ≤ 2^64) :
    (∀ x, a ≤ x → x < a+len → ¬ covers (BitVec.ofNat 64 x) w = true) ↔
      hi w < a ∨ a+len ≤ lo w := by
  have hrange := lo_le_hi w
  constructor
  · intro h
    by_contra hn
    apply h (max a (lo w)) (by omega) (by omega)
    rw [covers_iff, BitVec.toNat_ofNat]
    omega
  · intro h x hax hxa hcov
    rw [covers_iff, BitVec.toNat_ofNat] at hcov
    omega

theorem region_range (node : KernelPtr) (a len off prot : Word) :
    lo (regionVma node none a 0 len off prot) = min a.toNat ((a.toNat+reach len.toNat)%2^64) ∧
    hi (regionVma node none a 0 len off prot) = max a.toNat ((a.toNat+reach len.toNat)%2^64) := by
  rw [← reach_toNat]
  exact ⟨rfl,rfl⟩

/-- The VMA of an anonymous region covers the region exactly if it neither is too
short nor runs over the last address. -/
theorem region_covers_iff (node : KernelPtr) (off prot : Word) (hlow : a ≤ kernbase)
    (hlen : 1 ≤ len.toNat) (hmax : len.toNat < 2^40) :
    (∀ x, a.toNat ≤ x → x < a.toNat+len.toNat →
      covers (BitVec.ofNat 64 x) (regionVma node none a 0 len off prot) = true) ↔
      len.toNat ≤ reach len.toNat+1 ∧ a.toNat+reach len.toNat < 2^64 := by
  have hlow' : a.toNat ≤ 2^64-2^31 := hlow
  obtain ⟨hlo,hhi⟩ := region_range node a len off prot
  have hreach : 4095 ≤ reach len.toNat ∧ reach len.toNat ≤ len.toNat+4095 := by
    unfold reach
    omega
  simp only [covers_iff, hlo, hhi, BitVec.toNat_ofNat]
  constructor
  · intro h
    -- the second byte shows a VMA that wraps, the byte behind the VMA that it is too short
    have hfit : a.toNat+reach len.toNat < 2^64 := by
      by_contra hwrap
      have hsecond := h (a.toNat+1) (by omega) (by omega)
      omega
    refine ⟨?_,hfit⟩
    by_contra hshort
    have hbehind := h (a.toNat+reach len.toNat+1) (by omega) (by omega)
    omega
  · rintro ⟨hle,hfit⟩ x hax hxa
    omega

theorem not_ahead (hv : v.startAddr < v.endAddr) (hover : ∀ w ∈ pre, isOverlappingVma w v = false) :
    v ∉ pre := by
  intro hmem
  have hself : isOverlappingVma v v = true := by
    rw [isOverlappingVma, decide_eq_true_eq]
    exact Or.inr (Or.inr (Or.inr ⟨BitVec.le_refl _,hv⟩))
  rw [hover v hmem] at hself
  cases hself

/-- A new VMA that covers a range is found for all of it exactly if those before
it claim nothing of the range. -/
theorem new_found_iff (post : List Vma) {a len : ℕ} (hlen : 1 ≤ len) (hfit : a+len ≤ 2^64)
    (hv : v ∉ pre) (hcov : ∀ x, a ≤ x → x < a+len → covers (BitVec.ofNat 64 x) v = true) :
    (∀ x, a ≤ x → x < a+len → findVma (pre++v::post) (BitVec.ofNat 64 x) = some v) ↔
      ∀ w ∈ pre, hi w < a ∨ a+len ≤ lo w := by
  simp only [findVma_new post hv]
  constructor
  · intro hall w hw
    exact (claims_none_iff w hlen hfit).mp (fun x hx hx' => (hall x hx hx').2 w hw)
  · intro hall x hx hx'
    exact ⟨hcov x hx hx',
      fun w hw => (claims_none_iff w hlen hfit).mpr (hall w hw) x hx hx'⟩

/-- A region of at least one byte that is mapped is found by every lookup, and it
starts with a page, exactly if it is not put at the hint and covers the area
behind the VMA at which the search stops. -/
theorem mmap_covers_iff (k k' : Kernel) (vmas vmas' : List Vma) (len prot off : Word) (v : Vma)
    (hlen : 1 ≤ len.toNat) (hmax : len.toNat < 2^40)
    (h : doMmap k vmas 0 len prot off false = (k',.mapped vmas' v)) :
    ((∀ x, v.startAddr.toNat ≤ x → x < v.startAddr.toNat+len.toNat →
      findVma vmas' (BitVec.ofNat 64 x) = some v) ∧ Aligned v.startAddr) ↔
      ¬ HintTaken (kernbase/3) len vmas ∧
      ∀ c ∈ stop len vmas, Covering vmas len (c.1.endAddr+1) := by
  obtain ⟨hsearch,hlow,hv,hadd⟩ := doMmap_mapped h
  obtain ⟨post,_,rfl,hover⟩ := addVma_ahead hadd
  have hcovers := region_covers_iff (object k.machine).2 off prot hlow hlen hmax
  rw [← hv] at hcovers
  by_cases ht : HintTaken (kernbase/3) len vmas
  · refine iff_of_false ?_ (fun hc => hc.1 ht)
    rintro ⟨_,hal⟩
    exact hint_unaligned ht hsearch hal
  · obtain ⟨c,hc,hstart⟩ := search_start ht hsearch hlow
    have hend : v.endAddr = v.startAddr+4095*(len/4097+1) := by
      rw [hv]
      rfl
    have hside : (∀ x, v.startAddr.toNat ≤ x → x < v.startAddr.toNat+len.toNat →
        covers (BitVec.ofNat 64 x) v = true) →
        v.startAddr.toNat+len.toNat ≤ 2^64 ∧ v ∉ ahead v.startAddr v.endAddr vmas := by
      intro hcov
      obtain ⟨hlength,hstraight⟩ := hcovers.mp hcov
      refine ⟨by omega,not_ahead ?_ hover⟩
      show v.startAddr.toNat < v.endAddr.toNat
      rw [hend, reach_toNat, Nat.mod_eq_of_lt hstraight, reach]
      omega
    simp only [ht, hc, ← hstart, not_false_eq_true, true_and, Option.mem_some_iff, forall_eq']
    constructor
    · rintro ⟨hfind,hal⟩
      have hcov := fun x hx hx' => List.find?_some (hfind x hx hx')
      obtain ⟨hlength,hstraight⟩ := hcovers.mp hcov
      obtain ⟨hfit,hout⟩ := hside hcov
      refine ⟨hlength,hstraight,hal,?_⟩
      rw [← hend]
      exact (new_found_iff post hlen hfit hout hcov).mp hfind
    · intro hc
      have hcov := hcovers.mpr ⟨hc.length,hc.straight⟩
      obtain ⟨hfit,hout⟩ := hside hcov
      have hunclaimed := hc.unclaimed
      rw [← hend] at hunclaimed
      exact ⟨(new_found_iff post hlen hfit hout hcov).mpr hunclaimed,hc.aligned⟩

theorem pageRoundUp_pos (hlen : 1 ≤ len.toNat) :
    pageRoundUp len ≠ 0 ∧ (pageRoundUp len).toNat ≤ len.toNat := by
  by_cases hsmall : len.toNat < 4096
  · have hlt : len < 4096 := hsmall
    rw [pageRoundUp, if_pos hlt]
    refine ⟨?_,le_rfl⟩
    rintro rfl
    exact absurd hlen (by decide)
  · have hround := pageRoundUp_toNat len (by omega)
    refine ⟨?_,by omega⟩
    intro he
    rw [he, show (0 : Word).toNat = 0 from rfl] at hround
    omega

structure Low (seg : Vma) : Prop where
  start : seg.startAddr = 0x400000
  proper : seg.startAddr < seg.endAddr
  below : seg.endAddr ≤ 0x402000

def smallSpace (seg : Vma) (node : KernelPtr) : List Vma := [seg,tinyHeap node,stackVma]

section
variable {seg : Vma} (hseg : Low seg) (node : KernelPtr)
include hseg

theorem small_stop (len : Word) (hmax : len.toNat < 2^40) :
    ¬ HintTaken (kernbase/3) len (smallSpace seg node) ∧
    stop len (smallSpace seg node) = some (tinyHeap node,some stackVma) := by
  have hhint : (kernbase/3).toNat = 0x555555552AAAAAAA := by decide
  constructor
  · rintro ⟨first,hfirst,⟨hlt,_⟩ | ⟨second,hsecond,_,hgap⟩⟩
    · obtain rfl := Option.some.inj hfirst
      rw [hseg.start] at hlt
      exact absurd hlt (by decide)
    · obtain rfl := Option.some.inj hsecond
      have hle : (kernbase/3+4096+len).toNat ≤ 0x401000 := hgap
      rw [BitVec.toNat_add, BitVec.toNat_add, show (4096 : Word).toNat = 4096 from rfl] at hle
      omega
  · have hroom : Room len (tinyHeap node) stackVma := by
      refine ⟨show (0x401FFF : Word) ≤ 0x401FFF+1 by decide,?_⟩
      change ((0x401FFF : Word)+1+4096+len).toNat ≤ stackStart.toNat
      rw [BitVec.toNat_add, show ((0x401FFF : Word)+1+4096).toNat = 0x403000 from rfl,
        show stackStart.toNat = 0x7ffffffff000 from rfl]
      omega
    rw [smallSpace, stop, stopFrom, if_pos hroom]

theorem small_added (hstart : v.startAddr = 0x402000) (hlt : v.startAddr < v.endAddr)
    (hle : v.endAddr ≤ stackStart) :
    addVma (smallSpace seg node) v = .added [seg,tinyHeap node,v,stackVma] := by
  have hapart : ∀ c : Vma, c.startAddr < c.endAddr → c.endAddr ≤ v.startAddr →
      ¬ isOverlappingVma c v = true := by
    intro c hc hcv hover
    exact BitVec.not_lt.mpr hcv ((isOverlappingVma_iff hc hlt).mp hover).2
  have hsegment := hapart seg hseg.proper (hstart ▸ hseg.below)
  have hheap := hapart (tinyHeap node) (show (0x401000 : Word) < 0x401FFF by decide)
    (hstart ▸ show (0x401FFF : Word) ≤ 0x402000 by decide)
  have hafter : ∀ w : Word, w ≤ 0x402000 → ¬ v.endAddr ≤ w := by
    intro w hw hvw
    rw [hstart] at hlt
    exact BitVec.not_lt.mpr (BitVec.le_trans hvw hw) hlt
  have hfirst : ¬ v.endAddr ≤ seg.startAddr := hafter _ (hseg.start ▸ by decide)
  have hsecond : ¬ v.endAddr ≤ (tinyHeap node).startAddr := hafter 0x401000 (by decide)
  have hfit : (tinyHeap node).endAddr ≤ v.startAddr ∧ v.endAddr ≤ stackVma.startAddr :=
    ⟨hstart ▸ show (0x401FFF : Word) ≤ 0x402000 by decide,hle⟩
  rw [smallSpace, addVma, findVmaPrev, if_neg hfirst, findVmaPrevFrom, if_neg hsegment,
    if_neg (fun h => hsecond h.2), findVmaPrevFrom, if_neg hheap, if_pos hfit]
  rfl

theorem small_region (len : Word) (hlen : 1 ≤ len.toNat) (hmax : len.toNat < 2^40)
    (ha : (alloc k.machine).2 ≠ 0) :
    doMmap k (smallSpace seg node) 0 len 3 0 false =
      (⟨(object k.machine).1,k.fRefcount⟩,.mapped
        [seg,tinyHeap node,regionVma (object k.machine).2 none 0x402000 0 len 0 3,stackVma]
        (regionVma (object k.machine).2 none 0x402000 0 len 0 3)) := by
  obtain ⟨ht,hstop⟩ := small_stop hseg node len hmax
  have harea : getUnmappedArea (smallSpace seg node) 0 len = some 0x402000 := by
    rw [getUnmappedArea, if_pos rfl, search_behind ht, hstop]
    rfl
  obtain ⟨hzero,hround⟩ := pageRoundUp_pos hlen
  have hchecks : ¬ (pageRoundUp len = 0 ∨ (0 : Word)+(pageRoundUp len >>> 12) < 0 ∨
      kernbase < pageRoundUp len ∨ false = true) := by
    rintro (h | h | h | h)
    · exact hzero h
    · exact absurd h (BitVec.not_lt_zero)
    · have hlt : 2^64-2^31 < (pageRoundUp len).toNat := h
      omega
    · cases h
  have hreach : (0x402000 : Word).toNat+reach len.toNat < 0x7ffffffff000 := by
    rw [show (0x402000 : Word).toNat = 0x402000 from rfl, reach]
    omega
  have hend : (regionVma (object k.machine).2 none 0x402000 0 len 0 3).endAddr.toNat =
      0x402000+reach len.toNat :=
    (reach_toNat 0x402000 len).trans (Nat.mod_eq_of_lt (by omega))
  have hadd := small_added hseg node rfl (by
      rw [BitVec.lt_def, hend, reach]
      change 0x402000 < _
      omega) (by
      rw [BitVec.le_def, hend]
      exact hreach.le)
  have hsize : ¬ len < 0 := BitVec.not_lt_zero
  rw [doMmap, if_neg hchecks, harea]
  simp only [mmapRegion, show ¬ kernbase < (0x402000 : Word) by decide, ha, hsize, if_false]
  rw [hadd]

end

theorem short_low (node file : KernelPtr) : Low (shortSegment node file 0x800) := by
  constructor
  case start => rfl
  case proper => exact show (0x400000 : Word) < 0x400800 by decide
  case below => exact show (0x400800 : Word) ≤ 0x402000 by decide

theorem mmap_covers_iff_page : ∃ k k' seg node vmas' v,
    doMmap k (smallSpace seg node) 0 4096 3 0 false = (k',.mapped vmas' v) ∧
    (∀ x, v.startAddr.toNat ≤ x → x < v.startAddr.toNat+4096 →
      findVma vmas' (BitVec.ofNat 64 x) = some v) ∧ Aligned v.startAddr := by
  have hseg := short_low (kernelPtr 0x1000) (kernelPtr 0)
  have hmap := small_region hseg (kernelPtr 0x2000) 4096 (by decide) (by decide)
    (alloc_supplied first_supplied).2
  refine ⟨firstKernel,_,_,_,_,_,hmap,(mmap_covers_iff _ _ _ _ 4096 3 0 _ (by decide) (by decide)
    hmap).mpr ?_⟩
  obtain ⟨ht,hstop⟩ := small_stop hseg (kernelPtr 0x2000) 4096 (by decide)
  refine ⟨ht,?_⟩
  simp only [hstop, Option.mem_some_iff, forall_eq']
  exact ⟨by decide,by decide,by decide,by decide⟩

/-- Two pages asked for, and the last byte of the second one is not covered. -/
theorem mmap_two_pages_short : ∃ k₁ k₂ vmas vmas' v,
    built (kernelPtr 0) [shortPhdr 0x800] firstKernel 0x8000 plainArgs = (k₁,.ok vmas) ∧
    doMmap k₁ vmas 0 8192 3 0 false = (k₂,.mapped vmas' v) ∧ v.startAddr = 0x402000 ∧
    findVma vmas' 0x403FFF = none := by
  obtain ⟨k₁,node,node',hbuilt,hs⟩ := short_built (kernelPtr 0) 0x800 0x8000
    plainArgs (by decide) first_supplied
  have hmap := small_region (short_low node (kernelPtr 0)) node' 8192 (by decide) (by decide)
    (alloc_supplied hs).2
  exact ⟨k₁,_,_,_,_,hbuilt,hmap,rfl,rfl⟩

end PreemptiveOS.FreeAreas
