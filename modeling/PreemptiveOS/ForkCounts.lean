import PreemptiveOS.EntryCounts

/-!
# Reference counts across a fork

The second pass of a fork adds a reference for every step that finds a frame.
The child gets an entry for every page that an aligned step hits. The two
numbers agree where the steps that find a frame are aligned and no two of them
are on one page.
-/

set_option autoImplicit false

namespace PreemptiveOS.ForkCounts
open ByteMemory PhysMmgr VirtMmgr PageRecords Ownership Vmas Fork CellCounts EntryCounts

def hits (m : Mem) (r : Word) (steps : List Word) (a : Word) : ℕ :=
  steps.countP (fun i => frameAt m r i = a)

structure EvenSteps (m : Mem) (r : Word) (steps : List Word) : Prop where
  aligned : ∀ i ∈ steps, frameAt m r i ≠ 0 → Aligned i
  once : steps.Pairwise (fun i j => frameAt m r i ≠ 0 → pageNumber i ≠ pageNumber j)

variable {steps : List Word} {r : Word}

theorem hits_congr {m m' : Mem} (a : Word) (h : ∀ i ∈ steps, frameAt m' r i = frameAt m r i) :
    hits m' r steps a = hits m r steps a := by
  apply List.countP_congr
  intro i hi
  rw [h i hi]

def InUse (pages : List Page) (a : Word) : Prop :=
  ∃ p, pageOf pages a = some p ∧ p.isFreePage = true

variable {pages : List Page} {a : Word} {n : ℕ}

theorem inUse_later {pages' : List Page} (hl : Later pages pages') (h : InUse pages a) :
    InUse pages' a := by
  obtain ⟨p,hp,hused⟩ := h
  exact hl.used a p hp hused

section
variable (pages : List Page) (b : Word)

theorem counted_increment (hn : n+(if b = a then 1 else 0) < 2^32) (h : Counted pages a n) :
    Counted (incrementReferenceCountOfPage b pages) a (n+if b = a then 1 else 0) := by
  obtain ⟨p,hp,hused,hcount⟩ := h
  by_cases hab : b = a
  · rw [if_pos hab] at hn
    refine ⟨{ p with referenceCount := p.referenceCount+1 },?_,hused,?_⟩
    · rw [pageOf_increment, if_pos hab.symm, hp, Option.map_some]
    · rw [if_pos hab, BitVec.toNat_add, hcount]
      exact Nat.mod_eq_of_lt hn
  · refine ⟨p,?_,hused,?_⟩
    · rw [pageOf_increment, if_neg (Ne.symm hab), hp]
    · rw [if_neg hab, Nat.add_zero, hcount]

theorem inUse_increment (h : InUse pages a) : InUse (incrementReferenceCountOfPage b pages) a := by
  obtain ⟨p,hp,hused⟩ := h
  by_cases hab : a = b
  · exact ⟨{ p with referenceCount := p.referenceCount+1 },
      by rw [pageOf_increment, if_pos hab, hp, Option.map_some],hused⟩
  · exact ⟨p,by rw [pageOf_increment, if_neg hab, hp],hused⟩

theorem idle_increment (hidle : Idle pages) (hb : InUse pages b) :
    Idle (incrementReferenceCountOfPage b pages) := by
  intro a q hq hfree
  rw [pageOf_increment] at hq
  split_ifs at hq with hab
  · obtain ⟨p,hp,hused⟩ := hb
    rw [hab, hp] at hq
    have hq' : { p with referenceCount := p.referenceCount+1 } = q := Option.some.inj hq
    rw [← hq', hused] at hfree
    cases hfree
  · exact hidle a q hq hfree

end

variable {s : Machine}

section
variable {kernel : ℕ → Prop} {roots : List Word} (r : Word) (hr : r ∈ roots) (c : Word)
include hr

theorem share_pages (i : Word) (h : Coherent kernel 1 roots s) :
    sharePage r c s i = s ∧ frameAt s.mem r i = 0 ∨ frameAt s.mem r i ≠ 0 ∧
    ∃ pages, Later s.pages pages ∧ (sharePage r c s i).pages =
      incrementReferenceCountOfPage (frameAt s.mem r i) pages := by
  have hwalk := walk_mapped s.mem i (h.window r hr).1
  by_cases hz : frameAt s.mem r i = 0
  · exact Or.inl ⟨if_pos (hwalk.1.mpr hz),hz⟩
  · refine Or.inr ⟨hz,_,keeps_map clearTable s i (frameAt s.mem r i) shareFlags c false
      h.forest.frames,?_⟩
    rw [sharePage, if_neg (mt hwalk.1.mp hz), hwalk.2 hz]
    rfl

theorem share_counted (i : Word) (h : Coherent kernel 1 roots s) (ha : a ≠ 0) (hpos : 0 < n)
    (hn : n+(if frameAt s.mem r i = a then 1 else 0) < 2^32) (hcount : Counted s.pages a n) :
    Counted (sharePage r c s i).pages a (n+if frameAt s.mem r i = a then 1 else 0) := by
  rcases share_pages r hr c i h with ⟨hsame,hz⟩ | ⟨hne,pages,hl,hpages⟩
  · rw [hsame, if_neg (fun he => ha (he.symm.trans hz)), Nat.add_zero]
    exact hcount
  · rw [hpages]
    exact counted_increment pages _ hn (counted_later hl hpos hcount)

theorem share_idle {i : Word} (h : Coherent kernel 1 roots s) (hidle : Idle s.pages)
    (hin : frameAt s.mem r i ≠ 0 → InUse s.pages (frameAt s.mem r i)) :
    Idle (sharePage r c s i).pages ∧
    ∀ a, InUse s.pages a → InUse (sharePage r c s i).pages a := by
  rcases share_pages r hr c i h with ⟨hsame,_⟩ | ⟨hne,pages,hl,hpages⟩
  · rw [hsame]
    exact ⟨hidle,fun _ ha => ha⟩
  · rw [hpages]
    constructor
    · exact idle_increment pages _ (idle_later hl hidle) (inUse_later hl (hin hne))
    · exact fun a ha => inUse_increment pages _ (inUse_later hl ha)

variable (hc : c ∈ roots) (hcr : c ≠ r)
include hc hcr

theorem shares_counted {is : List Word} (s : Machine) (h : Coherent kernel 1 roots s)
    (hu : ∀ i ∈ is, User i) (hok : (is.foldl (sharePage r c) s).shortages = s.shortages)
    (hidle : Idle s.pages)
    (hin : ∀ i ∈ is, frameAt s.mem r i ≠ 0 → InUse s.pages (frameAt s.mem r i)) :
    Idle (is.foldl (sharePage r c) s).pages ∧
    ∀ a n, a ≠ 0 → 0 < n → n+hits s.mem r is a < 2^32 → Counted s.pages a n →
      Counted (is.foldl (sharePage r c) s).pages a (n+hits s.mem r is a) := by
  induction is generalizing s with
  | nil => exact ⟨hidle,fun a n _ _ _ hcount => hcount⟩
  | cons i is ih =>
    rw [List.foldl_cons] at hok ⊢
    have hle := share_shortages r c s i
    have hle' := shares_shortages r c is (sharePage r c s i)
    obtain ⟨h₁,hothers,_⟩ := share_leaf r hr c hc h (hu i (by simp)) (by omega)
    have hframe : ∀ j, frameAt (sharePage r c s i).mem r j = frameAt s.mem r j :=
      fun j => (frameAt_leaf (hothers r hr (Ne.symm hcr) j)).1
    obtain ⟨hidle₁,hin₁⟩ := share_idle r hr c h hidle (hin i (by simp))
    obtain ⟨hidle₂,hcount₂⟩ := ih _ h₁ (fun j hj => hu j (by simp [hj])) (by omega) hidle₁ (by
      intro j hj hne
      rw [hframe j] at hne ⊢
      exact hin₁ _ (hin j (by simp [hj]) hne))
    refine ⟨hidle₂,?_⟩
    intro a n ha hpos hbound hcount
    have hhits : hits s.mem r (i::is) a =
        hits s.mem r is a+if frameAt s.mem r i = a then 1 else 0 := by
      rw [hits, List.countP_cons]
      simp only [decide_eq_true_eq]
      rfl
    have hrest : hits (sharePage r c s i).mem r is a = hits s.mem r is a :=
      hits_congr a (fun j _ => hframe j)
    rw [hhits] at hbound ⊢
    have hstep := share_counted r hr c i h ha hpos (by omega) hcount
    have hall := hcount₂ a _ ha (by omega) (by rw [hrest]; omega) hstep
    rwa [hrest, Nat.add_assoc, Nat.add_comm (ite _ _ _)] at hall

end

theorem child_uses {kernel : ℕ → Prop} {roots : List Word} {c : Word} {s' : Machine}
    (hfork : Forked kernel roots steps r c s s') (hu : ∀ i ∈ steps, User i)
    (heven : EvenSteps s.mem r steps) (a : Word) (ha : a ≠ 0) :
    uses (entryFrame s'.mem c) a = hits s.mem r steps a ∧ AllPresent s'.mem c := by
  have hframe : ∀ w, User w → frameAt s'.mem c w =
      if ∃ i ∈ steps, pageNumber w = pageNumber i ∧ Aligned i then frameAt s.mem r w else 0 := by
    intro w hw
    rw [frameAt, hfork.child w hw]
    by_cases hstep : ∃ i ∈ steps, pageNumber w = pageNumber i ∧ Aligned i
    · rw [if_pos hstep]
      by_cases hz : frameAt s.mem r w = 0
      · rw [if_neg (fun hc => hc.2 hz), hz]
        decide
      · rw [if_pos ⟨hstep,hz⟩]
        exact flagged_frame (frameAt_masked) shareFlags_masked
    · rw [if_neg (fun hc => hstep hc.1), if_neg hstep]
      decide
  have hpresent : AllPresent s'.mem c := by
    intro w hw hne
    rw [hfork.child w hw]
    rw [hframe w hw] at hne
    split_ifs at hne with hstep
    · rw [if_pos ⟨hstep,hne⟩]
      exact BitFields.set_inside _ shareFlags_present
    · exact absurd rfl hne
  refine ⟨?_,hpresent⟩
  have hfound : ∀ i ∈ steps.filter (fun i => frameAt s.mem r i = a),
      i ∈ steps ∧ frameAt s.mem r i = a := by
    intro i hi
    simpa using hi
  rw [hits, List.countP_eq_length_filter]
  refine (uses_listed _ a ((steps.filter (fun i => frameAt s.mem r i = a)).map pageIndex)
    ?_ ?_).trans (List.length_map _)
  · rw [List.Nodup, List.pairwise_map]
    apply List.Pairwise.imp_of_mem _ (heven.once.filter _)
    intro i j hi hj honce he
    obtain ⟨_,hia⟩ := hfound i hi
    exact honce (fun hz => ha (hia.symm.trans hz)) (congrArg Fin.val he)
  · intro n
    rw [List.mem_map, entryFrame_iff hpresent n ha]
    constructor
    · rintro ⟨i,hi,rfl⟩
      obtain ⟨hmem,hia⟩ := hfound i hi
      have hpage := pageIndex_page i
      have hun := user_page hpage (hu i hmem)
      refine ⟨hun,?_⟩
      rw [hframe _ hun, if_pos ⟨i,hmem,hpage,heven.aligned i hmem (fun hz => ha (hia.symm.trans hz))⟩,
        frameAt, pte_same_page s.mem r hpage]
      exact hia
    · rintro ⟨hun,hn⟩
      rw [hframe _ hun] at hn
      split_ifs at hn with hstep
      · obtain ⟨i,hmem,hpage,_⟩ := hstep
        refine ⟨i,?_,?_⟩
        · rw [frameAt, pte_same_page s.mem r hpage] at hn
          simpa using ⟨hmem,hn⟩
        · apply Fin.ext
          rw [← pageNumber_addr n, hpage]
          rfl
      · exact absurd hn.symm ha

section
variable {kernel : ℕ → Prop} {roots : List Word} {s : Machine} (h : Tallied kernel roots s)
include h

theorem tallied_copyVm {vmas : List Vma} (hr : r ∈ roots) (hu : ∀ i ∈ allSteps vmas, User i)
    (heven : EvenSteps s.mem r (allSteps vmas))
    (hbound : ∀ a, a ≠ 0 → entries s.mem roots a+hits s.mem r (allSteps vmas) a < 2^32)
    (hok : (copyVm s vmas r).1.shortages = s.shortages) :
    Tallied kernel ((copyVm s vmas r).2::roots) (copyVm s vmas r).1 := by
  obtain ⟨hspawn,hshare⟩ := (copyVm_supply _ _ _).2 hok
  have hprep := firstPass_prepared h.coherent hr hu hspawn
  have hfork := copyVm_forked h.coherent hr hu hok
  have hchild := child_uses hfork hu heven
  have hparent := flagged_leaves (h.present r hr) shareFlags_masked hfork.parent
  have hsteps := flagged_leaves (h.present r hr) shareFlags_masked hprep.parent
  have hcr : (copyPageTables s s.pml4 4).2 ≠ r := fun he => hprep.new (he ▸ hr)
  -- The steps find the frames that were mapped before, and those are in use.
  have hin : ∀ i ∈ allSteps vmas, frameAt s.mem r i ≠ 0 →
      Counted s.pages (frameAt s.mem r i) (entries s.mem roots (frameAt s.mem r i)) :=
    fun i hi hne => h.counted _ hne (entries_pos hr (h.present r hr) (hu i hi) hne)
  obtain ⟨hidle,hcounts⟩ := shares_counted r (List.mem_cons_of_mem _ hr) _ (by simp) hcr _
    hprep.coherent hu hshare (idle_later hprep.later h.idle) (by
      intro i hi hne
      rw [hsteps.2 i (hu i hi)] at hne ⊢
      exact inUse_later hprep.later (let ⟨p,hp,hused,_⟩ := hin i hi hne; ⟨p,hp,hused⟩))
  have hhits : ∀ a, hits ((allSteps vmas).foldl (protectPage r) (copyPageTables s s.pml4 4).1).mem r
      (allSteps vmas) a = hits s.mem r (allSteps vmas) a :=
    fun a => hits_congr a (fun i hi => hsteps.2 i (hu i hi))
  have hpresent : ∀ y ∈ (copyVm s vmas r).2::roots, AllPresent (copyVm s vmas r).1.mem y := by
    intro y hy
    rcases List.mem_cons.mp hy with rfl | hy
    · exact (hchild 1 (by decide)).2
    · by_cases hyr : y = r
      · rw [hyr]
        exact hparent.1
      · exact allPresent_leaf (h.present y hy) (hfork.others y hy hyr)
  constructor
  case coherent => exact hfork.coherent
  case distinct => exact List.nodup_cons.mpr ⟨hfork.new,h.distinct⟩
  case idle => exact hidle
  case present => exact hpresent
  case counted =>
    intro a ha hpos
    have hrest : total (entryFrame (copyVm s vmas r).1.mem) roots a = entries s.mem roots a := by
      apply total_congr
      intro y hy n
      apply entryFrame_same (h.present y hy) (hpresent y (List.mem_cons_of_mem _ hy)) _ n ha
      intro w hw
      by_cases hyr : y = r
      · rw [hyr]
        exact hparent.2 w hw
      · exact (frameAt_leaf (hfork.others y hy hyr w hw)).1
    rw [entries, total_cons, hrest, (hchild a ha).1, Nat.add_comm] at hpos ⊢
    have hmapped : 0 < entries s.mem roots a := by
      by_contra hz
      have hhit : 0 < hits s.mem r (allSteps vmas) a := by omega
      obtain ⟨i,hi,hia⟩ := List.countP_pos_iff.mp hhit
      have hia' : frameAt s.mem r i = a := by simpa using hia
      have := entries_pos hr (h.present r hr) (hu i hi) (hia'.trans_ne ha)
      rw [hia'] at this
      exact hz this
    have hfinal := hcounts a _ ha hmapped (by rw [hhits]; exact hbound a ha)
      (counted_later hprep.later hmapped (h.counted a ha hmapped))
    rwa [hhits] at hfinal

theorem tallied_fork {parent : MmStruct} (hr : parent.cr3 ∈ roots)
    (hu : ∀ i ∈ allSteps parent.vma, User i)
    (heven : EvenSteps s.mem parent.cr3 (allSteps parent.vma))
    (hbound : ∀ a, a ≠ 0 →
      entries s.mem roots a+hits s.mem parent.cr3 (allSteps parent.vma) a < 2^32)
    (hok : (doFork s parent).1.shortages = s.shortages) :
    Tallied kernel ((doFork s parent).2.cr3::roots) (doFork s parent).1 := by
  have hw := work_forkCopies s parent.vma
  obtain ⟨hdup,hcopy,hthread⟩ := doFork_supply hok
  simp only [doFork]
  generalize dupMm (forkObjects s) parent.vma = d at *
  obtain ⟨_,hleaf⟩ := fresh_leaf h.coherent d.1 (hw.fresh h.coherent.forest.frames hdup)
  have hframe : ∀ y ∈ roots, ∀ w, frameAt d.1.mem y w = frameAt s.mem y w :=
    fun y hy w => (frameAt_leaf (hleaf y hy w)).1
  have hentries : ∀ a, entries d.1.mem roots a = entries s.mem roots a := by
    intro a
    apply total_congr
    intro y hy n
    obtain ⟨hf,hp⟩ := frameAt_leaf (hleaf y hy _)
    rw [entryFrame, entryFrame, hf, hp]
  have hhits : ∀ a, hits d.1.mem parent.cr3 (allSteps parent.vma) a =
      hits s.mem parent.cr3 (allSteps parent.vma) a :=
    fun a => hits_congr a (fun i _ => hframe _ hr i)
  have heven' : EvenSteps d.1.mem parent.cr3 (allSteps parent.vma) := by
    constructor
    · intro i hi hne
      rw [hframe _ hr i] at hne
      exact heven.aligned i hi hne
    · apply heven.once.imp
      intro i j honce hne
      rw [hframe _ hr i] at hne
      exact honce hne
  have hcopied := tallied_copyVm (tallied_work h hw hdup) hr hu heven'
    (fun a ha => by rw [hentries, hhits]; exact hbound a ha) hcopy
  exact tallied_work hcopied (work_forkThread _) hthread

end

end PreemptiveOS.ForkCounts
