import PreemptiveOS.PageFaults
import PreemptiveOS.Fork

/-!
# What a fault does to every process

A fault works on the tables of one root. The frame it takes for the page is
set aside while the tables are extended, so clearing it afterwards touches no
table, and the last-level entries of every other root stay as they are.
-/

set_option autoImplicit false

namespace PreemptiveOS.FaultLeaves
open ByteMemory PhysMmgr VirtMmgr PageTree PageFlags FreshFrames Ownership DataFrames Vmas Fork
open PageFaults

structure Remapped (kernel : ℕ → Prop) (roots : List Word) (r v p f : Word)
    (s s' : Machine) : Prop where
  coherent : Coherent kernel 1 roots s'
  others : ∀ y ∈ roots, y ≠ r → ∀ w, User w → leaf s'.mem y w = leaf s.mem y w
  own : ∀ w, User w → pte s'.mem r w =
    if pageNumber w = pageNumber v then retarget (pte s.mem r w) p f else pte s.mem r w

variable {f : Word}

theorem retarget_flagged (e p : Word) (hf : f &&& addressMask = 0) :
    retarget (e ||| f) p f = retarget e p f := by
  apply BitVec.eq_of_getLsbD_eq
  intro i hi
  have hfi := congrArg (fun x => x.getLsbD i) hf
  simp only [BitVec.getLsbD_and] at hfi
  simp only [retarget, BitVec.getLsbD_or, BitVec.getLsbD_and, BitVec.getLsbD_not, hi, decide_true,
    Bool.true_and]
  cases addressMask.getLsbD i <;> cases p.getLsbD i <;> cases f.getLsbD i <;>
    cases e.getLsbD i <;> simp_all

variable {s' s₀ : Machine} {vma : Vma} {p : Word}

section
variable {kernel : ℕ → Prop} {roots : List Word} {s : Machine} (r v : Word) (hr : r ∈ roots)
  (hv : User v)
include hr hv

theorem map_data {k : ℕ} (h : Coherent kernel 1 roots s)
    (hg : Coherent (fun u => kernel u ∨ u = k) 1 roots s) (hk : ¬ kernel k) {f : BitVec 32}
    (hva : Aligned v) (hpa : Aligned p) (hpr : f.setWidth 64 &&& present = present)
    (hm : f.setWidth 64 &&& addressMask = 0)
    (hok : (mapVirtualAddressToPhysicalAddress clearTable s v p f r false).shortages = s.shortages)
    {m' : Mem}
    (hw : WritesFrame k (mapVirtualAddressToPhysicalAddress clearTable s v p f r false).mem m') :
    Remapped kernel roots r v p (f.setWidth 64) s
      { mapVirtualAddressToPhysicalAddress clearTable s v p f r false with mem := m' } := by
  obtain ⟨h₁,hothers,hown⟩ := map_leaves h clears_memset v p f hr hv hpr hm hok
  obtain ⟨hg₁,_⟩ := map_leaves hg clears_memset v p f hr hv hpr hm hok
  obtain ⟨h₂,hsame⟩ := coherent_write h₁ hg₁ hk hw
  constructor
  case coherent => exact h₂
  case others =>
    intro y hy hne w _
    exact (hsame y hy w).trans (hothers y hy hne w)
  case own =>
    intro w hw
    have hpte : pte m' r w = pte
        (mapVirtualAddressToPhysicalAddress clearTable s v p f r false).mem r w := by
      rw [pte, pte, hsame r hr w]
    rw [hpte, hown w hw]
    simp only [hva, hpa, and_true]

/-- Flags that are added before a mapping with the same flags leave no trace. -/
theorem remapped_flagged (hm : f &&& addressMask = 0) (h : Coherent kernel 1 roots s₀)
    (hmap : Remapped kernel roots r v p f (changeFlagsInParentPageTables s₀ v r f) s) :
    Remapped kernel roots r v p f s₀ s := by
  obtain ⟨_,hleaf⟩ := changeFlags_leaves h f hr hv hm
  constructor
  case coherent => exact hmap.coherent
  case others =>
    intro y hy hne w hw
    rw [hmap.others y hy hne w hw, hleaf y hy w hw, if_neg (fun hc => hne hc.1)]
  case own =>
    intro w hw
    rw [hmap.own w hw, pte, hleaf r hr w hw]
    by_cases hpage : pageNumber w = pageNumber v
    · rw [if_pos hpage, if_pos ⟨rfl,hpage⟩, if_pos hpage]
      cases ho : leaf s₀.mem r w with
      | none => simp only [pte, ho, Option.map_none, Option.getD_none]
      | some e =>
        simp only [pte, ho, Option.map_some, Option.getD_some]
        exact retarget_flagged e p hm
    · rw [if_neg hpage, if_neg (fun hc => hpage hc.2), if_neg hpage, pte]

omit hr hv in
theorem remapped_from (hsame : ∀ y ∈ roots, ∀ w, leaf s.mem y w = leaf s₀.mem y w)
    (hr : r ∈ roots) (hmap : Remapped kernel roots r v p f s s') :
    Remapped kernel roots r v p f s₀ s' := by
  constructor
  case coherent => exact hmap.coherent
  case others => exact fun y hy hne w hw => (hmap.others y hy hne w hw).trans (hsame y hy w)
  case own =>
    intro w hw
    rw [hmap.own w hw, pte, pte, hsame r hr w]

theorem anon_remapped (h : Coherent kernel 1 roots s) (hva : Aligned v)
    (hround : pageRoundUp v = v) (hfile : vma.file = none) (hs' : doAnonFault s r vma v = some s')
    (hok : s'.shortages = s.shortages) :
    (alloc s).2 ≠ 0 ∧
    Remapped kernel roots r v (alloc s).2 ((vmaFlags vma).setWidth 64) s s' := by
  have hfl := vmaFlags_present vma
  have hchange := changeFlags_rest (alloc s).1 v r ((vmaFlags vma).setWidth 64)
  rw [doAnonFault, if_neg (by simp [hfile])] at hs'
  dsimp only at hs'
  rw [hround, if_pos hva] at hs'
  have hs'' := Option.some.inj hs'
  have hle := (alloc_shortages s).1
  have hle' := map_shortages clearTable
    (changeFlagsInParentPageTables (alloc s).1 v r ((vmaFlags vma).setWidth 64)) v (alloc s).2
    (vmaFlags vma) r false
  have hmapped : (mapVirtualAddressToPhysicalAddress clearTable
      (changeFlagsInParentPageTables (alloc s).1 v r ((vmaFlags vma).setWidth 64)) v (alloc s).2
      (vmaFlags vma) r false).shortages = s.shortages := by
    rw [← hok, ← hs'']
  rw [hchange.2.2] at hle'
  have ha : (alloc s).2 ≠ 0 := (alloc_shortages s).2 (by omega)
  have hal := alloc_aligned h.forest.frames
  obtain ⟨h₁,hg,hk,_⟩ := coherent_guard h ha
  obtain ⟨h₂,_⟩ := changeFlags_leaves h₁ _ hr hv hfl.2
  obtain ⟨hg₂,_⟩ := changeFlags_leaves hg _ hr hv hfl.2
  refine ⟨ha,remapped_from (s := (alloc s).1) r v (fun _ _ _ => rfl) hr
    (remapped_flagged r v hr hv hfl.2 h₁ ?_)⟩
  rw [← hs'']
  exact map_data r v hr hv h₂ hg₂ hk hva hal hfl.1 hfl.2
    (by rw [hmapped, hchange.2.2]; omega) (fill_page _ hal)

end

def Delivered (files : KernelPtr → FileData) (mm : MmStruct) (vma : Vma) (addr : Word) : Prop :=
  ∀ req fp, readRequest vma addr = some req → mm.file = some fp →
    ¬ (req.strict ∧ ((numRead (files fp) req).sle 0 ∨ (numRead (files fp) req).slt req.toRead))

variable {files : KernelPtr → FileData} {s : Machine} {mm : MmStruct} {v : Word}

theorem file_result (hva : Aligned v) (hround : pageRoundUp v = v) (hd : Delivered files mm vma v)
    (hal : Aligned (alloc s).2) (hs' : doFileFault files s mm vma v = some s') :
    ∃ m', s' = { mapVirtualAddressToPhysicalAddress clearTable (alloc s).1 v (alloc s).2
        (vmaFlags vma) mm.cr3 false with mem := m' } ∧
      WritesFrame (frameOf (alloc s).2) (mapVirtualAddressToPhysicalAddress clearTable (alloc s).1 v
        (alloc s).2 (vmaFlags vma) mm.cr3 false).mem m' := by
  rw [doFileFault] at hs'
  dsimp only at hs'
  rw [hround, if_pos hva] at hs'
  have hfill := fill_page (mapVirtualAddressToPhysicalAddress clearTable (alloc s).1 v
    (alloc s).2 (vmaFlags vma) mm.cr3 false).mem hal
  generalize mapVirtualAddressToPhysicalAddress clearTable (alloc s).1 v
    (alloc s).2 (vmaFlags vma) mm.cr3 false = s₁ at *
  cases hreq : readRequest vma v with
  | none =>
    rw [hreq] at hs'
    exact ⟨_,(Option.some.inj hs').symm,hfill⟩
  | some req =>
    rw [hreq] at hs'
    cases hfile : mm.file with
    | none =>
      rw [hfile] at hs'
      simp [fillPage] at hs'
    | some fp =>
      rw [hfile] at hs'
      dsimp only [fillPage] at hs'
      rw [if_neg (hd req fp hreq hfile)] at hs'
      exact ⟨_,(Option.some.inj hs').symm,
        writesFrame_trans hfill (deliver_page _ hal (files fp) req)⟩

variable {roots : List Word} {kernel : ℕ → Prop}

theorem file_remapped (h : Coherent kernel 1 roots s) (hr : mm.cr3 ∈ roots) (hv : User v)
    (hva : Aligned v) (hround : pageRoundUp v = v) (hd : Delivered files mm vma v)
    (hs' : doFileFault files s mm vma v = some s') (hok : s'.shortages = s.shortages) :
    (alloc s).2 ≠ 0 ∧
    Remapped kernel roots mm.cr3 v (alloc s).2 ((vmaFlags vma).setWidth 64) s s' := by
  have hfl := vmaFlags_present vma
  have hal := alloc_aligned h.forest.frames
  obtain ⟨m',rfl,hw⟩ := file_result hva hround hd hal hs'
  have hle := (alloc_shortages s).1
  have hle' := map_shortages clearTable (alloc s).1 v (alloc s).2 (vmaFlags vma) mm.cr3 false
  have hok' : (mapVirtualAddressToPhysicalAddress clearTable (alloc s).1 v (alloc s).2
      (vmaFlags vma) mm.cr3 false).shortages = s.shortages := hok
  have ha : (alloc s).2 ≠ 0 := (alloc_shortages s).2 (by omega)
  obtain ⟨h₁,hg,hk,_⟩ := coherent_guard h ha
  exact ⟨ha,remapped_from (s := (alloc s).1) mm.cr3 v (fun _ _ _ => rfl) hr
    (map_data mm.cr3 v hr hv h₁ hg hk hva hal hfl.1 hfl.2 (by omega) hw)⟩

/-- A demand fault leaves everything as it is, where a VMA with a file has the
anonymous handler, or gives the page the lowest unused frame. -/
theorem demand_remapped (h : Coherent kernel 1 roots s) (hr : mm.cr3 ∈ roots) (hv : User v)
    (hva : Aligned v) (hround : pageRoundUp v = v) (hd : Delivered files mm vma v)
    (hs' : vmaFault files s mm vma v = some s') (hok : s'.shortages = s.shortages) :
    s' = s ∨ (alloc s).2 ≠ 0 ∧
      Remapped kernel roots mm.cr3 v (alloc s).2 ((vmaFlags vma).setWidth 64) s s' := by
  unfold vmaFault at hs'
  cases hfault : vma.fault with
  | doFileFault =>
    rw [hfault] at hs'
    exact Or.inr (file_remapped h hr hv hva hround hd hs' hok)
  | doAnonFault =>
    rw [hfault] at hs'
    cases hfile : vma.file with
    | some fp =>
      dsimp only at hs'
      rw [doAnonFault, if_pos (by simp [hfile])] at hs'
      exact Or.inl (Option.some.inj hs').symm
    | none => exact Or.inr (anon_remapped mm.cr3 v hr hv h hva hround hfile hs' hok)

theorem fresh_decrement (margin : ℕ) (s : Machine) (page : Page) :
    Fresh margin s { s with pages := decrementReferenceCountOfPage page s.pages } := by
  apply fresh_recount
  · intro p
    split_ifs <;> rfl
  · intro p
    split_ifs <;> rfl

variable {page : Page} {r : Word}

theorem shared_remapped (h : Coherent kernel 1 roots s) (hr : r ∈ roots) (hv : User v)
    (hs' : copySharedPage s v r page = some s') (hok : s'.shortages = s.shortages) :
    (alloc s).2 ≠ 0 ∧
    Remapped kernel roots r v (alloc s).2 (userFlags.setWidth 64) s s' := by
  have hva : Aligned v := by
    by_contra hn
    rw [copySharedPage, if_neg hn] at hs'
    simp at hs'
  rw [copySharedPage, if_pos hva] at hs'
  dsimp only at hs'
  have hal := alloc_aligned h.forest.frames
  have hcopy := copy_page s.mem (alloc s).2 hal (kernelAddr (walkPml4 s.mem r v))
  generalize copyBytes s.mem (kernelAddr (alloc s).2) (kernelAddr (walkPml4 s.mem r v)) 4095 = m at *
  obtain rfl := Option.some.inj hs'
  have hle := (alloc_shortages s).1
  have hle' := map_shortages clearTable { (alloc s).1 with mem := m } v (alloc s).2 userFlags r false
  dsimp only at hok hle'
  have ha : (alloc s).2 ≠ 0 := (alloc_shortages s).2 (by omega)
  obtain ⟨h₁,hg,hk,_⟩ := coherent_guard h ha
  obtain ⟨h₂,hsame₂⟩ := coherent_write h₁ hg hk hcopy
  obtain ⟨h₃,hothers,hown⟩ := map_leaves h₂ clears_memset v (alloc s).2 userFlags hr hv
    (by decide) (by decide) (by dsimp only; omega)
  obtain ⟨h₄,hsame₄⟩ := fresh_leaf h₃ { mapVirtualAddressToPhysicalAddress clearTable
    { (alloc s).1 with mem := m } v (alloc s).2 userFlags r false with
    pages := decrementReferenceCountOfPage page (mapVirtualAddressToPhysicalAddress clearTable
      { (alloc s).1 with mem := m } v (alloc s).2 userFlags r false).pages }
        (fresh_decrement 1 _ page)
  refine ⟨ha,?_⟩
  constructor
  case coherent => exact h₄
  case others =>
    intro y hy hne w _
    rw [hsame₄ y hy w, hothers y hy hne w, hsame₂ y hy w]
    rfl
  case own =>
    intro w hw
    have hpte := hown w hw
    simp only [hva, hal, and_true] at hpte
    rw [pte, hsame₄ r hr w]
    refine hpte.trans ?_
    simp only [pte, hsame₂ r hr w]
    rfl

theorem copyShared_shortages (hs' : copySharedPage s v r page = some s') :
    s.shortages ≤ s'.shortages := by
  rw [copySharedPage] at hs'
  dsimp only at hs'
  generalize copyBytes s.mem (kernelAddr (alloc s).2) (kernelAddr (walkPml4 s.mem r v)) 4095 =
    m at hs'
  have hle := map_shortages clearTable { (alloc s).1 with mem := m } v (alloc s).2 userFlags r false
  split_ifs at hs' with hva
  have hsh := congrArg Machine.shortages (Option.some.inj hs')
  rw [← hsh]
  exact (alloc_shortages s).1.trans hle

/-- What a copy-on-write fault can do, by the count it finds for the frame. -/
theorem cow_cases (h : Coherent kernel 1 roots s) (hr : r ∈ roots) (hv : User v)
    (hs' : doCopyOnWriteFault s r v = some s') (hok : s'.shortages = s.shortages) :
    let found := findPageFromVirt s v r
    (found.2.referenceCount = 1 ∧ s'.pages = found.1.pages ∧ Coherent kernel 1 roots s' ∧
      ∀ y ∈ roots, ∀ w, User w → leaf s'.mem y w =
        if y = r ∧ pageNumber w = pageNumber v then
          (leaf s.mem y w).map (fun e => e ||| userFlags.setWidth 64)
        else leaf s.mem y w) ∨
    (1 < found.2.referenceCount ∧ (alloc found.1).2 ≠ 0 ∧
      copySharedPage found.1 v r found.2 = some s' ∧
      Remapped kernel roots r v (alloc found.1).2 (userFlags.setWidth 64) s s') ∨
    (s' = found.1 ∧ Coherent kernel 1 roots s' ∧
      ∀ y ∈ roots, ∀ w, leaf s'.mem y w = leaf s.mem y w) := by
  have hwork := work_page s (walkPml4 s.mem r v)
  change Work 1 s (findPageFromVirt s v r).1 at hwork
  rw [doCopyOnWriteFault] at hs'
  dsimp only at hs' ⊢
  generalize findPageFromVirt s v r = found at *
  have hle := hwork.shortages
  by_cases h1 : found.2.referenceCount = 1
  · left
    rw [if_pos h1] at hs'
    obtain rfl := Option.some.inj hs'
    have hrest := changeFlags_rest found.1 v r (userFlags.setWidth 64)
    have hsh : found.1.shortages = s.shortages := by
      rw [← hok]
      exact hrest.2.2.symm
    obtain ⟨h₁,hsame⟩ := fresh_leaf h found.1 (hwork.fresh h.forest.frames hsh)
    obtain ⟨h₂,hleaf⟩ := changeFlags_leaves h₁ _ hr hv
      (by decide : userFlags.setWidth 64 &&& addressMask = 0)
    refine ⟨h1,hrest.1,⟨⟨h₂.forest.separate,h₂.forest.frames,h₂.forest.outside⟩,h₂.tables,h₂.apart,
      h₂.window,h₂.aligned,h₂.shared,h₂.empty⟩,?_⟩
    intro y hy w hw
    rw [← hsame y hy w]
    exact hleaf y hy w hw
  · rw [if_neg h1] at hs'
    by_cases h2 : 1 < found.2.referenceCount
    · right
      left
      rw [if_pos h2] at hs'
      have hsh := copyShared_shortages hs'
      obtain ⟨h₁,hsame⟩ := fresh_leaf h found.1 (hwork.fresh h.forest.frames (by omega))
      obtain ⟨ha,hmap⟩ := shared_remapped h₁ hr hv hs' (by omega)
      exact ⟨h2,ha,hs',remapped_from r v hsame hr hmap⟩
    · right
      right
      rw [if_neg h2] at hs'
      obtain rfl := Option.some.inj hs'
      exact ⟨rfl,fresh_leaf h found.1 (hwork.fresh h.forest.frames hok)⟩

theorem noVma_machine (atNull : Word) (s : Machine) (p : Process) (address : Word) :
    (noVma atNull s p address).machine = s ∧
    (noVma atNull s p address).process.mm.cr3 = p.mm.cr3 := by
  have hkill : ∀ q : Process, (sysKill p.pid p.pid segfault q).mm.cr3 = q.mm.cr3 := by
    intro q
    rw [sysKill]
    split_ifs <;> rfl
  unfold noVma
  split
  · exact ⟨rfl,hkill p⟩
  · split
    · dsimp only
      refine ⟨rfl,?_⟩
      split
      · rfl
      · exact hkill _
    · exact ⟨rfl,rfl⟩

/-- A fault leaves the machine as it is, copies a shared page or brings one in. -/
theorem doPageFault_cases {atNull : Word} {p : Process} {errorCode : BitVec 32} {address : Word}
    {x : Handled} (hx : doPageFault files atNull s p errorCode address = some x) :
    x.process.mm.cr3 = p.mm.cr3 ∧
    (x.machine = s ∨
      doCopyOnWriteFault s p.mm.cr3 (pageRoundUp address) = some x.machine ∨
      ∃ vma, findVma p.mm.vma address = some vma ∧ ¬ (isPresent errorCode ∧ isWrite errorCode) ∧
        vmaFault files s p.mm vma (pageRoundUp address) = some x.machine) := by
  rw [doPageFault] at hx
  split at hx
  · obtain rfl := Option.some.inj hx
    exact ⟨rfl,Or.inl rfl⟩
  cases hfind : findVma p.mm.vma address with
  | none =>
    rw [hfind] at hx
    obtain rfl := Option.some.inj hx
    obtain ⟨hm,hcr3⟩ := noVma_machine atNull s p address
    exact ⟨hcr3,Or.inl hm⟩
  | some vma =>
    rw [hfind] at hx
    dsimp only at hx
    split at hx
    case isTrue hcow =>
      split at hx
      · obtain ⟨s',hs',rfl⟩ := Option.map_eq_some_iff.mp hx
        exact ⟨rfl,Or.inr (Or.inl hs')⟩
      · obtain rfl := Option.some.inj hx
        exact ⟨rfl,Or.inl rfl⟩
    case isFalse hcow =>
      obtain ⟨s',hs',rfl⟩ := Option.map_eq_some_iff.mp hx
      exact ⟨rfl,Or.inr (Or.inr ⟨vma,rfl,hcow,hs'⟩)⟩

end PreemptiveOS.FaultLeaves
