import PreemptiveOS.FilePages
import PreemptiveOS.FaultLeaves

/-!
# One copy-on-write fault

A copy-on-write fault looks up the record of the frame, which takes a frame of
its own, and then adds the flags in place or copies the page. The page is
mapped, so that no table is needed, and every entry of the other processes is
as before.
-/

set_option autoImplicit false

namespace PreemptiveOS.CopyFaults
open ByteMemory PhysMmgr TableForest VirtMmgr PageTree PageFlags PageRecords FreshFrames Ownership
open DataFrames KernelObjects PageFaults
open FaultLeaves (fresh_decrement)

def lookUp (clear : Mem → ℕ → Mem) (s : Machine) (physAddr : Word) : Machine × Page :=
  ({ (alloc s).1 with mem := clear s.mem (kernelAddr (alloc s).2) },
    (pageOf (alloc s).1.pages physAddr).getD nullPage)

def copyShared (clear : Mem → ℕ → Mem) (s : Machine) (addr cr3 : Word) (page : Page) :
    Option Machine :=
  if Aligned addr then
    let k := (alloc s).2
    let m := copyBytes s.mem (kernelAddr k) (kernelAddr (walkPml4 s.mem cr3 addr)) 4095
    let s₁ := mapVirtualAddressToPhysicalAddress clear { (alloc s).1 with mem := m } addr k
      userFlags cr3 false
    some { s₁ with pages := decrementReferenceCountOfPage page s₁.pages }
  else none

def copyOnWriteFault (clear : Mem → ℕ → Mem) (s : Machine) (cr3 addr : Word) : Option Machine :=
  let found := lookUp clear s (walkPml4 s.mem cr3 addr)
  if found.2.referenceCount = 1 then
    some (setPml4 (changeFlagsInParentPageTables found.1 addr cr3 (userFlags.setWidth 64)) cr3)
  else if 1 < found.2.referenceCount then copyShared clear found.1 addr cr3 found.2
  else some found.1

theorem copyOnWriteFault_memset (s : Machine) (cr3 addr : Word) :
    copyOnWriteFault clearTable s cr3 addr = doCopyOnWriteFault s cr3 addr := rfl

theorem map_present (clear : Mem → ℕ → Mem) (s : Machine) (v p cr3 e : Word) (f : BitVec 32)
    (hcr3 : Aligned cr3) (hv : Aligned v) (hp : Aligned p) (h : leaf s.mem cr3 v = some e) :
    ∃ t, Aligned t ∧ descend child (tables s.mem) (frameOf cr3) (upperPath v) = some (frameOf t) ∧
      mapVirtualAddressToPhysicalAddress clear s v p f cr3 false = { s with
        mem := setEntry s.mem t (getIndexOfPt v) (retarget e p (f.setWidth 64)), cr3 := cr3 } := by
  have h₁ := tableOf_aligned s.mem cr3 (getIndexOfPml4 v)
  have h₂ := tableOf_aligned s.mem (tableOf s.mem cr3 (getIndexOfPml4 v)) (getIndexOfPdpt v)
  have h₃ := tableOf_aligned s.mem (tableOf s.mem (tableOf s.mem cr3 (getIndexOfPml4 v))
    (getIndexOfPdpt v)) (getIndexOfPdt v)
  rw [leaf, entryAt, upperPath, descend_entry s.mem cr3 _ _ hcr3, descend_entry s.mem _ _ _ h₁,
    descend_entry s.mem _ _ _ h₂] at h
  split_ifs at h with hp₁ hp₂ hp₃
  · refine ⟨_,h₃,?_,?_⟩
    · rw [upperPath, descend_entry s.mem cr3 _ _ hcr3, descend_entry s.mem _ _ _ h₁,
        descend_entry s.mem _ _ _ h₂, if_pos hp₁, if_pos hp₂, if_pos hp₃]
      rfl
    · have he : entry s.mem _ (getIndexOfPt v) = e :=
        (entry_eq s.mem _ h₃).trans (Option.some.inj h)
      rw [mapVirtualAddressToPhysicalAddress, if_neg (not_not.mpr ((aligned_iff v).mpr hv)),
        if_neg (not_not.mpr ((aligned_iff p).mpr hp))]
      dsimp only
      rw [ensure_present clear _ hp₁, ensure_present clear _ hp₂,
        ensure_present clear _ hp₃, setLeaf, he]
      rfl
  · simp at h
  · simp at h
  · simp at h

variable {j : Fin 512} {m : Mem} {e r v : Word}

theorem path_present (hleaf : leaf m r v = some e) {q : List (Fin 512)}
    (hpre : q++[j] <+: upperPath v) : pathEntry m r q j &&& present = present := by
  obtain ⟨rest,hrest⟩ := hpre
  rw [leaf, entryAt, ← hrest, descend_append, Option.map_eq_some_iff] at hleaf
  obtain ⟨t,ht,_⟩ := hleaf
  rw [Option.bind_eq_some_iff] at ht
  obtain ⟨u,hu,_⟩ := ht
  rw [TableForest.descend_entry, Option.bind_eq_some_iff] at hu
  obtain ⟨x,hx,hchild⟩ := hu
  rw [pathEntry, hx, Option.getD_some]
  exact by_contra fun hn => absurd hchild (by rw [child_absent hn]; simp)

def UpperGranted (m : Mem) (cr3 v : Word) : Prop :=
  ∀ q j, q++[j] <+: upperPath v →
    pathEntry m cr3 q j &&& userFlags.setWidth 64 = userFlags.setWidth 64

variable {m' : Mem}

theorem upperGranted_congr
    (h : ∀ q j, q++[j] <+: upperPath v → pathEntry m' r q j = pathEntry m r q j) :
    UpperGranted m' r v ↔ UpperGranted m r v := by
  apply forall₃_congr
  intro q j hpre
  rw [h q j hpre]

theorem grants_upper (hleaf : leaf m r v = some e) :
    Grants (toAbsent (userFlags.setWidth 64)) m r v (userFlags.setWidth 64) ↔
      UpperGranted m r v := by
  have hupper : ∀ q j, q++[j] <+: upperPath v →
      toAbsent (userFlags.setWidth 64) q.length (pathEntry m r q j) = pathEntry m r q j := by
    intro q j hpre
    have hlen := hpre.length_le
    simp only [List.length_append, upperPath, List.length_cons, List.length_nil] at hlen
    exact if_pos ⟨by omega,path_present hleaf hpre⟩
  constructor
  · intro hg q j hpre
    rw [← hupper q j hpre]
    exact hg q j (hpre.trans (List.prefix_append _ _))
  · intro hg q j hpre
    rcases on_fullPath hpre with ⟨hup,_⟩ | ⟨rfl,rfl⟩
    · rw [hupper q j hup]
      exact hg q j hup
    · rw [toAbsent, if_neg (by simp [upperPath])]
      exact BitFields.set_inside _ (by decide)

theorem permitted_present (hleaf : leaf m r v = some e) (he : e &&& present = present) :
    Permitted m r v present := by
  intro q j hpre
  rcases on_fullPath hpre with ⟨hup,_⟩ | ⟨rfl,rfl⟩
  · exact path_present hleaf hup
  · rw [pathEntry, show entryAt child (tables m) (frameOf r) (upperPath v) (getIndexOfPt v) = some e
      from hleaf]
    exact he

variable {s : Machine} {p : Page} {a : Word}

theorem lookUp_record (clear : Mem → ℕ → Mem) (hf : FramesOk s.pages)
    (hp : pageOf s.pages a = some p) (hused : p.isFreePage = true) (hcount : p.referenceCount ≠ 0) :
    (lookUp clear s a).2 = p := by
  have hkept : pageOf (alloc s).1.pages a = some p :=
    (later_alloc hf).counted a p hp hused hcount
  rw [lookUp]
  dsimp only
  rw [hkept, Option.getD_some]

theorem copied_byte (m : Mem) (dest src i : ℕ) (hi : i < 4096) :
    copyBytes m dest src 4095 (dest+i) = if i < 4095 then m (src+i) else m (dest+i) := by
  rw [copyBytes, Nat.add_sub_cancel_left]
  by_cases hlt : i < 4095
  · rw [if_pos hlt, if_pos (by omega)]
  · rw [if_neg hlt, if_neg (by omega)]

theorem setEntry_frame (m : Mem) {t : Word} (ht : Aligned t) :
    WritesFrame (frameOf t) m (setEntry m t j e) := by
  intro x hx
  have hj := j.isLt
  rw [setEntry, store, kernelAddr_aligned t ht, if_neg (by omega)]

section
variable {kernel : ℕ → Prop} {margin : ℕ} {roots : List Word} {s : Machine}
  (h : Coherent kernel margin roots s) {clear : Mem → ℕ → Mem} (hclear : Clears clear margin)
  (r v e : Word) (hr : r ∈ roots) (hv : User v) (hva : Aligned v)
  (hleaf : leaf s.mem r v = some e)
include h

omit hclear in
theorem owned_target (hr : r ∈ roots) (hv : User v) (hva : Aligned v) :
    Target (owned kernel roots) r v :=
  ⟨owned_closed kernel roots,(h.window r hr).1,hva,owned_upper kernel roots r hr v hv,
    owned_long kernel roots _ v⟩

include hclear in
theorem lookUp_quiet (a : Word) (hfree : 1 ≤ freeCount s.pages) :
    Quiet kernel margin roots s (fun _ => False) (lookUp clear s a).1 ∧
    (lookUp clear s a).1.shortages = s.shortages := by
  have hok := (alloc_supplied ⟨h.forest.frames,rfl,hfree⟩).1.2.1
  exact ⟨fresh_quiet h ((work_cleared hclear s).fresh h.forest.frames hok),hok⟩

theorem walk_leaf (hr : r ∈ roots) (hleaf : leaf s.mem r v = some e) :
    walkPml4 s.mem r v = e &&& addressMask := by
  rw [walk_eq s.mem v (h.window r hr).1, hleaf]
  rfl

include hr hv hva hleaf

theorem addFlags_step : let s' := setPml4 (changeFlagsInParentPageTables s v r
      (userFlags.setWidth 64)) r
    Quiet kernel margin roots s (fun u => u = frameOf r) s' ∧
    leaf s'.mem r v = some (e ||| userFlags.setWidth 64) ∧
    (Permitted s.mem r v present → Permitted s'.mem r v (userFlags.setWidth 64)) ∧
    s'.pages = s.pages ∧ s'.shortages = s.shortages := by
  intro s'
  have hq := changeFlags_quiet h (userFlags.setWidth 64) hr hv (by decide)
  have hrest := changeFlags_rest s v r (userFlags.setWidth 64)
  obtain ⟨_,hleaves⟩ := changeFlags_leaves h (userFlags.setWidth 64) hr hv (by decide)
  refine ⟨⟨⟨hq.forest.separate,hq.forest.frames,hq.forest.outside⟩,hq.root,hq.apart,hq.others,
    hq.shared⟩,?_,?_,hrest.1,hrest.2.2⟩
  · refine (hleaves r hr v hv).trans ?_
    rw [if_pos ⟨rfl,rfl⟩, hleaf]
    rfl
  · exact changeFlags_permitted (owned_target h r v hr hv hva) h.forest _ (by decide) (by decide)

include hclear

theorem copyShared_step (page : Page) (hfree : 1 ≤ freeCount s.pages) :
    ∃ s', copyShared clear s v r page = some s' ∧
      Quiet kernel margin roots s (fun u => u = frameOf r) s' ∧
      leaf s'.mem r v = some (retarget e (alloc s).2 (userFlags.setWidth 64)) ∧
      (∀ need, need &&& addressMask = 0 → (Permitted s'.mem r v need ↔
        Grants (toAbsent (userFlags.setWidth 64)) s.mem r v need)) ∧
      s'.pages = decrementReferenceCountOfPage page (alloc s).1.pages ∧
      ∀ i < 4096, s'.mem (kernelAddr (alloc s).2+i) =
        if i < 4095 then s.mem (kernelAddr (e &&& addressMask)+i)
        else s.mem (kernelAddr (alloc s).2+i) := by
  obtain ⟨hsup,ha⟩ := alloc_supplied ⟨h.forest.frames,rfl,hfree⟩
  have hwin := unused_window s.pages h.forest.frames _ (alloc_unused s.pages ha)
  have hmask := aligned_masked (alloc s).2 hwin.1 (by rw [alloc_frame]; omega)
  obtain ⟨_,hg,hk,_⟩ := coherent_guard h ha
  obtain ⟨hguard,hnot⟩ := forest_guard (owned_closed kernel roots) h.forest ha
  have hcopy := copy_page s.mem (alloc s).2 hwin.1 (kernelAddr (e &&& addressMask))
  have hbytes := copied_byte s.mem (kernelAddr (alloc s).2) (kernelAddr (e &&& addressMask))
  refine ⟨_,if_pos hva,?_⟩
  dsimp only
  rw [walk_leaf h r v e hr hleaf]
  generalize copyBytes s.mem (kernelAddr (alloc s).2) (kernelAddr (e &&& addressMask)) 4095 = m
    at *
  have hq₁ := fresh_quiet h ((work_alloc margin s).fresh h.forest.frames hsup.2.1)
  have h₁ := quiet_coherent h hq₁
  have hq₂ := quiet_trans hq₁ (quiet_write h₁ hg hk hcopy)
  have h₂ := quiet_coherent h hq₂
  have hleaf₂ : leaf m r v = some e :=
    (quiet_leaf h hq₂ r (Or.inr ⟨hr,id⟩) v).trans hleaf
  obtain ⟨t,ht,hdesc,hmap⟩ := map_present clear { (alloc s).1 with mem := m } v (alloc s).2 r e
    userFlags (h.window r hr).1 hva hwin.1 hleaf₂
  have hapart : frameOf (alloc s).2 ≠ frameOf t := by
    intro he
    rw [← he] at hdesc
    exact guarded_not_reached (forest_refill (owned_closed kernel roots) hguard hnot hcopy) hnot
      ⟨_,_,owned_upper kernel roots r hr v hv,hdesc⟩
  have hmem := congrArg Machine.mem hmap
  have hok := congrArg Machine.shortages hmap
  have hpages := congrArg Machine.pages hmap
  have hq₃ := map_quiet h₂ hclear hr hv (by decide) (by decide) hok
  have hmapped := map_owned h₂ hclear (alloc s).2 hr hv hva hwin.1 (by decide) (by decide) hok
  have hpath : ∀ q j, q++[j] <+: fullPath v → pathEntry m r q j = pathEntry s.mem r q j := by
    intro q j hpre
    rw [pathEntry, pathEntry]
    exact congrArg (fun o => Option.getD o 0)
      (hq₂.others _ q j (target_path (owned_target h r v hr hv hva) hpre) id)
  generalize mapVirtualAddressToPhysicalAddress clear { (alloc s).1 with mem := m } v (alloc s).2
    userFlags r false = s₃ at *
  have hq₄ := fresh_quiet (quiet_coherent h₂ hq₃) (fresh_decrement margin s₃ page)
  have hweak := fun u (hu : u = frameOf r) => hq₃.apart u hu
  refine ⟨quiet_trans (quiet_trans (quiet_weaken hq₂ hweak) hq₃) (quiet_weaken hq₄ hweak),?_,?_,?_,
    ?_⟩
  · have hnew := hmapped.leaf rfl
    rw [hleaf₂] at hnew
    exact hnew
  · intro need hneed
    refine (map_permitted hmapped hmask need hneed).trans ?_
    apply grants_iff
    intro q j hpre
    rw [← hpath q j hpre]
  · rw [hpages]
  · intro i hi
    have hin : (kernelAddr (alloc s).2+i)/4096 ≠ frameOf t := by
      rw [kernelAddr_aligned (alloc s).2 hwin.1]
      omega
    rw [hmem]
    exact (setEntry_frame m ht _ hin).trans (hbytes i hi)

variable (p : Page) (hp : pageOf s.pages (e &&& addressMask) = some p)
  (hused : p.isFreePage = true)
include hp hused

theorem cow_alone (he : e &&& present = present) (hone : p.referenceCount = 1)
    (hfree : 1 ≤ freeCount s.pages) :
    ∃ s', copyOnWriteFault clear s r v = some s' ∧
      Quiet kernel margin roots s (fun u => u = frameOf r) s' ∧
      leaf s'.mem r v = some (e ||| userFlags.setWidth 64) ∧
      Permitted s'.mem r v (userFlags.setWidth 64) ∧ s'.pages = (alloc s).1.pages := by
  have hfound := lookUp_record clear h.forest.frames hp hused (by rw [hone]; decide)
  obtain ⟨hq,_⟩ := lookUp_quiet h hclear (e &&& addressMask) hfree
  have h₁ := quiet_coherent h hq
  have hleaf₁ := (quiet_leaf h hq r (Or.inr ⟨hr,id⟩) v).trans hleaf
  obtain ⟨hq₂,hnew,hperm,hpages,_⟩ := addFlags_step h₁ r v e hr hv hva hleaf₁
  refine ⟨_,?_,quiet_trans (quiet_weaken hq hq₂.apart) hq₂,hnew,
    hperm (permitted_present hleaf₁ he),hpages⟩
  rw [copyOnWriteFault, walk_leaf h r v e hr hleaf, hfound, if_pos hone]

theorem cow_copied (hmany : 1 < p.referenceCount) (hfree : 2 ≤ freeCount s.pages) :
    ∃ s', copyOnWriteFault clear s r v = some s' ∧
      Quiet kernel margin roots s (fun u => u = frameOf r) s' ∧
      leaf s'.mem r v =
        some (retarget e (alloc (alloc s).1).2 (userFlags.setWidth 64)) ∧
      (Permitted s'.mem r v (userFlags.setWidth 64) ↔ UpperGranted s.mem r v) ∧
      s'.pages = decrementReferenceCountOfPage p (alloc (alloc s).1).1.pages ∧
      ∀ i < 4096, s'.mem (kernelAddr (alloc (alloc s).1).2+i) =
        if i < 4095 then
          clear s.mem (kernelAddr (alloc s).2) (kernelAddr (e &&& addressMask)+i)
        else clear s.mem (kernelAddr (alloc s).2) (kernelAddr (alloc (alloc s).1).2+i) := by
  have hnz : p.referenceCount ≠ 0 := by
    rintro hz
    rw [hz] at hmany
    exact absurd hmany (by decide)
  have hfound := lookUp_record clear h.forest.frames hp hused hnz
  obtain ⟨hq,_⟩ := lookUp_quiet h hclear (e &&& addressMask) (by omega)
  have h₁ := quiet_coherent h hq
  have hleaf₁ := (quiet_leaf h hq r (Or.inr ⟨hr,id⟩) v).trans hleaf
  have hfree₁ : 1 ≤ freeCount (lookUp clear s (e &&& addressMask)).1.pages := by
    have hcount : freeCount (lookUp clear s (e &&& addressMask)).1.pages = freeCount s.pages-1 :=
      freeCount_allocated s.pages
    omega
  obtain ⟨s',hs',hq₂,hnew,hperm,hpages,hbytes⟩ := copyShared_step h₁ hclear r v e hr hv hva hleaf₁ p
    hfree₁
  refine ⟨s',?_,quiet_trans (quiet_weaken hq hq₂.apart) hq₂,hnew,?_,hpages,hbytes⟩
  · have hne : p.referenceCount ≠ 1 := by
      intro hone
      rw [hone] at hmany
      exact absurd hmany (by decide)
    rw [copyOnWriteFault, walk_leaf h r v e hr hleaf, hfound, if_neg hne, if_pos hmany, hs']
  · refine (hperm _ (by decide)).trans ((grants_upper hleaf₁).trans ?_)
    apply forall₃_congr
    intro q j hpre
    have hown := target_path (owned_target h r v hr hv hva) (hpre.trans (List.prefix_append _ _))
    rw [pathEntry, hq.others _ q j hown id, ← pathEntry]

end

section
variable {kernel : ℕ → Prop} {margin : ℕ} {roots : List Word} {s s' : Machine}
  (h : Coherent kernel margin roots s) (r : Word) (hr : r ∈ roots)
  (hq : Quiet kernel margin roots s (fun u => u = frameOf r) s') (y : Word) (hy : y ∈ roots)
  (hne : y ≠ r)
include h hr hq hy hne

theorem quiet_others : (∀ w, leaf s'.mem y w = leaf s.mem y w) ∧
    ∀ q j, UserPath q → pathEntry s'.mem y q j = pathEntry s.mem y q j := by
  have hroot : frameOf y ≠ frameOf r := fun he => hne (root_inj h hy hr he)
  refine ⟨quiet_leaf h hq y (Or.inr ⟨hy,hroot⟩),?_⟩
  intro q j hpath
  rw [pathEntry, pathEntry, hq.others _ q j (Or.inl ⟨y,hy,rfl,hpath⟩) hroot]

variable (v : Word) (hv : User v)
include hv

theorem quiet_upper (q : List (Fin 512)) (j : Fin 512) (hpre : q++[j] <+: upperPath v) :
    pathEntry s'.mem y q j = pathEntry s.mem y q j := by
  obtain ⟨rest,hrest⟩ := hpre
  apply (quiet_others h r hr hq y hy hne).2
  apply userPath_start q ([j]++rest)
  rw [← List.append_assoc, hrest]
  exact userPath_upper hv

theorem quiet_permitted {need : Word} :
    Permitted s'.mem y v need ↔ Permitted s.mem y v need := by
  apply grants_iff
  intro q j hpre
  rcases on_fullPath hpre with ⟨hup,_⟩ | ⟨rfl,rfl⟩
  · rw [quiet_upper h r hr hq y hy hne v hv q j hup]
  · rw [(quiet_others h r hr hq y hy hne).2 _ _ (userPath_upper hv)]

end

theorem freeCount_decrement (q : Page) (pages : List Page) :
    freeCount (decrementReferenceCountOfPage q pages) = freeCount pages := by
  apply freeCount_map
  intro p
  split_ifs <;> rfl

variable {pages : List Page}

theorem used_not_unused (hf : FramesOk pages) (hp : pageOf pages a = some p)
    (hused : p.isFreePage = true) : ¬ Unused pages a := by
  intro hu
  obtain ⟨q,hq,hfree⟩ := pageOf_unused pages hf a hu
  rw [Option.some.inj (hq.symm.trans hp), hused] at hfree
  cases hfree

theorem used_frame (hf : FramesOk pages) (hp : pageOf pages a = some p)
    (hused : p.isFreePage = true) {b : Word} (hb : Unused pages b) : frameOf a ≠ frameOf b := by
  intro he
  have hmem : a ∈ addresses pages :=
    pageOf_address _ _ p hp ▸ List.mem_map_of_mem (pageOf_mem _ _ p hp)
  have hsame := unused_inj hf hmem (unused_address hb) he
  exact used_not_unused hf hp hused (hsame ▸ hb)

end PreemptiveOS.CopyFaults
