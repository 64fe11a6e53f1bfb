import PreemptiveOS.FrameGrowth

/-!
# The frames of new tables

Where a fork lacks no frame, the tables of the child outside the entry it
shares with the kernel are in frames that were unused before: its root is, and
every table that a mapping links below it is one that the mapping has just
taken. Flags that are added and work in other frames move no table.
-/

set_option autoImplicit false

namespace PreemptiveOS.TableFrames
open ByteMemory PhysMmgr VirtMmgr TableForest PageRecords PageTree FreshFrames Ownership Vmas Fork
open FrameGrowth

section
variable {s s₁ s₂ : Machine} {f : Word} (hf : FramesOk s.pages) (hg : Grows s s₁)
include hf hg

theorem taken_before (h : TakenFrame s₁ s₂ f) : TakenFrame s s₂ f := ⟨hg.unused hf f h.1,h.2⟩

theorem taken_after (hg' : Grows s₁ s₂) (h : TakenFrame s s₁ f) : TakenFrame s s₂ f :=
  ⟨h.1,fun hu => h.2 (hg'.unused (grows_frames hg hf) f hu)⟩

end

def Tabled (dom : Domain) (s s' : Machine) : Prop :=
  ∀ r p, dom r p → ∀ u, descend child (tables s'.mem) r p = some u →
    descend child (tables s.mem) r p = some u ∨ ∃ f, TakenFrame s s' f ∧ u = frameOf f

variable {dom : Domain} {s : Machine}

theorem tabled_trans {s₁ s₂ : Machine} (hf : FramesOk s.pages) (hg : Grows s s₁)
    (hg' : Grows s₁ s₂) (h : Tabled dom s s₁) (h' : Tabled dom s₁ s₂) : Tabled dom s s₂ := by
  intro r p hd u hu
  rcases h' r p hd u hu with hu | ⟨f,ht,rfl⟩
  · rcases h r p hd u hu with hu | ⟨f,ht,rfl⟩
    · exact Or.inl hu
    · exact Or.inr ⟨f,taken_after hf hg hg' ht,rfl⟩
  · exact Or.inr ⟨f,taken_before hf hg ht,rfl⟩

variable {s' : Machine}

theorem tabled_same
    (h : ∀ r q i, dom r (q++[i]) →
      entryAt child (tables s'.mem) r q i = entryAt child (tables s.mem) r q i) :
    Tabled dom s s' := by
  intro r p hd u hu
  rw [descend_entries child (by
    rintro q i rfl
    exact h r q i hd)] at hu
  exact Or.inl hu

section
variable {dom : Domain} (hc : PrefixClosed dom) {clear : Mem → ℕ → Mem} {margin : ℕ}
  (hclear : Clears clear margin) {s : Machine} (hs : Forest dom margin s)
include hc hclear hs

theorem tabled_ensure {r : ℕ} (q : List (Fin 512)) (i : Fin 512) (t flags : Word)
    (hq : dom r (q++[i])) (ht : Aligned t) (hr : descend child (tables s.mem) r q = some (frameOf t))
    (hp : flags &&& present = present) (hm : flags &&& addressMask = 0)
    (hok : (ensureTable clear s t i flags).shortages = s.shortages) :
    Tabled dom s (ensureTable clear s t i flags) := by
  intro r' p' hd' u hu
  by_cases h : entry s.mem t i &&& present = present
  · rw [ensure_present clear flags h] at hu
    exact Or.inl hu
  · have ha := (ensure_shortages clear s t i flags).2 hok h
    obtain ⟨σ,hσ,hd,_,hzero,hnone,hnr,hchild⟩ := ensure_store hc hclear hs hq ht hr hp hm h ha
    have hsep : Separate child σ dom := separate_of_same child hd hs.separate
    have hrt := (hd r q (hc r q [i] hq)).trans hr
    have hempty : ∀ j, child (σ (frameOf (alloc s).2) j) = none := by
      intro j
      rw [hzero j]
      exact child_absent (by decide)
    rw [hσ, descend_link child σ dom hc hsep r q _ _ i _ hq hrt hnone hchild hnr hempty r' p' hd',
      hd r' p' hd'] at hu
    split_ifs at hu
    · refine Or.inr ⟨(alloc s).2,⟨alloc_unused s.pages ha,?_⟩,(Option.some.inj hu).symm⟩
      rw [ensure_pages clear flags h]
      exact alloc_taken hs.frames ha
    · exact Or.inl hu

theorem tabled_map {v p cr3 : Word} {flags : BitVec 32} (hcr3 : Aligned cr3) (hv : Aligned v)
    (hp : Aligned p) (hd : dom (frameOf cr3) (upperPath v))
    (hlast : ∀ j, ¬ dom (frameOf cr3) (upperPath v++[j]))
    (hpr : flags.setWidth 64 &&& present = present)
    (hm : flags.setWidth 64 &&& addressMask = 0)
    (hok : (mapVirtualAddressToPhysicalAddress clear s v p flags cr3 false).shortages =
      s.shortages) :
    Tabled dom s (mapVirtualAddressToPhysicalAddress clear s v p flags cr3 false) := by
  obtain ⟨s₁,s₂,s₃,t₁,t₂,t₃,h,hmap⟩ := map_levels hc hclear hs hcr3 hv hp hd hpr hm hok
  obtain ⟨hm₁,hm₂,hm₃⟩ := h.made
  obtain ⟨hal₁,hal₂,hal₃⟩ := h.aligned
  obtain ⟨hok₁,hok₂,hok₃⟩ := h.shortages
  have hgrow : ∀ s t i f, Grows s (ensureTable clear s t i f) := fun s t i f =>
    grows_keeps (steady_ensureTable keeps_steady clear s t i f) (ensure_shortages clear s t i f).1
  have hg₁ : Grows s s₁ := hm₁ ▸ hgrow _ _ _ _
  have hg₂ : Grows s₁ s₂ := hm₂ ▸ hgrow _ _ _ _
  have hg₃ : Grows s₂ s₃ := hm₃ ▸ hgrow _ _ _ _
  have h₁ : Tabled dom s s₁ := hm₁ ▸ tabled_ensure hc hclear hs [] _ cr3 _
    (hc _ [_] [_,_] hd) hcr3 rfl hpr hm (hm₁ ▸ hok₁)
  have h₂ : Tabled dom s₁ s₂ := hm₂ ▸ tabled_ensure hc hclear h.first.forest [_] _ t₁ _
    (hc _ [_,_] [_] hd) hal₁ h.pdpt hpr hm (hm₂ ▸ hok₂)
  have h₃ : Tabled dom s₂ s₃ := hm₃ ▸ tabled_ensure hc hclear h.second.forest [_,_] _
    t₂ _ hd hal₂ h.pdt hpr hm (hm₃ ▸ hok₃)
  -- the last-level entry leads to no table of the domain
  have hleaf := (setLeaf_forest hc h.third.forest (frameOf cr3) (upperPath v) (getIndexOfPt v) t₃ p
    (flags.setWidth 64) hd (hlast _) hal₃ h.pt).2
  have h₄ : Tabled dom s₃ (setLeaf s₃ t₃ (getIndexOfPt v) p (flags.setWidth 64)) := by
    apply tabled_same
    intro r q j hj
    rw [hleaf r q j (hc r q [j] hj), if_neg]
    rintro ⟨rfl,rfl,rfl⟩
    exact hlast _ hj
  rw [hmap]
  have hg₄ : Grows s₃ (setLeaf s₃ t₃ (getIndexOfPt v) p (flags.setWidth 64)) := grows_same rfl rfl
  have h₁₂ := tabled_trans hs.frames hg₁ hg₂ h₁ h₂
  have h₁₃ := tabled_trans hs.frames (grows_trans hg₁ hg₂) hg₃ h₁₂ h₃
  have h₁₄ := tabled_trans hs.frames (grows_trans (grows_trans hg₁ hg₂) hg₃) hg₄ h₁₃ h₄
  exact h₁₄

end

def Homed (s₀ s : Machine) (c : Word) : Prop :=
  ∀ p, UserPath p → ∀ u, descend child (tables s.mem) (frameOf c) p = some u →
    ∃ f, TakenFrame s₀ s f ∧ u = frameOf f

variable {roots : List Word} {s₀ : Machine} {c : Word} {kernel : ℕ → Prop}

theorem homed_tabled (hf : FramesOk s₀.pages) (hg : Grows s₀ s) (hg' : Grows s s')
    (hc : c ∈ roots) (ht : Tabled (owned kernel roots) s s') (h : Homed s₀ s c) :
    Homed s₀ s' c := by
  intro p hp u hu
  rcases ht (frameOf c) p (Or.inl ⟨c,hc,rfl,hp⟩) u hu with hu | ⟨f,hf',rfl⟩
  · obtain ⟨f,hf',rfl⟩ := h p hp u hu
    exact ⟨f,taken_after hf hg hg' hf',rfl⟩
  · exact ⟨f,taken_before hf hg hf',rfl⟩

theorem homed_entries (hf : FramesOk s₀.pages) (hg : Grows s₀ s) (hg' : Grows s s')
    (hent : ∀ q j, UserPath q → entryAt child (tables s'.mem) (frameOf c) q j =
      entryAt child (tables s.mem) (frameOf c) q j) (h : Homed s₀ s c) : Homed s₀ s' c := by
  intro p hp u hu
  rw [descend_entries child (by
    rintro q i rfl
    exact hent q i (userPath_start q [i] hp))] at hu
  obtain ⟨f,hf',rfl⟩ := h p hp u hu
  exact ⟨f,taken_after hf hg hg' hf',rfl⟩

variable {i r : Word}

section
variable {kernel : ℕ → Prop} {roots : List Word} {s : Machine} (h : Coherent kernel 1 roots s)
include h

theorem homed_spawn (hok : (copyPageTables s s.pml4 4).1.shortages = s.shortages) :
    Homed s (copyPageTables s s.pml4 4).1 (copyPageTables s s.pml4 4).2 := by
  obtain ⟨hun,hused,hnone⟩ := spawn_root h hok
  generalize copyPageTables s s.pml4 4 = c at *
  intro p hp u hu
  cases p with
  | nil => exact ⟨c.2,⟨hun,hused⟩,(Option.some.inj hu).symm⟩
  | cons i p =>
    rw [descend, hnone i (by simpa using hp.2)] at hu
    cases hu

theorem homed_protect (hf : FramesOk s₀.pages) (hg : Grows s₀ s) (hr : r ∈ roots) (hc : c ∈ roots)
    (hcr : c ≠ r) (hi : User i) (hh : Homed s₀ s c) : Homed s₀ (protectPage r s i) c := by
  have hq := changeFlags_quiet h (shareFlags.setWidth 64) hr hi shareFlags_masked
  obtain ⟨hpages,_,hshort⟩ := PageFlags.changeFlags_rest s i r (shareFlags.setWidth 64)
  apply homed_entries hf hg (grows_same hpages hshort) _ hh
  intro q j hp
  exact hq.others (frameOf c) q j (Or.inl ⟨c,hc,rfl,hp⟩)
    (fun he => hcr (root_inj h hc hr he))

theorem homed_fresh (hf : FramesOk s₀.pages) (hg : Grows s₀ s) (hg' : Grows s s') (hc : c ∈ roots)
    (hw : Fresh 1 s s') (hh : Homed s₀ s c) : Homed s₀ s' c := by
  apply homed_entries hf hg hg' _ hh
  intro q j hp
  exact (fresh_quiet h hw).others (frameOf c) q j (Or.inl ⟨c,hc,rfl,hp⟩) id

theorem homed_share (hf : FramesOk s₀.pages) (hg : Grows s₀ s) (hc : c ∈ roots) (hi : User i)
    (hok : (sharePage r c s i).shortages = s.shortages) (hh : Homed s₀ s c) :
    Homed s₀ (sharePage r c s i) c := by
  rw [sharePage] at hok ⊢
  dsimp only at hok ⊢
  split_ifs at hok ⊢
  · exact hh
  · have hmapped := grows_map s i (walkPml4 s.mem r i) shareFlags c
    have hpages := grows_increment (walkPml4 s.mem r i)
      (mapVirtualAddressToPhysicalAddress clearTable s i (walkPml4 s.mem r i) shareFlags c false)
    have hmap : Homed s₀ (mapVirtualAddressToPhysicalAddress clearTable s i (walkPml4 s.mem r i)
        shareFlags c false) c := by
      by_cases hal : Aligned i ∧ Aligned (walkPml4 s.mem r i)
      · have htabled := tabled_map (owned_closed kernel roots) clears_memset h.forest
          (h.window c hc).1 hal.1 hal.2
          (owned_upper kernel roots c hc i hi) (owned_long kernel roots _ i) shareFlags_present
          shareFlags_masked hok
        exact homed_tabled hf hg hmapped hc htabled hh
      · rw [map_unaligned hal] at *
        exact hh
    exact homed_entries hf (grows_trans hg hmapped) hpages (fun _ _ _ => rfl) hmap

end

variable {is : List Word}

section
variable {kernel : ℕ → Prop} {roots : List Word} (s₀ : Machine) (hf : FramesOk s₀.pages)
  (r c : Word) (hr : r ∈ roots) (hc : c ∈ roots) (hcr : c ≠ r)
include hf hr hc hcr

theorem homed_protects (s : Machine) (h : Coherent kernel 1 roots s) (hg : Grows s₀ s)
    (hu : ∀ i ∈ is, User i) (hh : Homed s₀ s c) : Homed s₀ (is.foldl (protectPage r) s) c := by
  induction is generalizing s with
  | nil => exact hh
  | cons i is ih =>
    have hi := hu i (by simp)
    have h₁ := (changeFlags_leaves h (shareFlags.setWidth 64) hr hi shareFlags_masked).1
    have hstep := homed_protect h hf hg hr hc hcr hi hh
    obtain ⟨hpages,_,hshort⟩ := PageFlags.changeFlags_rest s i r (shareFlags.setWidth 64)
    exact ih _ h₁ (grows_trans hg (grows_same hpages hshort)) (fun j hj => hu j (by simp [hj])) hstep

omit hcr in
theorem homed_shares (s : Machine) (h : Coherent kernel 1 roots s) (hg : Grows s₀ s)
    (hu : ∀ i ∈ is, User i) (hok : (is.foldl (sharePage r c) s).shortages = s.shortages)
    (hh : Homed s₀ s c) : Homed s₀ (is.foldl (sharePage r c) s) c := by
  induction is generalizing s with
  | nil => exact hh
  | cons i is ih =>
    rw [List.foldl_cons] at hok ⊢
    have hi := hu i (by simp)
    have hstep := grows_shares r c [i] s
    obtain ⟨hok₁,hok₂⟩ := grows_supply hstep (grows_shares r c is (sharePage r c s i)) hok
    have h₁ := (share_leaf r hr c hc h hi hok₁).1
    exact ih _ h₁ (grows_trans hg hstep) (fun j hj => hu j (by simp [hj])) hok₂
      (homed_share h hf hg hc hi hok₁ hh)

end

theorem copyVm_homed (h : Coherent kernel 1 roots s) {vmas : List Vma} (hr : r ∈ roots)
    (hu : ∀ i ∈ allSteps vmas, User i) (hok : (copyVm s vmas r).1.shortages = s.shortages) :
    Homed s (copyVm s vmas r).1 (copyVm s vmas r).2 := by
  obtain ⟨hspawn,hshare⟩ := (copyVm_supply _ _ _).2 hok
  have hroot := grows_copyPageTables s
  have hhome := homed_spawn h hspawn
  obtain ⟨hco,hnew,_⟩ := spawn_coherent h hspawn
  have hprep := firstPass_prepared h hr hu hspawn
  rw [copyVm]
  dsimp only
  generalize copyPageTables s s.pml4 4 = c at *
  have hr' : r ∈ c.2::roots := List.mem_cons_of_mem _ hr
  have hcr : c.2 ≠ r := fun he => hnew (he ▸ hr)
  have hfirst := homed_protects s h.forest.frames r c.2 hr' (by simp) hcr c.1 hco hroot hu hhome
  have hpass : Grows c.1 ((allSteps vmas).foldl (protectPage r) c.1) :=
    grows_same (protect_pages r _ _) (protect_shortages r _)
  exact homed_shares s h.forest.frames r c.2 hr' (by simp) _ hprep.coherent
    (grows_trans hroot hpass) hu hshare hfirst

theorem doFork_homed (h : Coherent kernel 1 roots s) {parent : MmStruct} (hr : parent.cr3 ∈ roots)
    (hu : ∀ i ∈ allSteps parent.vma, User i) (hok : (doFork s parent).1.shortages = s.shortages) :
    Homed s (doFork s parent).1 (doFork s parent).2.cr3 := by
  have hw := work_forkCopies s parent.vma
  obtain ⟨hok₁,hok₂,hok₃⟩ := doFork_supply hok
  simp only [doFork]
  generalize dupMm (forkObjects s) parent.vma = d at *
  have hcopy := grows_copyVm d.1 parent.vma parent.cr3
  have ht := work_forkThread (copyVm d.1 parent.vma parent.cr3).1
  obtain ⟨h₁,_⟩ := fresh_leaf h d.1 (hw.fresh h.forest.frames hok₁)
  have hhome := copyVm_homed h₁ hr hu hok₂
  have hco := (copyVm_forked h₁ hr hu hok₂).coherent
  generalize copyVm d.1 parent.vma parent.cr3 = x at *
  have hlast := homed_fresh hco h₁.forest.frames hcopy (grows_work ht) (by simp)
    (ht.fresh hco.forest.frames hok₃) hhome
  intro p hp u hu'
  obtain ⟨f,hf,rfl⟩ := hlast p hp u hu'
  exact ⟨f,taken_before h.forest.frames (grows_work hw) hf,rfl⟩

end PreemptiveOS.TableFrames
