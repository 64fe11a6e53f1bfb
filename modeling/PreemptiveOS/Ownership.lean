import PreemptiveOS.PageFlags
import PreemptiveOS.FreshFrames

/-!
# Ownership of page tables

Every process root is a copy of the kernel root and shares the kernel's
tables below entry 511. Ownership is a domain: each process root owns its
paths outside entry 511, and each kernel table is a root of its own with no
path below it, so that nothing is assumed about how the kernel's tables hang
together. Mapping a page, changing flags, working on fresh frames and
creating a root all keep this, and each says what it does to the last-level
entries of the process roots.
-/

set_option autoImplicit false

namespace PreemptiveOS.Ownership
open ByteMemory PhysMmgr TableForest VirtMmgr PageTree PageFlags FreshFrames

def UserPath (p : List (Fin 512)) : Prop := p.length ≤ 3 ∧ p.head? ≠ some 511

def owned (kernel : ℕ → Prop) (roots : List Word) : Domain := fun r p =>
  (∃ y ∈ roots, r = frameOf y ∧ UserPath p) ∨ kernel r ∧ p = []

def User (v : Word) : Prop := getIndexOfPml4 v ≠ 511

instance (v : Word) : Decidable (User v) := inferInstanceAs (Decidable (_ ≠ _))

variable {v : Word}

theorem user_page {w : Word} (h : pageNumber v = pageNumber w) (hw : User w) : User v := by
  have hu := ((same_page_iff v w).mpr h).1
  simp only [upperPath, List.cons.injEq] at hu
  rwa [User, hu.1]

structure Coherent (kernel : ℕ → Prop) (margin : ℕ) (roots : List Word) (s : Machine) : Prop where
  forest : Forest (owned kernel roots) margin s
  tables : ∀ u, Reached child (tables s.mem) (treeAt s.pml4) u → kernel u
  apart : ∀ y ∈ roots, ¬ kernel (frameOf y)
  window : ∀ y ∈ roots, Aligned y ∧ y.toNat < 2^31
  aligned : Aligned s.pml4
  shared : ∀ y ∈ roots, VirtMmgr.tables s.mem (frameOf y) 511 =
    VirtMmgr.tables s.mem (frameOf s.pml4) 511
  empty : ∀ j, j ≠ 511 → VirtMmgr.tables s.mem (frameOf s.pml4) j = 0

theorem userPath_start (p q : List (Fin 512)) (h : UserPath (p++q)) : UserPath p := by
  obtain ⟨hl,hh⟩ := h
  rw [List.length_append] at hl
  constructor
  · omega
  · cases p with
    | nil => simp
    | cons i p => simpa using hh

theorem owned_closed (kernel : ℕ → Prop) (roots : List Word) :
    PrefixClosed (owned kernel roots) := by
  rintro r p q (⟨y,hy,hr,hu⟩ | ⟨hk,hp⟩)
  · exact Or.inl ⟨y,hy,hr,userPath_start p q hu⟩
  · exact Or.inr ⟨hk,(List.append_eq_nil_iff.mp hp).1⟩

theorem userPath_upper (h : User v) : UserPath (upperPath v) := by
  refine ⟨le_rfl,?_⟩
  simpa [upperPath, User] using h

theorem owned_upper (kernel : ℕ → Prop) (roots : List Word) (y : Word) (hy : y ∈ roots) (v : Word)
    (hv : User v) : owned kernel roots (frameOf y) (upperPath v) :=
  Or.inl ⟨y,hy,rfl,userPath_upper hv⟩

variable {roots : List Word} {y : Word}

theorem owned_root (kernel : ℕ → Prop) (hy : y ∈ roots) :
    owned kernel roots (frameOf y) [] := Or.inl ⟨y,hy,rfl,by simp [UserPath]⟩

theorem owned_long (kernel : ℕ → Prop) (roots : List Word) (r : ℕ) (v : Word) (j : Fin 512) :
    ¬ owned kernel roots r (upperPath v++[j]) := by
  rintro (⟨y,_,_,hu⟩ | ⟨_,hp⟩)
  · have := hu.1
    simp [upperPath] at this
  · simp at hp

theorem leaf_shared {m : Mem} {k : Word}
    (h : VirtMmgr.tables m (frameOf y) 511 = VirtMmgr.tables m (frameOf k) 511)
    (hv : getIndexOfPml4 v = 511) : leaf m y v = leaf m k v := by
  simp only [leaf, entryAt, upperPath, descend, hv, h]

variable {s : Machine} {margin : ℕ} {kernel : ℕ → Prop}

theorem coherent_subset {roots' : List Word} (h : Coherent kernel margin roots s)
    (hsub : ∀ y ∈ roots', y ∈ roots) : Coherent kernel margin roots' s := by
  have hdom : ∀ r p, owned kernel roots' r p → owned kernel roots r p := by
    rintro r p (⟨y,hy,hr,hu⟩ | hk)
    · exact Or.inl ⟨y,hsub y hy,hr,hu⟩
    · exact Or.inr hk
  constructor
  case forest =>
    constructor
    · exact fun r p r' p' t hp hp' =>
        h.forest.separate r p r' p' t (hdom r p hp) (hdom r' p' hp')
    · exact h.forest.frames
    · rintro a ha d hd ⟨r,p,hp,ht⟩
      exact h.forest.outside a ha d hd ⟨r,p,hdom r p hp,ht⟩
  case tables => exact h.tables
  case apart => exact fun y hy => h.apart y (hsub y hy)
  case window => exact fun y hy => h.window y (hsub y hy)
  case aligned => exact h.aligned
  case shared => exact fun y hy => h.shared y (hsub y hy)
  case empty => exact h.empty

structure Quiet (kernel : ℕ → Prop) (margin : ℕ) (roots : List Word) (s : Machine)
    (touched : ℕ → Prop) (s' : Machine) : Prop where
  forest : Forest (owned kernel roots) margin s'
  root : s'.pml4 = s.pml4
  apart : ∀ u, touched u → ¬ kernel u
  others : ∀ q p j, owned kernel roots q p → ¬ touched q →
    entryAt child (tables s'.mem) q p j = entryAt child (tables s.mem) q p j
  shared : ∀ y ∈ roots, tables s'.mem (frameOf y) 511 = tables s.mem (frameOf y) 511

variable {touched : ℕ → Prop}

theorem quiet_trans {s₁ s₂ : Machine} (h : Quiet kernel margin roots s touched s₁)
    (h' : Quiet kernel margin roots s₁ touched s₂) : Quiet kernel margin roots s touched s₂ := by
  constructor
  case forest => exact h'.forest
  case root => exact h'.root.trans h.root
  case apart => exact h.apart
  case others => exact fun q p j hp hq => (h'.others q p j hp hq).trans (h.others q p j hp hq)
  case shared => exact fun y hy => (h'.shared y hy).trans (h.shared y hy)

variable {s' : Machine}

theorem quiet_weaken (h : Quiet kernel margin roots s (fun _ => False) s')
    (hapart : ∀ u, touched u → ¬ kernel u) : Quiet kernel margin roots s touched s' :=
  ⟨h.forest,h.root,hapart,fun q p j hp _ => h.others q p j hp id,h.shared⟩

section
variable {kernel : ℕ → Prop} {margin : ℕ} {roots : List Word} {s : Machine}
  (h : Coherent kernel margin roots s) {touched : ℕ → Prop}
  {s' : Machine} (hq : Quiet kernel margin roots s touched s')

include h in
theorem coherent_walk (y : Word) (hy : y ∈ roots) (v : Word) (hv : getIndexOfPml4 v = 511) :
    walkPml4 s.mem y v = walkPml4 s.mem s.pml4 v := by
  rw [walk_eq _ v (h.window y hy).1, walk_eq _ v h.aligned,
    leaf_shared (h.shared y hy) hv]

include hq in
theorem quiet_kernel {u : ℕ} (hu : kernel u) (j : Fin 512) :
    tables s'.mem u j = tables s.mem u j :=
  Option.some.inj (hq.others u [] j (Or.inr ⟨hu,rfl⟩) (fun ht => hq.apart u ht hu))

include h hq

theorem quiet_kernel_root (j : Fin 512) :
    tables s'.mem (frameOf s.pml4) j = tables s.mem (frameOf s.pml4) j :=
  quiet_kernel hq (h.tables _ ⟨_,[],⟨rfl,by simp⟩,rfl⟩) j

theorem quiet_kernel_leaf (v : Word) : leaf s'.mem s.pml4 v = leaf s.mem s.pml4 v := by
  apply entryAt_agree child _ _ (treeAt s.pml4) (treeAt_closed _) _ _ _ ⟨rfl,le_rfl⟩
  intro u hu j
  exact quiet_kernel hq (h.tables u hu) j

theorem quiet_coherent : Coherent kernel margin roots s' := by
  constructor
  case forest => exact hq.forest
  case tables =>
    intro u hu
    rw [hq.root] at hu
    apply h.tables u
    rw [← reached_of_same child _ _ (treeAt s.pml4)
      (descend_agree child _ _ _ (treeAt_closed _)
        (fun u hu j => quiet_kernel hq (h.tables u hu) j))]
    exact hu
  case apart => exact h.apart
  case window => exact h.window
  case aligned =>
    rw [hq.root]
    exact h.aligned
  case shared =>
    intro y hy
    rw [hq.root, hq.shared y hy, quiet_kernel_root h hq, h.shared y hy]
  case empty =>
    intro j hj
    rw [hq.root, quiet_kernel_root h hq, h.empty j hj]

theorem quiet_leaf (y : Word) (hy : y = s.pml4 ∨ y ∈ roots ∧ ¬ touched (frameOf y)) (v : Word) :
    leaf s'.mem y v = leaf s.mem y v := by
  rcases hy with rfl | ⟨hy,hne⟩
  · exact quiet_kernel_leaf h hq v
  · by_cases hv : getIndexOfPml4 v = 511
    · have hs : tables s'.mem (frameOf y) 511 = tables s'.mem (frameOf s.pml4) 511 := by
        rw [hq.shared y hy, quiet_kernel_root h hq, h.shared y hy]
      rw [leaf_shared hs hv, leaf_shared (h.shared y hy) hv,
        quiet_kernel_leaf h hq v]
    · exact hq.others _ _ _ (owned_upper kernel roots y hy v hv) hne

theorem quiet_walk (y : Word) (hy : y = s.pml4 ∨ y ∈ roots ∧ ¬ touched (frameOf y)) (v : Word) :
    walkPml4 s'.mem y v = walkPml4 s.mem y v := by
  have hal : Aligned y := by
    rcases hy with rfl | ⟨hy,_⟩
    · exact h.aligned
    · exact (h.window y hy).1
  rw [walk_eq _ v hal, walk_eq _ v hal, quiet_leaf h hq y hy v]

end

variable {f : BitVec 32} {b : Bool} {clear : Mem → ℕ → Mem} {r : Word}

section
variable {kernel : ℕ → Prop} {margin : ℕ} {roots : List Word} {s : Machine}
  (h : Coherent kernel margin roots s)
include h

theorem root_inj (hy : y ∈ roots) (hr : r ∈ roots) (he : frameOf y = frameOf r) : y = r :=
  frameOf_inj (h.window y hy).1 (h.window r hr).1 (h.window y hy).2 (h.window r hr).2 he

theorem quiet_of_root (hr : r ∈ roots) (hforest : Forest (owned kernel roots) margin s')
    (hroot : s'.pml4 = s.pml4)
    (hothers : ∀ q p j, owned kernel roots q p → q ≠ frameOf r →
      entryAt child (tables s'.mem) q p j = entryAt child (tables s.mem) q p j)
    (hown : tables s'.mem (frameOf r) 511 = tables s.mem (frameOf r) 511) :
    Quiet kernel margin roots s (fun u => u = frameOf r) s' := by
  refine ⟨hforest,hroot,?_,hothers,?_⟩
  · rintro u rfl
    exact h.apart r hr
  · intro y hy
    by_cases he : frameOf y = frameOf r
    · rw [he, hown]
    · exact Option.some.inj (hothers _ [] 511 (owned_root kernel hy) he)

theorem map_owned (hclear : Clears clear margin) (p : Word) (hr : r ∈ roots) (hv : User v)
    (hva : Aligned v) (hpa : Aligned p) (hpr : f.setWidth 64 &&& present = present)
    (hm : f.setWidth 64 &&& addressMask = 0)
    (hok : (mapVirtualAddressToPhysicalAddress clear s v p f r b).shortages = s.shortages) :
    Mapped (owned kernel roots) margin b v p (f.setWidth 64) r s
      (mapVirtualAddressToPhysicalAddress clear s v p f r b) :=
  map_mapped (owned_closed kernel roots) hclear h.forest (h.window r hr).1 hva hpa
    (owned_upper kernel roots r hr v hv) (owned_long kernel roots _ v) hpr hm hok

theorem map_quiet (hclear : Clears clear margin) {p : Word} (hr : r ∈ roots) (hv : User v)
    (hpr : f.setWidth 64 &&& present = present) (hm : f.setWidth 64 &&& addressMask = 0)
    (hok : (mapVirtualAddressToPhysicalAddress clear s v p f r b).shortages = s.shortages) :
    Quiet kernel margin roots s (fun u => u = frameOf r)
      (mapVirtualAddressToPhysicalAddress clear s v p f r b) := by
  by_cases hal : Aligned v ∧ Aligned p
  · have hmap := map_owned h hclear p hr hv hal.1 hal.2 hpr hm hok
    apply quiet_of_root h hr hmap.forest (map_pml4) hmap.others
    have hk := hmap.kept [] 511 (owned_root kernel hr) (by
      intro hpre
      have : 511 = getIndexOfPml4 v := by
        cases b <;> simpa [touchedPath, upperPath] using hpre
      exact hv this.symm)
    rcases hk with hk | ⟨hk,_⟩
    · exact Option.some.inj hk
    · simp [entryAt, descend] at hk
  · rw [map_unaligned hal]
    exact quiet_of_root h hr h.forest rfl (fun _ _ _ _ _ => rfl) rfl

theorem changeFlags_quiet (f : Word) (hr : r ∈ roots) (hv : User v) (hm : f &&& addressMask = 0) :
    Quiet kernel margin roots s (fun u => u = frameOf r)
      (changeFlagsInParentPageTables s v r f) := by
  obtain ⟨hforest,hent⟩ := changeFlags_entries (owned_closed kernel roots) h.forest v r f hm
    (h.window r hr).1 (owned_upper kernel roots r hr v hv) (owned_long kernel roots _ v)
  apply quiet_of_root h hr hforest (changeFlags_rest _ _ _ _).2.1
  · intro q p j hp hne
    exact (hent q p j hp).trans (if_neg (fun h => hne h.1))
  · have he := hent (frameOf r) [] 511 (owned_root kernel hr)
    rw [if_neg] at he
    · exact Option.some.inj he
    · rintro ⟨-,hpre⟩
      have : 511 = getIndexOfPml4 v := by simpa [fullPath, upperPath] using hpre
      exact hv this.symm

theorem fresh_quiet (hf : Fresh margin s s') : Quiet kernel margin roots s (fun _ => False) s' := by
  obtain ⟨hforest,_,hent⟩ := fresh_forest (owned_closed kernel roots) h.forest hf
  refine ⟨hforest,hf.root,fun _ hfalse => absurd hfalse id,fun q p j hp _ => hent q p j hp,?_⟩
  intro y hy
  exact Option.some.inj (hent (frameOf y) [] 511 (owned_root kernel hy))

theorem kernel_used (b : Word) (hb : Unused s.pages b) : frameOf s.pml4 ≠ frameOf b := by
  intro he
  apply h.forest.outside b hb 0 (Nat.zero_le _)
  refine ⟨_,[],Or.inr ⟨?_,rfl⟩,rfl⟩
  rw [Nat.add_zero, ← he]
  exact h.tables _ ⟨_,[],⟨rfl,by simp⟩,rfl⟩

end

theorem owned_cons {n : Word} (r : ℕ) (p : List (Fin 512)) (hd : owned kernel (n::roots) r p) :
    owned kernel roots r p ∨ r = frameOf n := by
  rcases hd with ⟨y,hy,hr,hu⟩ | hk
  · rcases List.mem_cons.mp hy with rfl | hy
    · exact Or.inr hr
    · exact Or.inl (Or.inl ⟨y,hy,hr,hu⟩)
  · exact Or.inl (Or.inr hk)

section
variable {kernel : ℕ → Prop} {margin : ℕ} {roots : List Word} {s : Machine}
  (h : Coherent kernel margin roots s)
  (hok : (copyPageTables s s.pml4 4).1.shortages = s.shortages)
include h hok

theorem spawn_fresh : Fresh margin s (copyPageTables s s.pml4 4).1 :=
  fresh_mono (Nat.zero_le _)
    (copyPageTables_fresh s s.pml4 h.forest.frames h.aligned (kernel_used h) hok).1

theorem spawn_quiet :
    Quiet kernel margin roots s (fun _ => False) (copyPageTables s s.pml4 4).1 :=
  fresh_quiet h (spawn_fresh h hok)

theorem spawn_root : Unused s.pages (copyPageTables s s.pml4 4).2 ∧
    ¬ Unused (copyPageTables s s.pml4 4).1.pages (copyPageTables s s.pml4 4).2 ∧
    ∀ i, i ≠ 511 → child (tables (copyPageTables s s.pml4 4).1.mem
      (frameOf (copyPageTables s s.pml4 4).2) i) = none := by
  obtain ⟨_,hun,habove,hcopy⟩ := copyPageTables_fresh s s.pml4 h.forest.frames h.aligned
    (kernel_used h) hok
  refine ⟨hun,fun hu => absurd (habove _ hu) (lt_irrefl _),?_⟩
  intro i hi
  rw [hcopy i, h.empty i hi]
  exact child_absent (by decide)

/-- A new root brings its own frame into the forest and nothing else: below
it there is nothing outside the shared entry. -/
theorem spawn_coherent :
    Coherent kernel margin ((copyPageTables s s.pml4 4).2::roots) (copyPageTables s s.pml4 4).1 ∧
    (copyPageTables s s.pml4 4).2 ∉ roots ∧
    ∀ w, User w → leaf (copyPageTables s s.pml4 4).1.mem (copyPageTables s s.pml4 4).2 w = none := by
  have hold := quiet_coherent h (spawn_quiet h hok)
  have hkern := quiet_kernel_root h (spawn_quiet h hok)
  obtain ⟨_,_,hnone⟩ := spawn_root h hok
  obtain ⟨hfresh,hun,habove,hcopy⟩ := copyPageTables_fresh s s.pml4
    h.forest.frames h.aligned (kernel_used h) hok
  obtain ⟨_,hreach,_⟩ := fresh_forest (owned_closed kernel roots) h.forest (spawn_fresh h hok)
  generalize (copyPageTables s s.pml4 4).1 = s' at *
  generalize (copyPageTables s s.pml4 4).2 = n at *
  have hroot : s'.pml4 = s.pml4 := hfresh.root
  have hwin := unused_window _ h.forest.frames n hun
  have hnr : ¬ Reached child (tables s'.mem) (owned kernel roots) (frameOf n) := by
    rw [hreach]
    simpa using h.forest.outside n hun 0 (Nat.zero_le _)
  have hnk : ¬ kernel (frameOf n) := fun hk => hnr ⟨_,[],Or.inr ⟨hk,rfl⟩,rfl⟩
  have hbare : ∀ p t, owned kernel (n::roots) (frameOf n) p →
      descend child (tables s'.mem) (frameOf n) p = some t → p = [] := by
    intro p t hd ht
    rcases hd with ⟨y,_,_,hu⟩ | ⟨hk,_⟩
    · cases p with
      | nil => rfl
      | cons i p =>
        rw [descend, hnone i (by simpa using hu.2)] at ht
        simp at ht
    · exact absurd hk hnk
  refine ⟨?_,?_,?_⟩
  · constructor
    case forest =>
      constructor
      · exact separate_root child _ _ _ (frameOf n) (owned_cons) hbare hnr
          hold.forest.separate
      · exact hold.forest.frames
      · intro b hb d hd hr
        rcases reached_root child _ _ _ (frameOf n) (owned_cons) hbare hr with
          he | hr
        · have hbw := unused_window _ hold.forest.frames b hb
          have hlt := frameOf_lt hwin.1 hbw.1 hbw.2 (habove b hb)
          omega
        · exact hold.forest.outside b hb d hd hr
    case tables => exact hold.tables
    case apart =>
      intro y hy
      rcases List.mem_cons.mp hy with rfl | hy
      · exact hnk
      · exact h.apart y hy
    case window =>
      intro y hy
      rcases List.mem_cons.mp hy with rfl | hy
      · exact hwin
      · exact h.window y hy
    case aligned => exact hold.aligned
    case shared =>
      intro y hy
      rcases List.mem_cons.mp hy with rfl | hy
      · rw [hroot, hcopy 511]
        exact (hkern 511).symm
      · exact hold.shared y hy
    case empty => exact hold.empty
  · intro hmem
    exact hnr ⟨frameOf n,[],owned_root kernel hmem,rfl⟩
  · intro w hw
    rw [leaf, entryAt, upperPath, descend, hnone _ hw]
    rfl

end

def pte (m : Mem) (cr3 v : Word) : Word := (leaf m cr3 v).getD 0

section
variable {kernel : ℕ → Prop} {margin : ℕ} {roots : List Word} {s : Machine}
  (h : Coherent kernel margin roots s)
include h

theorem fresh_leaf (s' : Machine) (hf : Fresh margin s s') :
    Coherent kernel margin roots s' ∧
    ∀ y ∈ roots, ∀ w, leaf s'.mem y w = leaf s.mem y w := by
  have hq := fresh_quiet h hf
  exact ⟨quiet_coherent h hq,fun y hy w => quiet_leaf h hq y (Or.inr ⟨hy,id⟩) w⟩

theorem fresh_kernel (s' : Machine) (hf : Fresh margin s s') (u : ℕ) (hu : kernel u)
    (j : Fin 512) : tables s'.mem u j = tables s.mem u j :=
  quiet_kernel (fresh_quiet h hf) hu j

theorem changeFlags_leaves (f : Word) (hr : r ∈ roots) (hv : User v) (hm : f &&& addressMask = 0) :
    Coherent kernel margin roots (changeFlagsInParentPageTables s v r f) ∧
    ∀ y ∈ roots, ∀ w, User w → leaf (changeFlagsInParentPageTables s v r f).mem y w =
      if y = r ∧ pageNumber w = pageNumber v then (leaf s.mem y w).map (fun e => e ||| f)
      else leaf s.mem y w := by
  have hq := changeFlags_quiet h f hr hv hm
  refine ⟨quiet_coherent h hq,?_⟩
  intro y hy w hw
  split_ifs with hpage
  · obtain ⟨rfl,hpage⟩ := hpage
    obtain ⟨hu,hl⟩ := (same_page_iff w v).mpr hpage
    have he := changeFlags_leaf (owned_closed kernel roots) h.forest v y f hm (h.window y hy).1
      (owned_upper kernel roots y hy v hv) (owned_long kernel roots _ v)
    simpa only [leaf, hu, hl] using he
  · by_cases hyr : y = r
    · have hent := (changeFlags_entries (owned_closed kernel roots) h.forest v r f hm
        (h.window r hr).1 (owned_upper kernel roots r hr v hv) (owned_long kernel roots _ v)).2
        (frameOf y) (upperPath w) (getIndexOfPt w) (owned_upper kernel roots y hy w hw)
      rw [if_neg] at hent
      · exact hent
      · rintro ⟨-,hpre⟩
        exact hpage ⟨hyr,touched_page false v w hpre⟩
    · exact quiet_leaf h hq y (Or.inr ⟨hy,fun he => hyr (root_inj h hy hr he)⟩) w

/-- What a mapping does to the last-level entries: other roots keep theirs
exactly, and under the mapped root only the entry of the page itself changes. -/
theorem map_leaves (hclear : Clears clear margin) (v p : Word) (f : BitVec 32) (hr : r ∈ roots)
    (hv : User v) (hpr : f.setWidth 64 &&& present = present)
    (hm : f.setWidth 64 &&& addressMask = 0)
    (hok : (mapVirtualAddressToPhysicalAddress clear s v p f r false).shortages = s.shortages) :
    let s' := mapVirtualAddressToPhysicalAddress clear s v p f r false
    Coherent kernel margin roots s' ∧
    (∀ y ∈ roots, y ≠ r → ∀ w, leaf s'.mem y w = leaf s.mem y w) ∧
    ∀ w, User w → pte s'.mem r w =
      if pageNumber w = pageNumber v ∧ Aligned v ∧ Aligned p then
        retarget (pte s.mem r w) p (f.setWidth 64)
      else pte s.mem r w := by
  have hq := map_quiet h hclear hr hv hpr hm hok
  refine ⟨quiet_coherent h hq,?_,?_⟩
  · intro y hy hne w
    exact quiet_leaf h hq y (Or.inr ⟨hy,fun he => hne (root_inj h hy hr he)⟩) w
  · intro w hw
    by_cases hal : Aligned v ∧ Aligned p
    · have hmap := map_owned h hclear p hr hv hal.1 hal.2 hpr hm hok
      by_cases hpage : pageNumber w = pageNumber v
      · obtain ⟨hu,hl⟩ := (same_page_iff w v).mpr hpage
        have he := hmap.leaf rfl
        rw [if_pos ⟨hpage,hal⟩]
        simp only [pte, leaf, hu, hl] at he ⊢
        rw [he]
        rfl
      · rw [if_neg (fun hc => hpage hc.1)]
        exact kept_getD (hmap.kept _ _ (owned_upper kernel roots r hr w hw)
          (fun hpre => hpage (touched_page false v w hpre)))
    · rw [if_neg (fun hc => hal hc.2), map_unaligned hal]

end

end PreemptiveOS.Ownership
