import PreemptiveOS.Supply
import PreemptiveOS.TableFrames

/-!
# The frames that a fork needs

How many frames a fork asks for can be read off before it. Each record and
each area takes one, the copy of the kernel's tables one for each of them, and
the child's tables one for each path that leads to a shared page. With that
many unused frames no request is refused, and with fewer one is.
-/

set_option autoImplicit false

namespace PreemptiveOS.ForkFrames
open ByteMemory PhysMmgr VirtMmgr TableForest PageTree FreshFrames Ownership Vmas KernelObjects
open Fork FrameGrowth Supply

def copiedTables (m : Mem) : ℕ → Word → ℕ
  | 0, _ => 1
  | d+1, t => 1+((List.finRange 512).map (fun i =>
      if entry m t i = 0 then 0 else copiedTables m d (tableOf m t i))).sum

def tablePaths (v : Word) : List (List (Fin 512)) :=
  [[getIndexOfPml4 v],[getIndexOfPml4 v,getIndexOfPdpt v],upperPath v]

def sharedSteps (m : Mem) (r : Word) (is : List Word) : List Word :=
  is.filter (fun i => decide (frameAt m r i ≠ 0 ∧ Aligned i))

def sharedPaths (m : Mem) (r : Word) (is : List Word) : Finset (List (Fin 512)) :=
  ((sharedSteps m r is).flatMap tablePaths).toFinset

def forkRecords (s : Machine) : Machine :=
  (zeroedObject (zeroedObject (object (zeroedObject s).1).1).1).1

structure Asks (n : ℕ) (s s' : Machine) : Prop where
  shortages : s.shortages ≤ s'.shortages
  enough : n ≤ freeCount s.pages →
    s'.shortages = s.shortages ∧ freeCount s'.pages = freeCount s.pages-n
  short : freeCount s.pages < n → s'.shortages ≠ s.shortages

variable {s s' : Machine}

theorem asks_same (hp : freeCount s'.pages = freeCount s.pages) (hsh : s'.shortages = s.shortages) :
    Asks 0 s s' := by
  constructor
  case shortages => exact hsh.ge
  case enough => exact fun _ => ⟨hsh,hp⟩
  case short => exact fun h => absurd h (Nat.not_lt_zero _)

variable {s₁ s₂ : Machine} {n : ℕ}

theorem asks_trans {m : ℕ} (h : Asks n s s₁) (hle : s₁.shortages ≤ s₂.shortages)
    (h' : s₁.shortages = s.shortages → Asks m s₁ s₂) : Asks (n+m) s s₂ := by
  have hle₁ := h.shortages
  constructor
  case shortages => exact hle₁.trans hle
  case enough =>
    intro hn
    obtain ⟨hsh,hcount⟩ := h.enough (by omega)
    obtain ⟨hsh',hcount'⟩ := (h' hsh).enough (by omega)
    exact ⟨hsh'.trans hsh,by omega⟩
  case short =>
    intro hn
    by_cases hfirst : freeCount s.pages < n
    · have hne := h.short hfirst
      omega
    · obtain ⟨hsh,hcount⟩ := h.enough (by omega)
      have hne := (h' hsh).short (by omega)
      omega

theorem asks_then_same (h : Asks n s s₁) (hp : freeCount s₂.pages = freeCount s₁.pages)
    (hsh : s₂.shortages = s₁.shortages) : Asks n s s₂ :=
  asks_trans h hsh.ge (fun _ => asks_same hp hsh)

theorem asks_iff (h : Asks n s s') : n ≤ freeCount s.pages ↔ s'.shortages = s.shortages := by
  constructor
  · exact fun hn => (h.enough hn).1
  · intro hsh
    by_contra hn
    exact h.short (by omega) hsh

theorem alloc_none (hf : FramesOk s.pages) (ha : (alloc s).2 = 0) : freeCount s.pages = 0 := by
  apply alloc_zero _ ha
  intro p hp h0
  have hlow := (hf.window p.physAddrOfPage (List.mem_map_of_mem hp)).1
  simp [h0] at hlow

theorem alloc_refused (h : freeCount s.pages = 0) : (alloc s).2 = 0 := by
  by_contra ha
  obtain ⟨p,hp,_,hfree⟩ := alloc_unused s.pages ha
  have hpos : 0 < freeCount s.pages := List.countP_pos_iff.mpr ⟨p,hp,by simp [hfree]⟩
  omega

section
variable {s : Machine} (hf : FramesOk s.pages)
include hf

theorem asks_alloc : Asks 1 s (alloc s).1 := by
  have hcount : freeCount (alloc s).1.pages = freeCount s.pages-1 := freeCount_allocated s.pages
  constructor
  case shortages => exact (alloc_shortages s).1
  case enough =>
    intro hn
    have ha : (alloc s).2 ≠ 0 := by
      intro h0
      have hnone := alloc_none hf h0
      omega
    exact ⟨if_neg ha,hcount⟩
  case short =>
    intro hn hsh
    exact (alloc_shortages s).2 hsh (alloc_refused (by omega))

theorem asks_object : Asks 1 s (object s).1 := asks_alloc hf

theorem asks_zeroedObject : Asks 1 s (zeroedObject s).1 :=
  asks_then_same (asks_object hf) rfl rfl

theorem asks_forkRecords : Asks 4 s (forkRecords s) := by
  have hf₁ := grows_frames (grows_zeroedObject s) hf
  have hf₂ := grows_frames (grows_object (zeroedObject s).1) hf₁
  have hf₃ := grows_frames (grows_zeroedObject _) hf₂
  have h₂ := asks_trans (asks_zeroedObject hf) (grows_object _).shortages (fun _ => asks_object hf₁)
  have h₃ := asks_trans h₂ (grows_zeroedObject _).shortages (fun _ => asks_zeroedObject hf₂)
  exact asks_trans h₃ (grows_zeroedObject _).shortages (fun _ => asks_zeroedObject hf₃)

theorem forkRecords_frames : FramesOk (forkRecords s).pages := by
  have h := grows_trans (grows_zeroedObject s) (grows_object (zeroedObject s).1)
  exact grows_frames (grows_trans h (grows_trans (grows_zeroedObject _) (grows_zeroedObject _))) hf

theorem asks_forkObjects : Asks 5 s (forkObjects s) :=
  asks_trans (asks_forkRecords hf) (grows_object _).shortages
    (fun _ => asks_object (forkRecords_frames hf))

theorem asks_forkThread : Asks 2 s (forkThread s) :=
  asks_trans (asks_zeroedObject hf) (grows_object _).shortages
    (fun _ => asks_object (grows_frames (grows_zeroedObject s) hf))

theorem asks_dupMm (vmas : List Vma) : Asks vmas.length s (dupMm s vmas).1 := by
  induction vmas generalizing s with
  | nil => exact asks_same rfl rfl
  | cons vma vmas ih =>
    rw [List.length_cons, Nat.add_comm]
    exact asks_trans (asks_object hf) (work_dupMm vmas _).shortages
      (fun _ => ih (grows_frames (grows_object s) hf))

end

section
variable {next : Machine → Word → Machine} (hnext : Copies next) {source n : Word} {s₀ : Machine}
  (hf : FramesOk s₀.pages) (hal : Aligned source)
  (hsrc : ∀ b, Unused s₀.pages b → frameOf source ≠ frameOf b) {count : Fin 512 → ℕ}
  (hcount : ∀ s i, Fresh 0 s₀ s → entry s₀.mem source i ≠ 0 →
    Asks (count i) s (next s (tableOf s₀.mem source i)))

include hal hsrc in
theorem source_entry (h : Fresh 0 s₀ s) (i : Fin 512) :
    entry s.mem source i = entry s₀.mem source i := by
  rw [entry_eq _ _ hal, entry_eq _ _ hal]
  apply h.same
  intro b hb
  right
  intro d hd
  obtain rfl : d = 0 := by omega
  exact hsrc b hb

include hf hal hsrc hcount

theorem asks_copyEntry (hu : Unused s₀.pages n) (i : Fin 512) (h : Fresh 0 s₀ s)
    (ht : ¬ Unused s.pages n) :
    Asks (if entry s₀.mem source i = 0 then 0 else count i) s (copyEntry next source n i s) := by
  have hn : Aligned n := (unused_window s₀.pages hf n hu).1
  have h₁ := fresh_setEntry h hn hu ht i (entry s.mem source i)
  have hentry := source_entry hal hsrc h₁ i
  have htable : tableOf (setEntry s.mem n i (entry s.mem source i)) source i =
      tableOf s₀.mem source i := congrArg (fun e => e &&& addressMask) hentry
  rw [copyEntry]
  dsimp only at hentry ⊢
  rw [hentry, htable]
  split_ifs with hz
  · exact asks_same rfl rfl
  · have hrest := hcount _ i h₁ hz
    have hset : Asks 0 s { s with mem := setEntry s.mem n i (entry s.mem source i) } :=
      asks_same rfl rfl
    have hboth := asks_trans hset hrest.shortages (fun _ => hrest)
    rwa [Nat.zero_add] at hboth

include hnext

theorem asks_copyEntries (hu : Unused s₀.pages n) (is : List (Fin 512)) (s : Machine)
    (h : Fresh 0 s₀ s) (ht : ¬ Unused s.pages n) :
    Asks ((is.map (fun i => if entry s₀.mem source i = 0 then 0 else count i)).sum) s
      (copyEntries next source n is s) := by
  induction is generalizing s with
  | nil => exact asks_same rfl rfl
  | cons i is ih =>
    rw [List.map_cons, List.sum_cons]
    apply asks_trans (asks_copyEntry hf hal hsrc hcount hu i h ht)
      (copyEntries_shortages next hnext source n is (copyEntry next source n i s))
    intro hok
    obtain ⟨h₁,ht₁,_⟩ := copyEntry_fresh next hnext source n s₀ hf hu i s h ht hok
    exact ih _ h₁ ht₁

theorem asks_copyLevel :
    Asks (1+((List.finRange 512).map
      (fun i => if entry s₀.mem source i = 0 then 0 else count i)).sum) s₀
      (copyLevel next s₀ source).1 := by
  rw [copyLevel]
  generalize List.finRange 512 = is
  apply asks_trans (asks_alloc hf) (copyEntries_shortages next hnext source _ is _)
  intro hok
  have ha := (alloc_shortages s₀).2 hok
  exact asks_copyEntries hnext hf hal hsrc hcount (alloc_unused s₀.pages ha) is _
    (fresh_alloc s₀ hf ha) (alloc_taken hf ha)

end

def UpperPresent (s : Machine) : Prop :=
  ∀ p u, p.length ≤ 2 → descend child (tables s.mem) (frameOf s.pml4) p = some u →
    ∀ j, tables s.mem u j ≠ 0 → tables s.mem u j &&& present = present

structure Rooted (kernel : ℕ → Prop) (m : Mem) (s : Machine) : Prop where
  frames : FramesOk s.pages
  outside : ∀ u, kernel u → ∀ b, Unused s.pages b → u ≠ frameOf b
  same : ∀ u, kernel u → ∀ j, tables s.mem u j = tables m u j

variable {m : Mem} {kernel : ℕ → Prop}

theorem rooted_fresh (h : Rooted kernel m s) (hw : Fresh 0 s s') : Rooted kernel m s' := by
  constructor
  case frames => exact fresh_frames hw h.frames
  case outside => exact fun u hu b hb => h.outside u hu b (hw.unused b hb)
  case same =>
    intro u hu j
    rw [← h.same u hu j]
    apply hw.same
    intro b hb
    right
    intro d hd
    obtain rfl : d = 0 := by omega
    exact h.outside u hu b hb

variable {t : Word}

theorem rooted_entry (h : Rooted kernel m s) (hal : Aligned t) (hk : kernel (frameOf t))
    (i : Fin 512) : entry s.mem t i = entry m t i := by
  rw [entry_eq _ _ hal, entry_eq _ _ hal]
  exact h.same _ hk i

section
variable {kernel : ℕ → Prop} {roots : List Word} {s₀ : Machine} (h : Coherent kernel 1 roots s₀)
include h

theorem coherent_rooted (s : Machine) (hw : Fresh 1 s₀ s) : Rooted kernel s₀.mem s := by
  have hc := (fresh_leaf h s hw).1
  constructor
  case frames => exact hc.forest.frames
  case outside =>
    intro u hu b hb he
    apply hc.forest.outside b hb 0 (Nat.zero_le _)
    exact ⟨u,[],Or.inr ⟨hu,rfl⟩,by rw [he]; rfl⟩
  case same => exact fresh_kernel h s hw

theorem asks_copyTable (hp : UpperPresent s₀) (d : ℕ) (p : List (Fin 512)) (hl : p.length+d = 3)
    (t : Word) (hal : Aligned t)
    (ht : descend child (tables s₀.mem) (frameOf s₀.pml4) p = some (frameOf t))
    (s : Machine) (hs : Rooted kernel s₀.mem s) :
    Asks (copiedTables s₀.mem d t) s (copyTable d s t).1 := by
  induction d generalizing p t s with
  | zero =>
    have hk : kernel (frameOf t) := h.tables _ ⟨_,p,⟨rfl,by omega⟩,ht⟩
    have hlevel := asks_copyLevel copies_none hs.frames hal (hs.outside _ hk)
      (fun s₁ _ _ _ => asks_same (s := s₁) rfl rfl)
    simp only [ite_self, List.map_const', List.sum_replicate, smul_zero, Nat.add_zero] at hlevel
    exact hlevel
  | succ d ih =>
    have hk : kernel (frameOf t) := h.tables _ ⟨_,p,⟨rfl,by omega⟩,ht⟩
    have hentry := rooted_entry hs hal hk
    have hbelow : ∀ s₁ i, Fresh 0 s s₁ → entry s.mem t i ≠ 0 →
        Asks (copiedTables s₀.mem d (tableOf s₀.mem t i)) s₁
          (copyTable d s₁ (tableOf s.mem t i)).1 := by
      intro s₁ i hw hne
      have htable : tableOf s.mem t i = tableOf s₀.mem t i :=
        congrArg (fun e => e &&& addressMask) (hentry i)
      rw [hentry i, entry_eq _ _ hal] at hne
      have hchild := child_present (hp p _ (by omega) ht i hne)
      have hnext : descend child (tables s₀.mem) (frameOf s₀.pml4) (p++[i]) =
          some (frameOf (tableOf s₀.mem t i)) := by
        rw [descend_snoc, ht, Option.bind_some, hchild, tableOf_eq _ _ hal]
      rw [htable]
      exact ih (p++[i]) (by rw [List.length_append, List.length_singleton]; omega) _
        (tableOf_aligned _ _ _) hnext s₁ (rooted_fresh hs hw)
    have hlevel := asks_copyLevel (copyTable_copies d) hs.frames hal (hs.outside _ hk) hbelow
    simp only [hentry] at hlevel
    rw [copiedTables, copyTable]
    exact hlevel

theorem asks_copyPageTables (hp : UpperPresent s₀) (hw : Fresh 1 s₀ s) :
    Asks (copiedTables s₀.mem 3 s₀.pml4) s (copyPageTables s s.pml4 4).1 := by
  have hcopy := asks_copyTable h hp 3 [] rfl s₀.pml4 h.aligned rfl s (coherent_rooted h s hw)
  rw [copyTable] at hcopy
  rw [copyPageTables_four, hw.root]
  exact hcopy

end

def Grown (c : Word) (Q : Finset (List (Fin 512))) (s : Machine) : Prop :=
  ∀ p, UserPath p → p ≠ [] → ((descend child (tables s.mem) (frameOf c) p).isSome ↔ p ∈ Q)

variable {Q : Finset (List (Fin 512))} {c : Word}

theorem grown_entries
    (hent : ∀ q j, UserPath q → UserPath (q++[j]) →
      entryAt child (tables s'.mem) (frameOf c) q j =
        entryAt child (tables s.mem) (frameOf c) q j) (h : Grown c Q s) : Grown c Q s' := by
  intro p hp hne
  rw [← h p hp hne, descend_entries child]
  rintro q i rfl
  exact hent q i (userPath_start q [i] hp) hp

structure Opens (c : Word) (Q : Finset (List (Fin 512))) (s : Machine)
    (Q' : Finset (List (Fin 512))) (s' : Machine) : Prop where
  subset : Q ⊆ Q'
  asks : Asks (Q'.card-Q.card) s s'
  grown : s'.shortages = s.shortages → Grown c Q' s'

theorem opens_same (hp : freeCount s'.pages = freeCount s.pages)
    (hsh : s'.shortages = s.shortages) (h : Grown c Q s') : Opens c Q s Q s' := by
  constructor
  case subset => exact Finset.Subset.refl Q
  case asks =>
    rw [Nat.sub_self]
    exact asks_same hp hsh
  case grown => exact fun _ => h

theorem opens_trans {Q₁ Q₂ : Finset (List (Fin 512))} (h : Opens c Q s Q₁ s₁) (hsub : Q₁ ⊆ Q₂)
    (hle : s₁.shortages ≤ s₂.shortages) (h' : s₁.shortages = s.shortages → Opens c Q₁ s₁ Q₂ s₂) :
    Opens c Q s Q₂ s₂ := by
  have hasks := asks_trans h.asks hle (fun hok => (h' hok).asks)
  have hcard := Finset.card_le_card h.subset
  have hcard' := Finset.card_le_card hsub
  constructor
  case subset => exact h.subset.trans hsub
  case asks =>
    rwa [show Q₁.card-Q.card+(Q₂.card-Q₁.card) = Q₂.card-Q.card by omega] at hasks
  case grown =>
    intro hok
    have hle₁ := h.asks.shortages
    exact (h' (by omega)).grown (by omega)

variable {Q' : Finset (List (Fin 512))} {flags v : Word}

section
variable {kernel : ℕ → Prop} {roots : List Word} {c : Word} (hc : c ∈ roots) {s : Machine}
  (hs : Forest (owned kernel roots) 1 s) {Q : Finset (List (Fin 512))} (hQ : Grown c Q s)
include hc hs hQ

theorem opens_ensure {q : List (Fin 512)} {i : Fin 512} (hq : UserPath (q++[i])) (ht : Aligned t)
    (hr : descend child (tables s.mem) (frameOf c) q = some (frameOf t))
    (hp : flags &&& present = present) (hm : flags &&& addressMask = 0) :
    Opens c Q s (insert (q++[i]) Q) (ensureTable clearTable s t i flags) := by
  have hdom : owned kernel roots (frameOf c) (q++[i]) := Or.inl ⟨c,hc,rfl,hq⟩
  have hmem := hQ (q++[i]) hq (by simp)
  rw [descend_snoc, hr, Option.bind_some] at hmem
  by_cases h : entry s.mem t i &&& present = present
  · rw [ensure_present _ _ h]
    rw [entry_eq _ _ ht] at h
    rw [Finset.insert_eq_self.mpr (hmem.mp (by rw [child_present h]; rfl))]
    exact opens_same rfl rfl hQ
  · have habs := h
    rw [entry_eq _ _ ht] at h
    have hnot : q++[i] ∉ Q := by
      intro hin
      have hsome := hmem.mpr hin
      rw [child_absent h] at hsome
      cases hsome
    constructor
    case subset => exact Finset.subset_insert _ Q
    case asks =>
      rw [Finset.card_insert_of_notMem hnot, Nat.add_sub_cancel_left]
      have halloc := asks_alloc hs.frames
      rw [ensureTable, if_neg habs]
      exact asks_then_same halloc rfl rfl
    case grown =>
      intro hok p hup hne
      have ha := (ensure_shortages clearTable s t i flags).2 hok habs
      obtain ⟨σ,hσ,hd,_,hzero,hnone,hnr,hchild⟩ := ensure_store (owned_closed kernel roots)
        clears_memset hs hdom ht hr hp hm habs ha
      have hsep : Separate child σ (owned kernel roots) :=
        separate_of_same child hd hs.separate
      have hrt := (hd (frameOf c) q (Or.inl ⟨c,hc,rfl,userPath_start q [i] hq⟩)).trans hr
      have hempty : ∀ j, child (σ (frameOf (alloc s).2) j) = none := by
        intro j
        rw [hzero j]
        exact child_absent (by decide)
      have hown : owned kernel roots (frameOf c) p := Or.inl ⟨c,hc,rfl,hup⟩
      rw [hσ, descend_link child σ _ (owned_closed kernel roots) hsep (frameOf c) q _ _ i _ hdom hrt
        hnone hchild hnr hempty (frameOf c) p hown, hd (frameOf c) p hown, Finset.mem_insert]
      split_ifs with heq
      · exact iff_of_true rfl (Or.inl heq.2)
      · rw [hQ p hup hne]
        exact ⟨Or.inr,fun hin => hin.resolve_left (fun he => heq ⟨rfl,he⟩)⟩

theorem opens_below (q : List (Fin 512)) (i : Fin 512) (t flags : Word) (hq : UserPath (q++[i]))
    (ht : Aligned t) (hr : descend child (tables s.mem) (frameOf c) q = some (frameOf t))
    (hp : flags &&& present = present) (hm : flags &&& addressMask = 0)
    (hsub : insert (q++[i]) Q ⊆ Q')
    (hle : (ensureTable clearTable s t i flags).shortages ≤ s'.shortages)
    (hrest : Forest (owned kernel roots) 1 (ensureTable clearTable s t i flags) →
      Grown c (insert (q++[i]) Q) (ensureTable clearTable s t i flags) →
      descend child (tables (ensureTable clearTable s t i flags).mem) (frameOf c) (q++[i]) =
        some (frameOf (tableOf (ensureTable clearTable s t i flags).mem t i)) →
      Opens c (insert (q++[i]) Q) (ensureTable clearTable s t i flags) Q' s') :
    Opens c Q s Q' s' := by
  have hopens := opens_ensure hc hs hQ hq ht hr hp hm
  apply opens_trans hopens hsub hle
  intro hok
  have hlevel := ensure_ensured (owned_closed kernel roots) clears_memset hs (frameOf c) q i t flags
    (Or.inl ⟨c,hc,rfl,hq⟩) ht hr hp hm hok
  exact hrest hlevel.forest (hopens.grown hok) hlevel.next

theorem opens_leaf (p : Word) (hv : User v) (ht : Aligned t)
    (hr : descend child (tables s.mem) (frameOf c) (upperPath v) = some (frameOf t)) :
    Opens c Q s Q (setPml4 (setLeaf s t (getIndexOfPt v) p flags) c) := by
  have hleaf := (setLeaf_forest (owned_closed kernel roots) hs (frameOf c) (upperPath v)
    (getIndexOfPt v) t p flags (owned_upper kernel roots c hc v hv) (owned_long kernel roots _ v _)
    ht hr).2
  have hgrown : Grown c Q (setPml4 (setLeaf s t (getIndexOfPt v) p flags) c) := by
    apply grown_entries _ hQ
    intro q j hq hqj
    apply (hleaf (frameOf c) q j (Or.inl ⟨c,hc,rfl,hq⟩)).trans
    apply if_neg
    rintro ⟨-,rfl,rfl⟩
    exact owned_long kernel roots (frameOf c) v (getIndexOfPt v) (Or.inl ⟨c,hc,rfl,hqj⟩)
  exact opens_same rfl rfl hgrown

theorem opens_map {p : Word} (hw : Aligned c) (hv : User v) (hva : Aligned v) (hpa : Aligned p) :
    Opens c Q s (Q ∪ (tablePaths v).toFinset)
      (mapVirtualAddressToPhysicalAddress clearTable s v p shareFlags c false) := by
  have hup := userPath_upper hv
  have hpaths : Q ∪ (tablePaths v).toFinset = insert (upperPath v)
      (insert [getIndexOfPml4 v,getIndexOfPdpt v] (insert [getIndexOfPml4 v] Q)) := by
    ext x
    simp only [tablePaths, List.toFinset_cons, List.toFinset_nil, Finset.mem_union,
      Finset.mem_insert, Finset.notMem_empty, or_false]
    tauto
  rw [hpaths, mapVirtualAddressToPhysicalAddress, if_neg (not_not.mpr ((aligned_iff v).mpr hva)),
    if_neg (not_not.mpr ((aligned_iff p).mpr hpa))]
  dsimp only
  rw [if_neg (by decide)]
  have hle := fun s t i f => (ensure_shortages clearTable s t i f).1
  have hsub₂ := Finset.subset_insert (upperPath v)
    (insert [getIndexOfPml4 v,getIndexOfPdpt v] (insert [getIndexOfPml4 v] Q))
  refine opens_below hc hs hQ [] (getIndexOfPml4 v) c _ (userPath_start _ [_,_] hup) hw rfl
    shareFlags_present shareFlags_masked ((Finset.subset_insert _ _).trans hsub₂)
    ((hle _ _ _ _).trans (hle _ _ _ _)) ?_
  intro hs₁ hQ₁ hr₁
  refine opens_below hc hs₁ hQ₁ [getIndexOfPml4 v] (getIndexOfPdpt v) _ _
    (userPath_start _ [_] hup) (tableOf_aligned _ _ _) hr₁ shareFlags_present shareFlags_masked hsub₂
    (hle _ _ _ _) ?_
  intro hs₂ hQ₂ hr₂
  refine opens_below hc hs₂ hQ₂ [getIndexOfPml4 v,getIndexOfPdpt v] (getIndexOfPdt v) _ _ hup
    (tableOf_aligned _ _ _) hr₂ shareFlags_present shareFlags_masked (Finset.Subset.refl _) le_rfl ?_
  intro hs₃ hQ₃ hr₃
  exact opens_leaf hc hs₃ hQ₃ p hv (tableOf_aligned _ _ _) hr₃

end

theorem opens_counted (h : Opens c Q s Q' s') (a : Word) :
    Opens c Q s Q' { s' with pages := incrementReferenceCountOfPage a s'.pages } := by
  constructor
  case subset => exact h.subset
  case asks => exact asks_then_same h.asks (freeCount_increment) rfl
  case grown => exact h.grown

theorem sharedPaths_one (m : Mem) (r i : Word) : sharedPaths m r [i] =
    if frameAt m r i ≠ 0 ∧ Aligned i then (tablePaths i).toFinset else ∅ := by
  rw [sharedPaths, sharedSteps, List.filter_singleton]
  split_ifs with h
  · rw [decide_eq_true h]
    simp
  · rw [decide_eq_false h]
    rfl

theorem sharedPaths_cons (m : Mem) (r i : Word) (is : List Word) :
    sharedPaths m r (i::is) = sharedPaths m r [i] ∪ sharedPaths m r is := by
  have hfilter : sharedSteps m r (i::is) = sharedSteps m r [i]++sharedSteps m r is := by
    rw [sharedSteps, ← List.singleton_append, List.filter_append]
    rfl
  rw [sharedPaths, hfilter, List.flatMap_append, List.toFinset_append]
  rfl

section
variable {kernel : ℕ → Prop} {roots : List Word} (r c : Word) (hr : r ∈ roots) (hc : c ∈ roots)
include hr hc

theorem opens_share (h : Coherent kernel 1 roots s) (hQ : Grown c Q s) {i : Word} (hi : User i) :
    Opens c Q s (Q ∪ sharedPaths s.mem r [i]) (sharePage r c s i) := by
  have hwalk := walk_mapped s.mem i (h.window r hr).1
  rw [sharedPaths_one]
  by_cases hz : frameAt s.mem r i = 0
  · have hid : sharePage r c s i = s := if_pos (hwalk.1.mpr hz)
    rw [if_neg (fun hcond => hcond.1 hz), Finset.union_empty, hid]
    exact opens_same rfl rfl hQ
  · rw [sharePage, if_neg (mt hwalk.1.mp hz), hwalk.2 hz]
    apply opens_counted
    by_cases hal : Aligned i
    · rw [if_pos ⟨hz,hal⟩]
      exact opens_map hc h.forest hQ (h.window c hc).1 hi hal (masked_aligned _)
    · rw [if_neg (fun hcond => hal hcond.2), Finset.union_empty,
        map_unaligned (fun hal' => hal hal'.1)]
      exact opens_same rfl rfl hQ

theorem opens_shares (hcr : c ≠ r) {is : List Word} (s : Machine) (h : Coherent kernel 1 roots s)
    (Q : Finset (List (Fin 512))) (hQ : Grown c Q s) (hu : ∀ i ∈ is, User i)
    (hframe : ∀ i ∈ is, frameAt s.mem r i = frameAt m r i) :
    Opens c Q s (Q ∪ sharedPaths m r is) (is.foldl (sharePage r c) s) := by
  induction is generalizing s Q with
  | nil =>
    rw [show sharedPaths m r [] = ∅ from rfl, Finset.union_empty]
    exact opens_same rfl rfl hQ
  | cons i is ih =>
    have hstep := opens_share r c hr hc h hQ (hu i (by simp))
    have hfirst : sharedPaths s.mem r [i] = sharedPaths m r [i] := by
      rw [sharedPaths_one, sharedPaths_one, hframe i (by simp)]
    rw [sharedPaths_cons, ← Finset.union_assoc, ← hfirst]
    apply opens_trans hstep Finset.subset_union_left (shares_shortages r c is _)
    intro hok
    obtain ⟨h₁,hothers,_⟩ := share_leaf r hr c hc h (hu i (by simp)) hok
    apply ih _ h₁ _ (hstep.grown hok) (fun j hj => hu j (by simp [hj]))
    intro j hj
    rw [← hframe j (by simp [hj]), frameAt, pte, hothers r hr (Ne.symm hcr) j]
    rfl

end

variable {r : Word}

section
variable {kernel : ℕ → Prop} {roots : List Word}

theorem grown_protects (hr : r ∈ roots) (hc : c ∈ roots) (hcr : c ≠ r)
    (Q : Finset (List (Fin 512))) (is : List Word) (s : Machine) (h : Coherent kernel 1 roots s)
    (hu : ∀ i ∈ is, User i) (hQ : Grown c Q s) : Grown c Q (is.foldl (protectPage r) s) := by
  induction is generalizing s with
  | nil => exact hQ
  | cons i is ih =>
    have hi := hu i (by simp)
    have hquiet := changeFlags_quiet h (shareFlags.setWidth 64) hr hi shareFlags_masked
    apply ih _ (quiet_coherent h hquiet) (fun j hj => hu j (by simp [hj]))
    apply grown_entries _ hQ
    intro q j hq _
    exact hquiet.others (frameOf c) q j (Or.inl ⟨c,hc,rfl,hq⟩)
      (fun he => hcr (root_inj h hc hr he))

variable {s₀ : Machine} (h : Coherent kernel 1 roots s₀)
include h

theorem grown_spawn (hok : (copyPageTables s₀ s₀.pml4 4).1.shortages = s₀.shortages) :
    Grown (copyPageTables s₀ s₀.pml4 4).2 ∅ (copyPageTables s₀ s₀.pml4 4).1 := by
  obtain ⟨_,_,hnone⟩ := spawn_root h hok
  generalize copyPageTables s₀ s₀.pml4 4 = c at *
  intro p hp hne
  cases p with
  | nil => exact absurd rfl hne
  | cons i p =>
    rw [descend, hnone i (by simpa using hp.2)]
    simp

theorem asks_copyVm (hp : UpperPresent s₀) (hw : Fresh 1 s₀ s) {vmas : List Vma} (hr : r ∈ roots)
    (hu : ∀ i ∈ allSteps vmas, User i) :
    Asks (copiedTables s₀.mem 3 s₀.pml4+(sharedPaths s₀.mem r (allSteps vmas)).card) s
      (copyVm s vmas r).1 := by
  obtain ⟨hs,hleaf⟩ := fresh_leaf h s hw
  have hroot := asks_copyPageTables h hp hw
  have hgrown := grown_spawn hs
  have hspawn := fun hok => (spawn_coherent hs hok).1
  have hprep := firstPass_prepared hs hr hu
  rw [copyVm]
  generalize copyPageTables s s.pml4 4 = c at *
  have hshares := shares_shortages r c.2 (allSteps vmas)
    ((allSteps vmas).foldl (protectPage r) c.1)
  rw [protect_shortages] at hshares
  apply asks_trans hroot hshares
  intro hok
  have hprep := hprep hok
  have hr' : r ∈ c.2::roots := List.mem_cons_of_mem _ hr
  have hcr : c.2 ≠ r := fun he => hprep.new (he ▸ hr)
  have hfirst := grown_protects hr' (by simp) hcr ∅ (allSteps vmas) c.1 (hspawn hok) hu
    (hgrown hok)
  have hframe : ∀ i ∈ allSteps vmas, frameAt ((allSteps vmas).foldl (protectPage r) c.1).mem r i =
      frameAt s₀.mem r i := by
    intro i hi
    rw [frameAt_protected (hprep.parent i (hu i hi)), frameAt, frameAt,
      pte, pte, hleaf r hr i]
  have hsecond := (opens_shares r c.2 hr' (by simp) hcr _ hprep.coherent ∅
    hfirst hu hframe).asks
  rw [Finset.empty_union, Finset.card_empty, Nat.sub_zero] at hsecond
  have hpass : Asks 0 c.1 ((allSteps vmas).foldl (protectPage r) c.1) :=
    asks_same (by rw [protect_pages]) (protect_shortages r _)
  have hboth := asks_trans hpass hsecond.shortages (fun _ => hsecond)
  rwa [Nat.zero_add] at hboth

theorem asks_doFork (hp : UpperPresent s₀) {parent : MmStruct} (hr : parent.cr3 ∈ roots)
    (hu : ∀ i ∈ allSteps parent.vma, User i) :
    Asks (7+parent.vma.length+copiedTables s₀.mem 3 s₀.pml4+
      (sharedPaths s₀.mem parent.cr3 (allSteps parent.vma)).card) s₀ (doFork s₀ parent).1 := by
  have hf := h.forest.frames
  have hw := work_forkCopies s₀ parent.vma
  have hdup := asks_trans (asks_forkObjects hf) (work_dupMm parent.vma _).shortages
    (fun _ => asks_dupMm (grows_frames (grows_work (work_forkObjects s₀)) hf) parent.vma)
  rw [doFork]
  generalize dupMm (forkObjects s₀) parent.vma = d at *
  have hcopy := grows_copyVm d.1 parent.vma parent.cr3
  have hspace := asks_trans hdup hcopy.shortages (fun hok =>
    asks_copyVm h hp (hw.fresh hf hok) hr hu)
  have hthread := asks_trans hspace (work_forkThread _).shortages (fun _ =>
    asks_forkThread (grows_frames (grows_trans (grows_work hw) hcopy) hf))
  rwa [show 5+parent.vma.length+(copiedTables s₀.mem 3 s₀.pml4+
      (sharedPaths s₀.mem parent.cr3 (allSteps parent.vma)).card)+2 =
    7+parent.vma.length+copiedTables s₀.mem 3 s₀.pml4+
      (sharedPaths s₀.mem parent.cr3 (allSteps parent.vma)).card by omega] at hthread

end

end PreemptiveOS.ForkFrames
