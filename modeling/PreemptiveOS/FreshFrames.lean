import PreemptiveOS.PageTree

/-!
# Writing to fresh frames

Much of the kernel's work takes unused frames and writes to them alone:
copies of page tables, process blocks, stacks, file pages. Such work leaves
every forest of tables as it is. The margin allows for a clearing routine
that writes behind the frame it clears. Copying the kernel root is fresh
work whose result is one more root with the kernel root's entries.
-/

set_option autoImplicit false

namespace PreemptiveOS.FreshFrames
open ByteMemory PhysMmgr TableForest VirtMmgr PageTree PageRecords

structure Fresh (margin : ℕ) (s s' : Machine) : Prop where
  addresses : addresses s'.pages = addresses s.pages
  root : s'.pml4 = s.pml4
  unused : ∀ b, Unused s'.pages b → Unused s.pages b
  same : ∀ u, (∀ b, Unused s.pages b → Unused s'.pages b ∨ ∀ d ≤ margin, u ≠ frameOf b+d) →
    ∀ j, tables s'.mem u j = tables s.mem u j

theorem fresh_refl (margin : ℕ) (s : Machine) : Fresh margin s s :=
  ⟨rfl,rfl,fun _ h => h,fun _ _ _ => rfl⟩

variable {s s₁ s₂ : Machine} {margin : ℕ}

theorem fresh_trans (h : Fresh margin s s₁) (h' : Fresh margin s₁ s₂) : Fresh margin s s₂ := by
  constructor
  · exact h'.addresses.trans h.addresses
  · exact h'.root.trans h.root
  · exact fun b hb => h.unused b (h'.unused b hb)
  · intro u hu j
    rw [h'.same u (fun b hb => hu b (h.unused b hb)), h.same u]
    intro b hb
    exact (hu b hb).imp (h'.unused b) id

variable {s' : Machine}

theorem fresh_mono {m n : ℕ} (hmn : m ≤ n) (h : Fresh m s s') : Fresh n s s' := by
  refine ⟨h.addresses,h.root,h.unused,?_⟩
  intro u hu
  apply h.same u
  intro b hb
  exact (hu b hb).imp id (fun hd d hdm => hd d (hdm.trans hmn))

theorem fresh_frames (h : Fresh margin s s') (hf : FramesOk s.pages) :
    FramesOk s'.pages := framesOk_congr h.addresses hf

theorem fresh_alloc (s : Machine) (hf : FramesOk s.pages) (ha : (alloc s).2 ≠ 0) :
    Fresh 0 s (alloc s).1 :=
  ⟨addresses_alloc s.pages,rfl,fun b hb => (unused_alloc s.pages hf ha b hb).1,fun _ _ _ => rfl⟩

theorem alloc_taken (hf : FramesOk s.pages) (ha : (alloc s).2 ≠ 0) :
    ¬ Unused (alloc s).1.pages (alloc s).2 :=
  fun h => lt_irrefl _ (unused_alloc s.pages hf ha _ h).2

theorem alloc_aligned (hf : FramesOk s.pages) : Aligned (alloc s).2 := by
  by_cases ha : (alloc s).2 = 0
  · rw [ha]
    decide
  · exact (unused_window s.pages hf _ (alloc_unused s.pages ha)).1

variable {n : Word}

theorem fresh_setEntry (h : Fresh margin s s') (hn : Aligned n) (hu : Unused s.pages n)
    (ht : ¬ Unused s'.pages n) (i : Fin 512) (e : Word) :
    Fresh margin s { s' with mem := setEntry s'.mem n i e } := by
  refine ⟨h.addresses,h.root,h.unused,?_⟩
  intro u hfar j
  have hne : u ≠ frameOf n := (hfar n hu).resolve_left ht 0 (Nat.zero_le _)
  change tables (setEntry s'.mem n i e) u j = _
  rw [tables_setEntry _ n i e hn, put_other _ _ (Or.inl hne), h.same u hfar]

theorem fresh_forest {dom : Domain} (hc : PrefixClosed dom) (hs : Forest dom margin s)
    (h : Fresh margin s s') :
    Forest dom margin s' ∧ (∀ u, Reached child (tables s'.mem) dom u ↔
      Reached child (tables s.mem) dom u) ∧
    ∀ r p j, dom r p →
      entryAt child (tables s'.mem) r p j = entryAt child (tables s.mem) r p j := by
  have hagree : ∀ u, Reached child (tables s.mem) dom u →
      ∀ j, tables s'.mem u j = tables s.mem u j := by
    intro u hu
    apply h.same u
    intro b hb
    right
    intro d hd he
    exact hs.outside b hb d hd (he ▸ hu)
  have hdesc := descend_agree child _ _ dom hc hagree
  have hreach := reached_of_same child _ _ dom hdesc
  refine ⟨⟨?_,?_,?_⟩,hreach,?_⟩
  · exact separate_of_same child hdesc hs.separate
  · exact fresh_frames h hs.frames
  · intro a ha d hd
    rw [hreach]
    exact hs.outside a (h.unused a ha) d hd
  · exact fun r p j hp => entryAt_agree child _ _ dom hc hagree r p hp j

variable {a b : Word}

theorem frameOf_inj (ha : Aligned a) (hb : Aligned b) (hwa : a.toNat < 2^31)
    (hwb : b.toNat < 2^31) (h : frameOf a = frameOf b) : a = b := by
  rw [frameOf_eq, frameOf_eq] at h
  unfold Aligned at ha hb
  apply BitVec.eq_of_toNat_eq
  omega

theorem unused_inj {pages : List Page} (hf : FramesOk pages) (ha : a ∈ addresses pages)
    (hb : b ∈ addresses pages) (h : frameOf a = frameOf b) : a = b :=
  frameOf_inj (hf.aligned a ha) (hf.aligned b hb) (hf.window a ha).2 (hf.window b hb).2 h

theorem fresh_used (h : Fresh 0 s s') (hf : FramesOk s.pages) (hn : n ∈ addresses s.pages)
    (ht : ¬ Unused s.pages n) (j : Fin 512) :
    tables s'.mem (frameOf n) j = tables s.mem (frameOf n) j := by
  apply h.same
  intro b hb
  right
  intro d hd he
  obtain rfl : d = 0 := by omega
  obtain rfl := unused_inj hf hn (unused_address hb) he
  exact ht hb

structure Copies (next : Machine → Word → Machine) : Prop where
  shortages : ∀ s t, s.shortages ≤ (next s t).shortages
  fresh : ∀ s t, FramesOk s.pages → (next s t).shortages = s.shortages → Fresh 0 s (next s t)

def copyEntry (next : Machine → Word → Machine) (source n : Word) (i : Fin 512) (s : Machine) :
    Machine :=
  let s₁ := { s with mem := setEntry s.mem n i (entry s.mem source i) }
  if entry s₁.mem source i = 0 then s₁ else next s₁ (tableOf s₁.mem source i)

theorem copyEntry_shortages (next : Machine → Word → Machine) (hnext : Copies next)
    (source n : Word) (i : Fin 512) (s : Machine) :
    s.shortages ≤ (copyEntry next source n i s).shortages := by
  unfold copyEntry
  dsimp only
  split_ifs
  · exact le_rfl
  · exact hnext.shortages { s with mem := setEntry s.mem n i (entry s.mem source i) } _

theorem copyEntries_shortages (next : Machine → Word → Machine) (hnext : Copies next)
    (source n : Word) (is : List (Fin 512)) (s : Machine) :
    s.shortages ≤ (copyEntries next source n is s).shortages := by
  induction is generalizing s with
  | nil => exact le_rfl
  | cons i is ih => exact (copyEntry_shortages next hnext source n i s).trans (ih _)

section
variable (next : Machine → Word → Machine) (hnext : Copies next) (source n : Word) (s₀ : Machine)
  (hf : FramesOk s₀.pages) (hu : Unused s₀.pages n)
include hnext hf hu

theorem copyEntry_fresh (i : Fin 512) (s : Machine) (h : Fresh 0 s₀ s) (ht : ¬ Unused s.pages n)
    (hok : (copyEntry next source n i s).shortages = s.shortages) :
    Fresh 0 s₀ (copyEntry next source n i s) ∧
    ¬ Unused (copyEntry next source n i s).pages n ∧
    ∀ j, tables (copyEntry next source n i s).mem (frameOf n) j =
      if j = i then entry s.mem source i else tables s.mem (frameOf n) j := by
  have hn : Aligned n := (unused_window s₀.pages hf n hu).1
  have h₁ := fresh_setEntry h hn hu ht i (entry s.mem source i)
  have hput : ∀ j, tables (setEntry s.mem n i (entry s.mem source i)) (frameOf n) j =
      if j = i then entry s.mem source i else tables s.mem (frameOf n) j := by
    intro j
    rw [tables_setEntry s.mem n i _ hn]
    simp [put]
  unfold copyEntry at hok ⊢
  dsimp only at hok ⊢
  split_ifs at hok ⊢ with hz
  · exact ⟨h₁,ht,hput⟩
  · have h₂ := hnext.fresh _ _ (fresh_frames h₁ hf) hok
    refine ⟨fresh_trans h₁ h₂,fun hun => ht (h₂.unused n hun),?_⟩
    intro j
    rw [fresh_used h₂ (fresh_frames h₁ hf) _ ht j]
    · exact hput j
    · rw [h₁.addresses]
      exact unused_address hu

/-- The copy loop, by induction on the indices left: only fresh frames are
written, and a source table that is in use is copied entry by entry. -/
theorem copyEntries_fresh (is : List (Fin 512)) (s : Machine) (h : Fresh 0 s₀ s)
    (ht : ¬ Unused s.pages n)
    (hok : (copyEntries next source n is s).shortages = s.shortages) :
    Fresh 0 s₀ (copyEntries next source n is s) ∧
    ¬ Unused (copyEntries next source n is s).pages n ∧
    (Aligned source → (∀ b, Unused s₀.pages b → frameOf source ≠ frameOf b) → ∀ j,
      tables (copyEntries next source n is s).mem (frameOf n) j =
        if j ∈ is then tables s₀.mem (frameOf source) j else tables s.mem (frameOf n) j) := by
  induction is generalizing s with
  | nil => exact ⟨h,ht,fun _ _ j => by simp [copyEntries]⟩
  | cons i is ih =>
    have hstep : copyEntries next source n (i::is) s =
      copyEntries next source n is (copyEntry next source n i s) := rfl
    rw [hstep] at hok ⊢
    have hle := copyEntry_shortages next hnext source n i s
    have hle' := copyEntries_shortages next hnext source n is (copyEntry next source n i s)
    obtain ⟨h₂,ht₂,he₂⟩ := copyEntry_fresh next hnext source n s₀ hf hu i s h ht (by omega)
    obtain ⟨h₃,ht₃,he₃⟩ := ih _ h₂ ht₂ (by omega)
    refine ⟨h₃,ht₃,?_⟩
    intro hal hsrc j
    rw [he₃ hal hsrc j, he₂ j]
    by_cases hj : j ∈ is
    · simp [hj]
    · by_cases hji : j = i
      · subst hji
        rw [if_neg hj, if_pos rfl, if_pos (by simp), entry_eq _ _ hal]
        apply h.same
        intro b hb
        right
        intro d hd
        obtain rfl : d = 0 := by omega
        exact hsrc b hb
      · simp [hj, hji]

end

theorem copies_none : Copies (fun s _ => s) :=
  ⟨fun _ _ => le_rfl,fun s _ _ _ => fresh_refl 0 s⟩

theorem alloc_shortages (s : Machine) :
    s.shortages ≤ (alloc s).1.shortages ∧
    ((alloc s).1.shortages = s.shortages → (alloc s).2 ≠ 0) := by
  unfold alloc
  dsimp only
  split_ifs with h
  · constructor <;> omega
  · exact ⟨le_rfl,fun _ => h⟩

variable {next : Machine → Word → Machine}

theorem copyLevel_shortages (hnext : Copies next) (s : Machine) (table : Word) :
    s.shortages ≤ (copyLevel next s table).1.shortages :=
  (alloc_shortages s).1.trans (copyEntries_shortages next hnext table _ _ _)

theorem copyLevel_fresh (hnext : Copies next) {table : Word} (hf : FramesOk s.pages)
    (hok : (copyLevel next s table).1.shortages = s.shortages) :
    Fresh 0 s (copyLevel next s table).1 ∧ Unused s.pages (alloc s).2 ∧
    ¬ Unused (copyLevel next s table).1.pages (alloc s).2 ∧
    (Aligned table → (∀ b, Unused s.pages b → frameOf table ≠ frameOf b) → ∀ j,
      tables (copyLevel next s table).1.mem (frameOf (alloc s).2) j =
        tables s.mem (frameOf table) j) := by
  have hle := alloc_shortages s
  have hle' := copyEntries_shortages next hnext table (alloc s).2 (List.finRange 512) (alloc s).1
  simp only [copyLevel] at hok ⊢
  have ha : (alloc s).2 ≠ 0 := hle.2 (by omega)
  have hu : Unused s.pages (alloc s).2 := alloc_unused s.pages ha
  obtain ⟨h₁,h₂,h₃⟩ := copyEntries_fresh next hnext table (alloc s).2 s hf hu (List.finRange 512)
    (alloc s).1 (fresh_alloc s hf ha) (alloc_taken hf ha) (by omega)
  refine ⟨h₁,hu,h₂,?_⟩
  intro hal hsrc j
  rw [h₃ hal hsrc j, if_pos (List.mem_finRange j)]

theorem copyTable_copies (d : ℕ) : Copies (fun s t => (copyTable d s t).1) := by
  induction d with
  | zero =>
    constructor
    · exact fun s t => copyLevel_shortages copies_none s t
    · exact fun s t hf hok => (copyLevel_fresh copies_none hf hok).1
  | succ d ih =>
    constructor
    · exact fun s t => copyLevel_shortages ih s t
    · exact fun s t hf hok => (copyLevel_fresh ih hf hok).1

theorem alias_strip (hn : n.toNat < 2^31) : ~~~kernbase &&& (n ||| kernbase) = n := by
  have hm : ~~~kernbase = BitVec.ofNat 64 (2^31-1) := by decide
  have hz : kernbase &&& BitVec.ofNat 64 (2^31-1) = 0#64 := by decide
  rw [BitVec.and_comm, hm, BitFields.set_outside n hz]
  apply BitVec.eq_of_toNat_eq
  rw [BitFields.and_low_mask n 31 (by decide)]
  omega

theorem copyPageTables_four (s : Machine) (root : Word) : (copyPageTables s root 4).1 =
    (copyLevel (fun s t => (copyTable 2 s t).1) s root).1 := by
  rw [copyPageTables, copyTable]

theorem copyPageTables_root (s : Machine) (root : Word) :
    (copyPageTables s root 4).2 = ~~~kernbase &&& ((alloc s).2 ||| kernbase) := by
  rw [copyPageTables, copyTable, copyLevel]

/-- Copying a root that is in use: the lowest unused frame becomes a root with
the same entries, and beyond that only fresh frames are written. -/
theorem copyPageTables_fresh (s : Machine) (root : Word) (hf : FramesOk s.pages)
    (hroot : Aligned root) (hused : ∀ b, Unused s.pages b → frameOf root ≠ frameOf b)
    (hok : (copyPageTables s root 4).1.shortages = s.shortages) :
    Fresh 0 s (copyPageTables s root 4).1 ∧ Unused s.pages (copyPageTables s root 4).2 ∧
    (∀ b, Unused (copyPageTables s root 4).1.pages b →
      (copyPageTables s root 4).2.toNat < b.toNat) ∧
    ∀ j, tables (copyPageTables s root 4).1.mem (frameOf (copyPageTables s root 4).2) j =
      tables s.mem (frameOf root) j := by
  rw [copyPageTables_four] at hok ⊢
  obtain ⟨h₁,h₂,h₃,h₄⟩ := copyLevel_fresh (copyTable_copies 2) hf hok
  have hstrip : (copyPageTables s root 4).2 = (alloc s).2 := by
    rw [copyPageTables_root, alias_strip (unused_window s.pages hf _ h₂).2]
  rw [hstrip]
  refine ⟨h₁,h₂,?_,h₄ hroot hused⟩
  intro b hb
  have ha : (alloc s).2 ≠ 0 := by
    intro hz
    have hpos := (hf.window _ (unused_address h₂)).1
    rw [hz] at hpos
    exact absurd hpos (by decide)
  apply lt_of_le_of_ne (alloc_lowest hf ha (h₁.unused b hb))
  intro he
  exact h₃ (BitVec.eq_of_toNat_eq he ▸ hb)

theorem copyPageTables_shortages (s : Machine) (root : Word) :
    s.shortages ≤ (copyPageTables s root 4).1.shortages := by
  rw [copyPageTables_four]
  exact copyLevel_shortages (copyTable_copies 2) s root

structure Work (margin : ℕ) (s s' : Machine) : Prop where
  shortages : s.shortages ≤ s'.shortages
  fresh : FramesOk s.pages → s'.shortages = s.shortages → Fresh margin s s'
  later : Keeps s s'

theorem work_refl (margin : ℕ) (s : Machine) : Work margin s s :=
  ⟨le_rfl,fun _ _ => fresh_refl margin s,keeps_same s s rfl⟩

theorem work_trans (h : Work margin s s₁) (h' : Work margin s₁ s₂) : Work margin s s₂ := by
  have hle := h.shortages
  have hle' := h'.shortages
  constructor
  · omega
  · intro hf hok
    have hfresh := h.fresh hf (by omega)
    exact fresh_trans hfresh (h'.fresh (fresh_frames hfresh hf) (by omega))
  · exact keeps_trans s s₁ s₂ h.later h'.later

theorem work_alloc (margin : ℕ) (s : Machine) : Work margin s (alloc s).1 := by
  have ha := alloc_shortages s
  exact ⟨ha.1,fun hf hok => fresh_mono (Nat.zero_le _) (fresh_alloc s hf (ha.2 hok)),
    keeps_alloc s s.mem⟩

theorem work_cleared {clear : Mem → ℕ → Mem} (hclear : Clears clear margin) (s : Machine) :
    Work margin s { (alloc s).1 with mem := clear s.mem (kernelAddr (alloc s).2) } := by
  have ha := alloc_shortages s
  refine ⟨ha.1,?_,keeps_alloc s _⟩
  intro hf hok
  have hne := ha.2 hok
  have hu : Unused s.pages (alloc s).2 := alloc_unused s.pages hne
  have hal := (unused_window s.pages hf _ hu).1
  refine ⟨addresses_alloc s.pages,rfl,fun b hb => (unused_alloc s.pages hf hne b hb).1,?_⟩
  intro u hfar j
  have hd := (hfar _ hu).resolve_left (alloc_taken hf hne)
  change tables (clear s.mem (kernelAddr (alloc s).2)) u j = tables s.mem u j
  rw [kernelAddr_aligned _ hal]
  apply hclear.apart s.mem _ u (frameOf_pos _)
  by_contra hin
  exact hd (u-frameOf (alloc s).2) (by omega) (by omega)

end PreemptiveOS.FreshFrames
