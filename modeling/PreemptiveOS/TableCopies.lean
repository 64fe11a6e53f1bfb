import PreemptiveOS.ForkFrames

/-!
# What a copy of page tables leaves behind

A copy of a root has the entries of the root, so that both lead to the same
tables. The tables below are copied as well, for each entry that is not zero, and
no entry leads to these copies. Their frames are lost.
-/

set_option autoImplicit false

namespace PreemptiveOS.TableCopies
open ByteMemory PhysMmgr TableForest VirtMmgr PageTree PageRecords FreshFrames AddressSpaces
open ForkFrames

structure Tree (s : Machine) (root : Word) : Prop where
  frames : FramesOk s.pages
  aligned : Aligned root
  used : ∀ a, Unused s.pages a → ¬ Reached child (tables s.mem) (treeAt root) (frameOf a)

structure FaithfulCopy (s : Machine) (root : Word) (s' : Machine) (copy : Word) : Prop where
  source : ∀ p j, p.length ≤ 3 → entryAt child (tables s'.mem) (frameOf root) p j =
    entryAt child (tables s.mem) (frameOf root) p j
  walks : ∀ v, walkPml4 s'.mem copy v = walkPml4 s.mem root v
  reachable : ∀ a, TakenFrame s s' a → Reached child (tables s'.mem) (treeAt copy) (frameOf a)

variable {p : List (Fin 512)} {s' : Machine} {a : Word}

section
variable {s : Machine} {root : Word} (h : Tree s root)
include h

theorem tree_root (b : Word) (hb : Unused s.pages b) : frameOf root ≠ frameOf b :=
  fun he => h.used b hb ⟨_,[],⟨rfl,Nat.zero_le 3⟩,by rw [he]; rfl⟩

theorem tree_agree (hw : Fresh 0 s s') (u : ℕ) (hu : Reached child (tables s.mem) (treeAt root) u)
    (j : Fin 512) : tables s'.mem u j = tables s.mem u j := by
  apply hw.same u
  intro b hb
  right
  rintro d hd rfl
  obtain rfl : d = 0 := by omega
  exact h.used b hb hu

theorem tree_descend (s' : Machine) (hw : Fresh 0 s s') (p : List (Fin 512)) (hp : p.length ≤ 3) :
    descend child (tables s'.mem) (frameOf root) p =
      descend child (tables s.mem) (frameOf root) p :=
  descend_agree child _ _ (treeAt root) (treeAt_closed root) (tree_agree h hw) _ p ⟨rfl,hp⟩

theorem tree_entry (hw : Fresh 0 s s') (j : Fin 512) (hp : p.length ≤ 3) :
    entryAt child (tables s'.mem) (frameOf root) p j =
      entryAt child (tables s.mem) (frameOf root) p j :=
  entryAt_agree child _ _ (treeAt root) (treeAt_closed root) (tree_agree h hw) _ p ⟨rfl,hp⟩ j

variable (hok : (copyPageTables s root 4).1.shortages = s.shortages)
include hok

theorem copy_descend (i : Fin 512) (hp : p.length ≤ 2) :
    descend child (tables (copyPageTables s root 4).1.mem) (frameOf (copyPageTables s root 4).2)
      (i::p) = descend child (tables s.mem) (frameOf root) (i::p) := by
  obtain ⟨hw,_,_,hrow⟩ := copyPageTables_fresh s root h.frames h.aligned (tree_root h) hok
  have hroot := tree_agree h hw (frameOf root) ⟨_,[],⟨rfl,Nat.zero_le 3⟩,rfl⟩ i
  rw [← tree_descend h _ hw (i::p) (Nat.succ_le_succ hp), descend, descend, hrow, hroot]

theorem copy_walk (v : Word) :
    walkPml4 (copyPageTables s root 4).1.mem (copyPageTables s root 4).2 v =
      walkPml4 s.mem root v := by
  obtain ⟨hw,hu,_,_⟩ := copyPageTables_fresh s root h.frames h.aligned (tree_root h) hok
  have hal : Aligned (copyPageTables s root 4).2 := (unused_window s.pages h.frames _ hu).1
  have hleaf : leaf (copyPageTables s root 4).1.mem (copyPageTables s root 4).2 v =
      leaf s.mem root v := by
    rw [leaf, leaf, ← tree_entry h hw _ le_rfl, entryAt, entryAt,
      tree_descend h _ hw (upperPath v) le_rfl, upperPath, copy_descend h hok _ le_rfl]
  rw [walk_eq _ v hal, walk_eq _ v h.aligned, hleaf]

theorem copy_reached (ha : Unused s.pages a)
    (hr : Reached child (tables (copyPageTables s root 4).1.mem)
      (treeAt (copyPageTables s root 4).2) (frameOf a)) : a = (copyPageTables s root 4).2 := by
  obtain ⟨_,hu,_,_⟩ := copyPageTables_fresh s root h.frames h.aligned (tree_root h) hok
  obtain ⟨r,p,⟨rfl,hp⟩,hd⟩ := hr
  cases p with
  | nil =>
    exact unused_inj h.frames (unused_address ha) (unused_address hu)
      (Option.some.inj hd).symm
  | cons i p =>
    rw [List.length_cons] at hp
    rw [copy_descend h hok i (by omega)] at hd
    exact absurd ⟨_,i::p,⟨rfl,by simpa using hp⟩,hd⟩ (h.used a ha)

end

structure Takes (next : Machine → Word → Machine) : Prop where
  copies : Copies next
  keeps : ∀ s t, Keeps s (next s t)
  takes : ∀ s t, FramesOk s.pages → (next s t).shortages = s.shortages →
    ∃ a, TakenFrame s (next s t) a

theorem copyTable_takes (d : ℕ) : Takes (fun s t => (copyTable d s t).1) := by
  constructor
  case copies => exact copyTable_copies d
  case keeps => exact fun s t => steady_copyTable keeps_steady d s t
  case takes =>
    intro s t hf hok
    cases d with
    | zero =>
      obtain ⟨_,hu,ht,_⟩ := copyLevel_fresh copies_none hf hok
      exact ⟨_,hu,ht⟩
    | succ d =>
      obtain ⟨_,hu,ht,_⟩ := copyLevel_fresh (copyTable_copies d) hf hok
      exact ⟨_,hu,ht⟩

variable {s : Machine}

section
variable {next : Machine → Word → Machine} (hnext : Takes next) {source n : Word} {s₀ : Machine}
  (hf : FramesOk s₀.pages) (hu : Unused s₀.pages n) (hal : Aligned source)
  (hsrc : ∀ b, Unused s₀.pages b → frameOf source ≠ frameOf b) {i : Fin 512}
  (hne : entry s₀.mem source i ≠ 0)
include hnext hf hu hal hsrc hne

theorem copyEntry_takes (h : Fresh 0 s₀ s) (ht : ¬ Unused s.pages n)
    (hok : (copyEntry next source n i s).shortages = s.shortages) :
    ∃ a, TakenFrame s (copyEntry next source n i s) a := by
  have hn : Aligned n := (unused_window s₀.pages hf n hu).1
  have h₁ := fresh_setEntry h hn hu ht i (entry s.mem source i)
  have hentry := source_entry hal hsrc h₁ i
  unfold copyEntry at hok ⊢
  dsimp only at hok hentry ⊢
  rw [if_neg (hentry ▸ hne)] at hok ⊢
  exact hnext.takes _ _ (fresh_frames h₁ hf) hok

theorem copyEntries_takes {is : List (Fin 512)} (hi : i ∈ is) (s : Machine) (h : Fresh 0 s₀ s)
    (ht : ¬ Unused s.pages n) (hok : (copyEntries next source n is s).shortages = s.shortages) :
    ∃ a, TakenFrame s (copyEntries next source n is s) a := by
  induction is generalizing s with
  | nil => cases hi
  | cons k is ih =>
    have hle := copyEntry_shortages next hnext.copies source n k s
    have hle' := copyEntries_shortages next hnext.copies source n is (copyEntry next source n k s)
    have hround : Keeps s (copyEntry next source n k s) :=
      steady_copyEntries keeps_steady next hnext.keeps source n [k] s
    have hrest := steady_copyEntries keeps_steady next hnext.keeps source n is
      (copyEntry next source n k s)
    have hstep : copyEntries next source n (k::is) s =
      copyEntries next source n is (copyEntry next source n k s) := rfl
    rw [hstep] at hok ⊢
    have hfs := fresh_frames h hf
    obtain ⟨h₁,ht₁,_⟩ := copyEntry_fresh next hnext.copies source n s₀ hf hu k s h ht (by omega)
    rcases List.mem_cons.mp hi with rfl | hi
    · obtain ⟨a,ha⟩ := copyEntry_takes hnext hf hu hal hsrc hne h ht (by omega)
      exact ⟨a,taken_within s s _ _ hfs (keeps_same s s rfl) hrest
        (fresh_frames h₁ hf) a ha⟩
    · obtain ⟨a,ha⟩ := ih hi _ h₁ ht₁ (by omega)
      exact ⟨a,taken_within s _ _ _ hfs hround (keeps_same _ _ rfl)
        (framesOk_congr (hrest (fresh_frames h₁ hf)).addresses (fresh_frames h₁ hf)) a ha⟩

end

theorem taken_alloc {pages : List Page} (ha : Unused pages a)
    (ht : ¬ Unused (physMemAlloc pages).1 a) : a = (physMemAlloc pages).2 := by
  obtain ⟨q,hq,rfl,hfree⟩ := ha
  rcases alloc_cases pages with ⟨hall,_⟩ | ⟨us,p,vs,rfl,hus,_,he⟩
  · rw [hall q hq] at hfree
    cases hfree
  · rw [he] at ht ⊢
    rcases List.mem_append.mp hq with hq | hq
    · rw [hus q hq] at hfree
      cases hfree
    · rcases List.mem_cons.mp hq with rfl | hq
      · rfl
      · exact absurd ⟨q,by simp [hq],rfl,hfree⟩ ht

section
variable {s : Machine} {root : Word} (h : Tree s root)
  (hok : (copyPageTables s root 4).1.shortages = s.shortages)
include h hok

theorem copy_alloc : (alloc s).2 ≠ 0 ∧ (alloc s).1.shortages = s.shortages ∧
    (copyPageTables s root 4).2 = (alloc s).2 := by
  have hle := alloc_shortages s
  have hlevel := copyEntries_shortages _ (copyTable_copies 2) root (alloc s).2 (List.finRange 512)
    (alloc s).1
  rw [copyPageTables_four, copyLevel] at hok
  dsimp only at hok
  have hshort : (alloc s).1.shortages = s.shortages := by omega
  have hwindow := unused_window s.pages h.frames _ (alloc_unused s.pages (hle.2 hshort))
  exact ⟨hle.2 hshort,hshort,by rw [copyPageTables_root]; exact alias_strip hwindow.2⟩

theorem copy_loses {i : Fin 512} (hne : tables s.mem (frameOf root) i ≠ 0) :
    ∃ a, TakenFrame s (copyPageTables s root 4).1 a ∧
      ¬ Reached child (tables (copyPageTables s root 4).1.mem)
        (treeAt (copyPageTables s root 4).2) (frameOf a) := by
  obtain ⟨ha,hshort,hroot⟩ := copy_alloc h hok
  have hloop : (copyPageTables s root 4).1 = copyEntries (fun s t => (copyTable 2 s t).1) root
      (alloc s).2 (List.finRange 512) (alloc s).1 := by rw [copyPageTables_four, copyLevel]
  have hentry : entry s.mem root i ≠ 0 := by rwa [entry_eq _ _ h.aligned]
  have hu : Unused s.pages (alloc s).2 := alloc_unused s.pages ha
  obtain ⟨a,hfree,htaken⟩ := copyEntries_takes (copyTable_takes 2) h.frames hu h.aligned
    (tree_root h) hentry (List.mem_finRange i) _ (fresh_alloc s h.frames ha)
    (alloc_taken h.frames ha) (by rw [← hloop, hok, hshort])
  obtain ⟨hunused,hlater⟩ := unused_alloc s.pages h.frames ha a hfree
  refine ⟨a,⟨hunused,by rw [hloop]; exact htaken⟩,fun hr => ?_⟩
  have he := copy_reached h hok hunused hr
  rw [hroot] at he
  rw [he] at hlater
  exact lt_irrefl _ hlater

theorem copy_empty (hz : ∀ j, tables s.mem (frameOf root) j = 0)
    (ha : TakenFrame s (copyPageTables s root 4).1 a) : a = (copyPageTables s root 4).2 := by
  obtain ⟨hne,_,hroot⟩ := copy_alloc h hok
  have hu := alloc_unused s.pages hne
  obtain ⟨m,hm⟩ := copyEntries_empty (fun s t => (copyTable 2 s t).1) root (alloc s).2 h.aligned
    (alloc_aligned h.frames) (tree_root h _ hu) (List.finRange 512) (alloc s).1 hz
  rw [copyPageTables_four, copyLevel, hm] at ha
  rw [hroot]
  exact taken_alloc ha.1 ha.2

/-- The copy is faithful unless the root leads to tables that are copied too. -/
theorem copy_faithful_iff : FaithfulCopy s root (copyPageTables s root 4).1
    (copyPageTables s root 4).2 ↔ ∀ j, tables s.mem (frameOf root) j = 0 := by
  constructor
  · intro hfaithful j
    by_contra hne
    obtain ⟨a,htaken,hlost⟩ := copy_loses h hok hne
    exact hlost (hfaithful.reachable a htaken)
  · intro hz
    constructor
    case source =>
      obtain ⟨hw,_⟩ := copyPageTables_fresh s root h.frames h.aligned (tree_root h) hok
      exact fun p j hp => tree_entry h hw j hp
    case walks => exact copy_walk h hok
    case reachable =>
      intro a ha
      rw [copy_empty h hok hz ha]
      exact ⟨_,[],⟨rfl,Nat.zero_le 3⟩,rfl⟩

end

/-- The kernel's root in frame `0x8000`, without entries. -/
theorem copy_faithful_iff_first :
    FaithfulCopy firstBoot.machine 0x8000 (copyPageTables firstBoot.machine 0x8000 4).1
      (copyPageTables firstBoot.machine 0x8000 4).2 := by
  have htree : Tree firstBoot.machine 0x8000 := by
    refine ⟨firstBoot_boot.frames,by decide,?_⟩
    intro a ha hr
    exact firstBoot_boot.outside a ha hr
  obtain ⟨m,hm⟩ := copyEntries_empty (fun s t => (copyTable 2 s t).1) 0x8000
    (alloc firstBoot.machine).2 (by decide) (by decide) (by decide) (List.finRange 512)
    (alloc firstBoot.machine).1 (fun j => blank_tables _ j)
  have hok : (copyPageTables firstBoot.machine 0x8000 4).1.shortages =
      firstBoot.machine.shortages := by
    rw [copyPageTables_four, copyLevel, hm]
    rfl
  exact (copy_faithful_iff htree hok).mpr (fun j => blank_tables _ j)

def oneTable : Machine :=
  { firstBoot.machine with mem := setEntry firstBoot.machine.mem 0x8000 511 0x9003 }

theorem oneTable_tables (u : ℕ) (j : Fin 512) : tables oneTable.mem u j =
    if u = frameOf 0x8000 ∧ j = 511 then 0x9003 else 0 := by
  have hput := congrFun (congrFun (tables_setEntry firstBoot.machine.mem 0x8000 511 0x9003
    (by decide)) u) j
  refine hput.trans ?_
  rw [put]
  exact if_congr Iff.rfl rfl (blank_tables u j)

theorem oneTable_reached {u : ℕ}
    (h : Reached child (tables oneTable.mem) (treeAt 0x8000) u) :
    u = frameOf 0x8000 ∨ u = frameOf 0x9000 := by
  obtain ⟨r,p,⟨rfl,_⟩,hd⟩ := h
  have hnone : child 0 = none := child_absent (by decide)
  have hsome : child 0x9003 = some (frameOf 0x9000) := child_present (by decide)
  match p with
  | [] => exact Or.inl (Option.some.inj hd).symm
  | [i] =>
    rw [descend, oneTable_tables] at hd
    split_ifs at hd
    · rw [hsome] at hd
      exact Or.inr (Option.some.inj hd).symm
    · rw [hnone] at hd
      cases hd
  | i::k::p =>
    rw [descend, oneTable_tables] at hd
    split_ifs at hd
    · rw [hsome, Option.bind_some, descend, oneTable_tables,
        if_neg (fun he => absurd he.1 (by decide)), hnone] at hd
      cases hd
    · rw [hnone] at hd
      cases hd

theorem oneTable_tree : Tree oneTable 0x8000 := by
  refine ⟨firstBoot_boot.frames,by decide,?_⟩
  intro a ha hr
  have hmem := unused_address ha
  have hframe := oneTable_reached hr
  simp only [oneTable, firstBoot, addresses, List.map_cons, List.map_nil, List.mem_cons,
    List.not_mem_nil, or_false] at hmem
  rcases hmem with rfl | rfl | rfl | rfl | rfl | rfl | rfl <;> simp [frameOf_eq] at hframe

theorem asks_bare (d : ℕ) {t : Word} (hf : FramesOk s.pages) (hal : Aligned t)
    (hsrc : ∀ b, Unused s.pages b → frameOf t ≠ frameOf b)
    (hz : ∀ j, tables s.mem (frameOf t) j = 0) : Asks 1 s (copyTable (d+1) s t).1 := by
  have hentry : ∀ i, entry s.mem t i = 0 := fun i => (entry_eq _ _ hal).trans (hz i)
  have hcount : ∀ s' i, Fresh 0 s s' → entry s.mem t i ≠ 0 →
      Asks ((fun _ : Fin 512 => 0) i) s' (copyTable d s' (tableOf s.mem t i)).1 :=
    fun _ i _ hne => absurd (hentry i) hne
  have hlevel := asks_copyLevel (copyTable_copies d) hf hal hsrc hcount
  simp only [ite_self, List.map_const', List.sum_replicate, smul_zero, Nat.add_zero] at hlevel
  exact hlevel

/-- A copy takes a frame for the root and one for the table below, also when
other copies have been made before. -/
theorem oneTable_asks (hw : Fresh 0 oneTable s) : Asks 2 s (copyPageTables s 0x8000 4).1 := by
  have h := oneTable_tree
  have hreached : Reached child (tables oneTable.mem) (treeAt 0x8000) (frameOf 0x9000) := by
    refine ⟨_,[511],⟨rfl,by decide⟩,?_⟩
    rw [descend, oneTable_tables, if_pos ⟨rfl,rfl⟩, child_present (by decide)]
    rfl
  have hentry : ∀ i, entry s.mem 0x8000 i = if i = 511 then 0x9003 else 0 := by
    intro i
    rw [entry_eq _ _ h.aligned, tree_agree h hw _ ⟨_,[],⟨rfl,by decide⟩,rfl⟩, oneTable_tables]
    simp only [true_and]
  have hbelow : ∀ s' i, Fresh 0 s s' → entry s.mem 0x8000 i ≠ 0 →
      Asks 1 s' (copyTable 2 s' (tableOf s.mem 0x8000 i)).1 := by
    intro s' i hw' hne
    have hboth := fresh_trans hw hw'
    have htable : tableOf s.mem 0x8000 i = 0x9000 := by
      rw [hentry] at hne
      rw [tableOf, hentry]
      split_ifs at hne ⊢
      · decide
      · exact absurd rfl hne
    rw [htable]
    apply asks_bare 1 (fresh_frames hboth h.frames) (by decide)
    · exact fun b hb he => h.used b (hboth.unused b hb) (he ▸ hreached)
    · intro j
      rw [tree_agree h hboth _ hreached, oneTable_tables, if_neg (fun he => absurd he.1 (by decide))]
  have hasks := asks_copyLevel (copyTable_copies 2) (fresh_frames hw h.frames) h.aligned
    (fun b hb => tree_root h b (hw.unused b hb)) hbelow
  have hcount : ((List.finRange 512).map (fun i => if (if i = 511 then (0x9003 : Word) else 0) = 0
      then 0 else 1)).sum = 1 := by decide +kernel
  simp only [hentry] at hasks
  rw [hcount] at hasks
  rw [copyPageTables_four]
  exact hasks

theorem oneTable_supplied : (copyPageTables oneTable 0x8000 4).1.shortages = oneTable.shortages :=
  ((oneTable_asks (fresh_refl 0 oneTable)).enough (by decide)).1

/-- The copy of the table below is lost. -/
theorem copied_table_is_lost : Tree oneTable 0x8000 ∧
    (copyPageTables oneTable 0x8000 4).1.shortages = oneTable.shortages ∧
    ¬ FaithfulCopy oneTable 0x8000 (copyPageTables oneTable 0x8000 4).1
      (copyPageTables oneTable 0x8000 4).2 := by
  refine ⟨oneTable_tree,oneTable_supplied,fun hfaithful => ?_⟩
  obtain ⟨a,htaken,hlost⟩ := copy_loses oneTable_tree oneTable_supplied (by
    rw [oneTable_tables, if_pos ⟨rfl,rfl⟩]
    decide)
  exact hlost (hfaithful.reachable a htaken)

theorem oneTable_boot : Boot ⟨oneTable,[]⟩ := by
  constructor
  case roots => rfl
  case frames => exact oneTable_tree.frames
  case aligned => exact oneTable_tree.aligned
  case empty =>
    intro j hj
    rw [oneTable_tables, if_neg (fun h => hj h.2)]
  case outside => exact oneTable_tree.used

theorem spawn_good {x : Spaces} (hw : Fresh 0 oneTable x.machine)
    (hfree : 2 ≤ freeCount x.machine.pages) :
    Good .spawn x ∧ Fresh 0 oneTable (step .spawn x).machine ∧
      freeCount (step .spawn x).machine.pages = freeCount x.machine.pages-2 := by
  have h := oneTable_tree
  have hroot : x.machine.pml4 = 0x8000 := hw.root
  obtain ⟨hok,hcount⟩ := (oneTable_asks hw).enough hfree
  have hfresh := (copyPageTables_fresh x.machine 0x8000 (fresh_frames hw h.frames) h.aligned
    (fun b hb => tree_root h b (hw.unused b hb)) hok).1
  rw [Good, step_spawn, hroot]
  dsimp only
  exact ⟨⟨trivial,hok⟩,fresh_trans hw hfresh,hcount⟩

/-- Two address spaces over a kernel half with a table: a page that is mapped in
one of them changes no walk of the other. -/
theorem address_spaces_isolated_run : ∃ x y z, run [.spawn,.spawn] ⟨oneTable,[]⟩ = x ∧
    x.roots = [y,z] ∧ y ≠ z ∧
    (∀ v, getIndexOfPml4 v = 511 →
      walkPml4 x.machine.mem z v = walkPml4 x.machine.mem x.machine.pml4 v) ∧
    ∀ v, walkPml4 (step (.map y 0x400000 0xb000 7 false) x).machine.mem z v =
      walkPml4 x.machine.mem z v := by
  obtain ⟨hg₁,hw₁,hc₁⟩ := spawn_good (show Fresh 0 oneTable (Spaces.mk oneTable []).machine from
    fresh_refl 0 oneTable) (by decide)
  obtain ⟨hg₂,hw₂,hc₂⟩ := spawn_good hw₁ (by rw [hc₁]; decide)
  have hnew := (Ownership.spawn_coherent (step_held (boot_held oneTable_boot) hg₁) hg₂.2).2.1
  obtain ⟨hhalf,hothers⟩ := address_spaces_isolated ⟨oneTable,[]⟩ oneTable_boot [.spawn,.spawn]
    ⟨hg₁,hg₂,trivial⟩
  have hrun : run [.spawn,.spawn] ⟨oneTable,[]⟩ = step .spawn (step .spawn ⟨oneTable,[]⟩) := rfl
  have hroots : (step .spawn (step .spawn ⟨oneTable,[]⟩)).roots =
      [(copyPageTables (step .spawn ⟨oneTable,[]⟩).machine
        (step .spawn ⟨oneTable,[]⟩).machine.pml4 4).2,(copyPageTables oneTable 0x8000 4).2] := rfl
  have hframes := fresh_frames hw₂ oneTable_tree.frames
  rw [hrun] at hhalf hothers ⊢
  rw [hc₁] at hc₂
  generalize step .spawn (step .spawn ⟨oneTable,[]⟩) = x at *
  generalize (copyPageTables (step .spawn ⟨oneTable,[]⟩).machine
    (step .spawn ⟨oneTable,[]⟩).machine.pml4 4).2 = y at *
  have hne : y ≠ (copyPageTables oneTable 0x8000 4).2 := List.ne_of_not_mem_cons hnew
  generalize (copyPageTables oneTable 0x8000 4).2 = z at *
  have hmap := map_supplied clearTableExactly 0 x.machine x.machine 0x400000 0xb000 7 y false
    ⟨hframes,rfl,by rw [hc₂]; decide⟩
  have hgood : Good (.map y 0x400000 0xb000 7 false) x :=
    ⟨⟨by simp [hroots],by decide,by decide,by decide⟩,hmap.2.1⟩
  refine ⟨x,y,z,rfl,hroots,hne,hhalf z (by simp [hroots]),fun v => ?_⟩
  exact hothers _ hgood z v (Or.inl (by simp [hroots])) (fun he => hne (Option.some.inj he))

end PreemptiveOS.TableCopies
