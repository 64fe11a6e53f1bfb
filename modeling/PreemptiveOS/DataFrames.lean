import PreemptiveOS.Ownership

/-!
# Frames that hold data

A frame taken for data is not a table, and must not become one while it is
written to. It joins the domain as a root with nothing below it: keeping the
larger forest separate then says that no table is at that frame, and a write
to it leaves the smaller forest and all its entries as they are.
-/

set_option autoImplicit false

namespace PreemptiveOS.DataFrames
open ByteMemory PhysMmgr TableForest VirtMmgr PageTree Ownership

def withFrame (dom : Domain) (k : ℕ) : Domain := fun r p => dom r p ∨ r = k ∧ p = []

def WritesFrame (k : ℕ) (m m' : Mem) : Prop := ∀ x, x/4096 ≠ k → m' x = m x

variable {m m' : Mem} {k u : ℕ}

theorem writesFrame_tables (h : WritesFrame k m m') (hu : u ≠ k) (j : Fin 512) :
    tables m' u j = tables m u j := by
  apply load_congr
  intro i hi
  exact h _ (by omega)

theorem writesFrame_trans {m₁ m₂ : Mem} (h : WritesFrame k m m₁) (h' : WritesFrame k m₁ m₂) :
    WritesFrame k m m₂ := fun x hx => (h' x hx).trans (h x hx)

theorem fill_writesFrame (m : Mem) {n : ℕ} (c : Byte) (hn : n ≤ 4096) :
    WritesFrame k m (fill m (4096*k) n c) := by
  intro x hx
  rw [fill, if_neg (by omega)]

variable {s : Machine} {margin : ℕ} {σ : ℕ → Fin 512 → Word}

section
variable {dom : Domain} (hc : PrefixClosed dom)
include hc

theorem withFrame_closed (k : ℕ) : PrefixClosed (withFrame dom k) := by
  rintro r p q (h | ⟨hr,hp⟩)
  · exact Or.inl (hc r p q h)
  · exact Or.inr ⟨hr,(List.append_eq_nil_iff.mp hp).1⟩

theorem withFrame_bare (hk : ¬ Reached child σ dom k) (p : List (Fin 512)) (t : ℕ)
    (hd : withFrame dom k k p) (_ : descend child σ k p = some t) : p = [] := by
  rcases hd with hd | ⟨_,hp⟩
  · exact absurd ⟨k,[],hc k [] p hd,rfl⟩ hk
  · exact hp

theorem withFrame_reached (hk : ¬ Reached child σ dom k)
    (hu : Reached child σ (withFrame dom k) u) : u = k ∨ Reached child σ dom u :=
  reached_root child _ _ _ _ (fun _ _ h => h.imp id And.left) (withFrame_bare hc hk) hu

/-- Setting a used frame aside that holds no table. No frame still to be taken
may come within the margin of it. -/
theorem forest_aside (hs : Forest dom margin s) (hn : ¬ Reached child (tables s.mem) dom k)
    (hout : ∀ b, Unused s.pages b → ∀ d ≤ margin, frameOf b+d ≠ k) :
    Forest (withFrame dom k) margin s := by
  refine ⟨?_,hs.frames,?_⟩
  · exact separate_root child _ _ _ _ (fun _ _ h => h.imp id And.left)
      (withFrame_bare hc hn) hn hs.separate
  · intro b hb d hd hr
    rcases withFrame_reached hc hn hr with he | hr
    · exact hout b hb d hd he
    · exact hs.outside b hb d hd hr

omit hc in
theorem forest_alloc (hs : Forest dom margin s) (ha : (alloc s).2 ≠ 0) :
    Forest dom margin (alloc s).1 :=
  ⟨hs.separate,framesOk_congr (addresses_alloc s.pages) hs.frames,
    fun b hb => hs.outside b (unused_alloc s.pages hs.frames ha b hb).1⟩

omit hc in
theorem alloc_below (s : Machine) (hf : FramesOk s.pages) (ha : (alloc s).2 ≠ 0) (b : Word)
    (hb : Unused (alloc s).1.pages b) : frameOf (alloc s).2 < frameOf b := by
  obtain ⟨hbu,hlt⟩ := unused_alloc s.pages hf ha b hb
  obtain ⟨hba,hbw⟩ := unused_window s.pages hf b hbu
  exact frameOf_lt (unused_window s.pages hf _ (alloc_unused s.pages ha)).1 hba hbw hlt

theorem forest_guard (hs : Forest dom margin s) (ha : (alloc s).2 ≠ 0) :
    Forest (withFrame dom (frameOf (alloc s).2)) margin (alloc s).1 ∧
    ¬ dom (frameOf (alloc s).2) [] := by
  have hn : ¬ Reached child (tables s.mem) dom (frameOf (alloc s).2) := by
    simpa using hs.outside (alloc s).2 (alloc_unused s.pages ha) 0 (Nat.zero_le _)
  refine ⟨forest_aside hc (forest_alloc hs ha) hn ?_,
    fun h => hn ⟨_,[],h,rfl⟩⟩
  intro b hb d _ he
  have := alloc_below s hs.frames ha b hb
  omega

theorem forest_agree (hs : Forest dom margin s)
    (hagree : ∀ u, Reached child (tables s.mem) dom u → ∀ j, tables m' u j = tables s.mem u j) :
    Forest dom margin { s with mem := m' } ∧
    ∀ r p j, dom r p → entryAt child (tables m') r p j = entryAt child (tables s.mem) r p j := by
  have hdesc := descend_agree child _ _ dom hc hagree
  refine ⟨⟨?_,hs.frames,?_⟩,fun r p j hp => entryAt_agree child _ _ dom hc hagree r p hp j⟩
  · exact separate_of_same child hdesc hs.separate
  · intro a ha d hd hr
    rw [reached_of_same child _ _ dom hdesc] at hr
    exact hs.outside a ha d hd hr

omit hc in
theorem guarded_not_reached (hs : Forest (withFrame dom k) margin s) (hk : ¬ dom k []) :
    ¬ Reached child (tables s.mem) dom k := by
  rintro ⟨r,p,hd,ht⟩
  obtain ⟨rfl,rfl⟩ := hs.separate r p k [] k (Or.inl hd) (Or.inr ⟨rfl,rfl⟩) ht rfl
  exact hk hd

omit hc in
theorem guarded_agree (margin k : ℕ) (s : Machine) (m' : Mem)
    (hs : Forest (withFrame dom k) margin s) (hk : ¬ dom k []) (hw : WritesFrame k s.mem m')
    (u : ℕ) (hu : Reached child (tables s.mem) dom u) (j : Fin 512) :
    tables m' u j = tables s.mem u j :=
  writesFrame_tables hw (fun he => guarded_not_reached hs hk (he ▸ hu)) j

theorem forest_write (hs : Forest (withFrame dom k) margin s) (hk : ¬ dom k [])
    (hw : WritesFrame k s.mem m') : Forest dom margin { s with mem := m' } ∧
    ∀ r p j, dom r p → entryAt child (tables m') r p j = entryAt child (tables s.mem) r p j := by
  have hsmall : Forest dom margin s := by
    refine ⟨?_,hs.frames,?_⟩
    · intro r p r' p' t hd hd'
      exact hs.separate r p r' p' t (Or.inl hd) (Or.inl hd')
    · rintro a ha d hd ⟨r,p,hdp,ht⟩
      exact hs.outside a ha d hd ⟨r,p,Or.inl hdp,ht⟩
  exact forest_agree hc hsmall (guarded_agree margin k s m' hs hk hw)

theorem forest_refill (hs : Forest (withFrame dom k) margin s) (hk : ¬ dom k [])
    (hw : WritesFrame k s.mem m') : Forest (withFrame dom k) margin { s with mem := m' } := by
  obtain ⟨hforest,_⟩ := forest_write hc hs hk hw
  have hdesc := descend_agree child _ _ dom hc (guarded_agree margin k s m' hs hk hw)
  have hnot : ¬ Reached child (tables m') dom k := by
    rw [reached_of_same child _ _ dom hdesc]
    exact guarded_not_reached hs hk
  apply forest_aside hc hforest hnot
  intro b hb d hd he
  exact hs.outside b hb d hd ⟨k,[],Or.inr ⟨rfl,rfl⟩,congrArg some he.symm⟩

end

theorem owned_guard (kernel : ℕ → Prop) (roots : List Word) (k : ℕ) :
    owned (fun u => kernel u ∨ u = k) roots = withFrame (owned kernel roots) k := by
  funext r p
  apply propext
  simp only [owned, withFrame, or_and_right, or_assoc]

section
variable {kernel : ℕ → Prop} {margin : ℕ} {roots : List Word} {s : Machine}

theorem coherent_aside (h : Coherent kernel margin roots s)
    (hforest : Forest (withFrame (owned kernel roots) k) margin s)
    (hroot : ∀ y ∈ roots, frameOf y ≠ k) : Coherent (fun u => kernel u ∨ u = k) margin roots s := by
  constructor
  case forest =>
    rw [owned_guard]
    exact hforest
  case tables => exact fun u hu => Or.inl (h.tables u hu)
  case apart =>
    rintro y hy (hky | he)
    · exact h.apart y hy hky
    · exact hroot y hy he
  case window => exact h.window
  case aligned => exact h.aligned
  case shared => exact h.shared
  case empty => exact h.empty

theorem coherent_guard (h : Coherent kernel margin roots s) (ha : (alloc s).2 ≠ 0) :
    Coherent kernel margin roots (alloc s).1 ∧
    Coherent (fun u => kernel u ∨ u = frameOf (alloc s).2) margin roots (alloc s).1 ∧
    ¬ kernel (frameOf (alloc s).2) ∧ ∀ y ∈ roots, frameOf y ≠ frameOf (alloc s).2 := by
  obtain ⟨hforest,hnot⟩ := forest_guard (owned_closed kernel roots) h.forest ha
  have hco : Coherent kernel margin roots (alloc s).1 :=
    ⟨forest_alloc h.forest ha,h.tables,h.apart,h.window,h.aligned,h.shared,h.empty⟩
  have hroot : ∀ y ∈ roots, frameOf y ≠ frameOf (alloc s).2 :=
    fun y hy he => hnot (he ▸ owned_root kernel hy)
  exact ⟨hco,coherent_aside hco hforest hroot,fun hk => hnot (Or.inr ⟨hk,rfl⟩),hroot⟩

theorem quiet_agree (h : Coherent kernel margin roots s)
    (hagree : ∀ u, Reached child (tables s.mem) (owned kernel roots) u →
      ∀ j, tables m' u j = tables s.mem u j) :
    Quiet kernel margin roots s (fun _ => False) { s with mem := m' } := by
  obtain ⟨hforest,hent⟩ := forest_agree (owned_closed kernel roots) h.forest hagree
  refine ⟨hforest,rfl,fun _ hf => absurd hf id,fun q p j hp _ => hent q p j hp,?_⟩
  intro y hy
  exact Option.some.inj (hent (frameOf y) [] 511 (owned_root kernel hy))

theorem quiet_write (h : Coherent kernel margin roots s)
    (hg : Coherent (fun u => kernel u ∨ u = k) margin roots s) (hk : ¬ kernel k)
    (hw : WritesFrame k s.mem m') :
    Quiet kernel margin roots s (fun _ => False) { s with mem := m' } := by
  have hnot : ¬ owned kernel roots k [] := by
    rintro (⟨y,hy,he,_⟩ | ⟨hkk,_⟩)
    · exact hg.apart y hy (Or.inr he.symm)
    · exact hk hkk
  have hguard := hg.forest
  rw [owned_guard] at hguard
  exact quiet_agree h (guarded_agree margin k s m' hguard hnot hw)

theorem coherent_write (h : Coherent kernel margin roots s)
    (hg : Coherent (fun u => kernel u ∨ u = k) margin roots s) (hk : ¬ kernel k)
    (hw : WritesFrame k s.mem m') : Coherent kernel margin roots { s with mem := m' } ∧
    ∀ y ∈ roots, ∀ v, leaf m' y v = leaf s.mem y v := by
  have hq := quiet_write h hg hk hw
  exact ⟨quiet_coherent h hq,fun y hy v => quiet_leaf h hq y (Or.inr ⟨hy,id⟩) v⟩

end
end PreemptiveOS.DataFrames
