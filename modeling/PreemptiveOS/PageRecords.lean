import PreemptiveOS.VirtMmgr

/-!
# Page records that outlive allocations

Between two points of the kernel's work the page array has changed by some
allocations. A used record with a count keeps it, whatever was allocated; a
record that was unused and without a count is as before or has been taken
once. Mapping a page and copying a root are such work.
-/

set_option autoImplicit false

namespace PreemptiveOS.PageRecords
open ByteMemory PhysMmgr VirtMmgr

structure Steady (R : Machine → Machine → Prop) : Prop where
  same : ∀ s s', s'.pages = s.pages → s'.shortages = s.shortages → R s s'
  trans : ∀ s s₁ s₂, R s s₁ → R s₁ s₂ → R s s₂
  alloc : ∀ s, R s (VirtMmgr.alloc s).1

theorem last_records (b : Bool) (s : Machine) {t : Word} (p f cr3 : Word) (i : Fin 512) :
    (setPml4 (if b then s else setLeaf s t i p f) cr3).pages = s.pages ∧
    (setPml4 (if b then s else setLeaf s t i p f) cr3).shortages = s.shortages := by
  cases b with
  | true => exact ⟨rfl,rfl⟩
  | false => exact ⟨rfl,rfl⟩

section
variable {R : Machine → Machine → Prop} (h : Steady R)
include h

theorem steady_ensureTable (clear : Mem → ℕ → Mem) (s : Machine) (table : Word) (i : Fin 512)
    (flags : Word) : R s (ensureTable clear s table i flags) := by
  unfold ensureTable
  split_ifs
  · exact h.same s s rfl rfl
  · exact h.trans _ _ _ (h.alloc s) (h.same _ _ rfl rfl)

theorem steady_map (clear : Mem → ℕ → Mem) (s : Machine) (v p : Word) (flags : BitVec 32)
    (cr3 : Word) (b : Bool) : R s (mapVirtualAddressToPhysicalAddress clear s v p flags cr3 b) := by
  unfold mapVirtualAddressToPhysicalAddress
  split
  · exact h.same s s rfl rfl
  split
  · exact h.same s s rfl rfl
  · dsimp only
    apply h.trans _ _ _ (steady_ensureTable h clear s _ _ _)
    apply h.trans _ _ _ (steady_ensureTable h clear _ _ _ _)
    apply h.trans _ _ _ (steady_ensureTable h clear _ _ _ _)
    obtain ⟨hpages,hshort⟩ := last_records b _ p (flags.setWidth 64) cr3 (getIndexOfPt v)
    exact h.same _ _ hpages hshort

theorem steady_copyEntries (next : Machine → Word → Machine) (hnext : ∀ s t, R s (next s t))
    (source n : Word) (is : List (Fin 512)) (s : Machine) :
    R s (copyEntries next source n is s) := by
  induction is generalizing s with
  | nil => exact h.same s s rfl rfl
  | cons i is ih =>
    have hset : R s { s with mem := setEntry s.mem n i (entry s.mem source i) } :=
      h.same _ _ rfl rfl
    rw [copyEntries]
    dsimp only
    split_ifs
    · exact h.trans _ _ _ hset (ih _)
    · exact h.trans _ _ _ hset (h.trans _ _ _ (hnext _ _) (ih _))

theorem steady_copyLevel {next : Machine → Word → Machine} (hnext : ∀ s t, R s (next s t))
    (s : Machine) (table : Word) : R s (copyLevel next s table).1 := by
  have ha := h.alloc s
  rw [copyLevel]
  generalize List.finRange 512 = is
  exact h.trans _ _ _ ha (steady_copyEntries h next hnext table _ is _)

theorem steady_copyTable (d : ℕ) (s : Machine) (t : Word) : R s (copyTable d s t).1 := by
  induction d generalizing s t with
  | zero => exact steady_copyLevel h (fun s _ => h.same s s rfl rfl) s t
  | succ d ih => exact steady_copyLevel h ih s t

theorem steady_copyPageTables (s : Machine) (root : Word) : R s (copyPageTables s root 4).1 := by
  have hcopy := steady_copyTable h 3 s root
  rw [copyPageTables]
  generalize copyTable 3 s root = c at *
  exact hcopy

end

structure Later (pages pages' : List Page) : Prop where
  addresses : addresses pages' = addresses pages
  counted : ∀ a p, pageOf pages a = some p → p.isFreePage = true → p.referenceCount ≠ 0 →
    pageOf pages' a = some p
  used : ∀ a p, pageOf pages a = some p → p.isFreePage = true →
    ∃ q, pageOf pages' a = some q ∧ q.isFreePage = true
  unused : ∀ a p, pageOf pages a = some p → p.isFreePage = false → p.referenceCount = 0 →
    pageOf pages' a = some p ∨ pageOf pages' a = some (taken p)

theorem later_refl (pages : List Page) : Later pages pages :=
  ⟨rfl,fun _ _ h _ _ => h,fun _ p h hu => ⟨p,h,hu⟩,fun _ _ h _ _ => Or.inl h⟩

variable {pages : List Page}

theorem later_trans {pages₁ pages₂ : List Page} (h : Later pages pages₁)
    (h' : Later pages₁ pages₂) : Later pages pages₂ := by
  constructor
  · exact h'.addresses.trans h.addresses
  · exact fun a p hp hu hc => h'.counted a p (h.counted a p hp hu hc) hu hc
  · intro a p hp hu
    obtain ⟨q,hq,hqu⟩ := h.used a p hp hu
    exact h'.used a q hq hqu
  · intro a p hp hu hc
    rcases h.unused a p hp hu hc with hsame | htaken
    · exact h'.unused a p hsame hu hc
    · right
      apply h'.counted a (taken p) htaken rfl
      show p.referenceCount+1 ≠ 0
      rw [hc]
      decide

theorem repaired_counted {p : Page} (h : p.referenceCount ≠ 0) : repaired p = p := if_neg h

theorem later_repaired (hall : ∀ p ∈ pages, p.isFreePage = true) :
    Later pages (pages.map repaired) := by
  have hmap := pageOf_map repaired_address pages
  constructor
  · have hr : Page.physAddrOfPage ∘ repaired = Page.physAddrOfPage := funext repaired_address
    simp only [PhysMmgr.addresses, List.map_map, hr]
  · intro a p hp _ hc
    rw [hmap, hp, Option.map_some, repaired_counted hc]
  · intro a p hp hu
    exact ⟨repaired p,by rw [hmap, hp, Option.map_some],(repaired_used p).trans hu⟩
  · intro a p hp hu
    rw [hall p (pageOf_mem pages a p hp)] at hu
    exact absurd hu (by decide)

theorem later_alloc (hk : FramesOk pages) : Later pages (physMemAlloc pages).1 := by
  by_cases hf : (physMemAlloc pages).2 = 0
  · rcases alloc_cases pages with ⟨hall,he⟩ | ⟨us,p,vs,rfl,_,_,he⟩
    · rw [he]
      exact later_repaired hall
    · have hpos := (hk.window p.physAddrOfPage (by simp [PhysMmgr.addresses])).1
      rw [he] at hf
      rw [show p.physAddrOfPage = 0 from hf] at hpos
      exact absurd hpos (by decide)
  · obtain ⟨⟨p₀,hp₀,hfree₀,htaken⟩,hrest⟩ := pageOf_alloc (framesOk_nodup hk) hf
    constructor
    · exact addresses_alloc pages
    · intro a p hp hu hc
      have hne : a ≠ (physMemAlloc pages).2 := by
        rintro rfl
        rw [hp₀] at hp
        rw [← Option.some.inj hp, hfree₀] at hu
        exact absurd hu (by decide)
      rcases hrest a hne with hsame | ⟨q,hq,_,hrep⟩
      · rw [hsame, hp]
      · rw [hp] at hq
        rw [hrep, ← Option.some.inj hq, repaired_counted hc]
    · intro a p hp hu
      by_cases hne : a = (physMemAlloc pages).2
      · exact ⟨taken p₀,hne ▸ htaken,rfl⟩
      · rcases hrest a hne with hsame | ⟨q,hq,hqu,hrep⟩
        · exact ⟨p,hsame.trans hp,hu⟩
        · exact ⟨repaired q,hrep,(repaired_used q).trans hqu⟩
    · intro a p hp hu _
      by_cases hne : a = (physMemAlloc pages).2
      · right
        rw [hne, hp₀] at hp
        rw [hne, htaken, Option.some.inj hp]
      · rcases hrest a hne with hsame | ⟨q,hq,hqu,_⟩
        · exact Or.inl (hsame.trans hp)
        · rw [hp] at hq
          rw [← Option.some.inj hq, hu] at hqu
          exact absurd hqu (by decide)

theorem pageOf_unused (pages : List Page) (hk : FramesOk pages) (a : Word) (h : Unused pages a) :
    ∃ p, pageOf pages a = some p ∧ p.isFreePage = false := by
  obtain ⟨p,hp,rfl,hfree⟩ := h
  exact ⟨p,pageOf_some (framesOk_nodup hk) hp,hfree⟩

theorem later_unused (pages pages' : List Page) (hk : FramesOk pages) (h : Later pages pages')
    (a : Word) (ha : Unused pages' a) : Unused pages a := by
  obtain ⟨q,hq,hqfree⟩ := pageOf_unused pages' (framesOk_congr h.addresses hk) a ha
  have hmem := unused_address ha
  rw [h.addresses] at hmem
  obtain ⟨p,hp,rfl⟩ := List.mem_map.mp hmem
  refine ⟨p,hp,rfl,?_⟩
  have hpo := pageOf_some (framesOk_nodup hk) hp
  by_contra hused
  obtain ⟨q',hq',hqu⟩ := h.used _ p hpo (by simpa using hused)
  rw [hq] at hq'
  rw [← Option.some.inj hq', hqfree] at hqu
  exact absurd hqu (by decide)

def TakenFrame (s s' : Machine) (a : Word) : Prop := Unused s.pages a ∧ ¬ Unused s'.pages a

def Keeps (s s' : Machine) : Prop := FramesOk s.pages → Later s.pages s'.pages

theorem keeps_same (s s' : Machine) (h : s'.pages = s.pages) : Keeps s s' := by
  intro _
  rw [h]
  exact later_refl s.pages

theorem keeps_trans (s s₁ s₂ : Machine) (h : Keeps s s₁) (h' : Keeps s₁ s₂) : Keeps s s₂ := by
  intro hf
  have hl := h hf
  exact later_trans hl (h' (framesOk_congr hl.addresses hf))

theorem taken_within (s s₁ s₂ s' : Machine) (hf : FramesOk s.pages) (h : Keeps s s₁)
    (h' : Keeps s₂ s') (hf₂ : FramesOk s₂.pages) (a : Word) (ha : TakenFrame s₁ s₂ a) :
    TakenFrame s s' a :=
  ⟨later_unused _ _ hf (h hf) a ha.1,fun hu => ha.2 (later_unused _ _ hf₂ (h' hf₂) a hu)⟩

theorem keeps_alloc (s : Machine) (m : Mem) : Keeps s { (alloc s).1 with mem := m } :=
  fun hf => later_alloc hf

theorem keeps_steady : Steady Keeps := by
  constructor
  case same => exact fun s s' hp _ => keeps_same s s' hp
  case trans => exact keeps_trans
  case alloc => exact fun s => keeps_alloc s s.mem

theorem keeps_map (clear : Mem → ℕ → Mem) (s : Machine) (v p : Word) (flags : BitVec 32)
    (cr3 : Word) (b : Bool) : Keeps s (mapVirtualAddressToPhysicalAddress clear s v p flags cr3 b) :=
  steady_map keeps_steady clear s v p flags cr3 b

theorem keeps_copyPageTables (s : Machine) (root : Word) :
    Keeps s (copyPageTables s root 4).1 := steady_copyPageTables keeps_steady s root

end PreemptiveOS.PageRecords
