import PreemptiveOS.Ownership

/-!
# Address spaces over a shared kernel half

Every process root is a copy of the kernel root and shares the kernel's
tables below entry 511. A run creates roots, maps pages and changes flags on
them, at addresses outside entry 511 only. New tables are cleared exactly.
Every step keeps the ownership of the tables and is quiet for all roots but
its own.
-/

set_option autoImplicit false

namespace PreemptiveOS.AddressSpaces
open ByteMemory PhysMmgr TableForest VirtMmgr PageTree FreshFrames Ownership

structure Spaces where
  machine : Machine
  roots : List Word

inductive Op where
  | spawn
  | map (root virtAddr physAddr : Word) (flags : BitVec 32) (isReference : Bool)
  | changeFlags (root virt flags : Word)

def step : Op → Spaces → Spaces
  | .spawn, x => ⟨(copyPageTables x.machine x.machine.pml4 4).1,
      (copyPageTables x.machine x.machine.pml4 4).2::x.roots⟩
  | .map r v p f b, x =>
    { x with machine := mapVirtualAddressToPhysicalAddress clearTableExactly x.machine v p f r b }
  | .changeFlags r v f, x =>
    { x with machine := changeFlagsInParentPageTables x.machine v r f }

def run : List Op → Spaces → Spaces
  | [], x => x
  | op::ops, x => run ops (step op x)

def target : Op → Option Word
  | .spawn => none
  | .map r _ _ _ _ => some r
  | .changeFlags r _ _ => some r

def Allowed : Op → Spaces → Prop
  | .spawn, _ => True
  | .map r v _ f _, x => r ∈ x.roots ∧ getIndexOfPml4 v ≠ 511 ∧
      f.setWidth 64 &&& present = present ∧ f.setWidth 64 &&& addressMask = 0
  | .changeFlags r v f, x => r ∈ x.roots ∧ getIndexOfPml4 v ≠ 511 ∧ f &&& addressMask = 0

def Good (op : Op) (x : Spaces) : Prop :=
  Allowed op x ∧ (step op x).machine.shortages = x.machine.shortages

def Permitted : List Op → Spaces → Prop
  | [], _ => True
  | op::ops, x => Good op x ∧ Permitted ops (step op x)

structure Boot (x : Spaces) : Prop where
  roots : x.roots = []
  frames : FramesOk x.machine.pages
  aligned : Aligned x.machine.pml4
  empty : ∀ j, j ≠ 511 → tables x.machine.mem (frameOf x.machine.pml4) j = 0
  outside : ∀ a, Unused x.machine.pages a →
    ¬ Reached child (tables x.machine.mem) (treeAt x.machine.pml4) (frameOf a)

theorem step_spawn (x : Spaces) : step .spawn x =
    ⟨(copyPageTables x.machine x.machine.pml4 4).1,
      (copyPageTables x.machine x.machine.pml4 4).2::x.roots⟩ := by
  rw [step]

def Held (kernel : ℕ → Prop) (x : Spaces) : Prop := Coherent kernel 0 x.roots x.machine

variable {op : Op} {x : Spaces} {kernel : ℕ → Prop}

theorem step_quiet (h : Held kernel x) (hg : Good op x) :
    Quiet kernel 0 x.roots x.machine (fun u => ∃ r, target op = some r ∧ u = frameOf r)
      (step op x).machine := by
  cases op with
  | spawn =>
    have hok := hg.2
    rw [step_spawn] at hok ⊢
    have hq := spawn_quiet h hok
    simpa [target] using hq
  | map r v p f b =>
    obtain ⟨⟨hr,hv,hpr,hm⟩,hok⟩ := hg
    have hq := map_quiet h clears_exactly hr hv hpr hm hok
    simpa [target, step] using hq
  | changeFlags r v f =>
    obtain ⟨⟨hr,hv,hm⟩,_⟩ := hg
    have hq := changeFlags_quiet h f hr hv hm
    simpa [target, step] using hq

theorem step_held (h : Held kernel x) (hg : Good op x) : Held kernel (step op x) := by
  have hq := quiet_coherent h (step_quiet h hg)
  cases op with
  | spawn =>
    have hok := hg.2
    rw [step_spawn] at hok ⊢
    have hs := (spawn_coherent h hok).1
    generalize copyPageTables x.machine x.machine.pml4 4 = c at *
    exact hs
  | map r v p f b => exact hq
  | changeFlags r v f => exact hq

theorem run_held {ops : List Op} (x : Spaces) (h : Held kernel x) (hp : Permitted ops x) :
    Held kernel (run ops x) := by
  induction ops generalizing x with
  | nil => exact h
  | cons op ops ih => exact ih _ (step_held h hp.1) hp.2

theorem target_root (ha : Allowed op x) {r : Word} (hr : target op = some r) : r ∈ x.roots := by
  cases op with
  | spawn => simp [target] at hr
  | map r' v p f b => exact Option.some.inj hr ▸ ha.1
  | changeFlags r' v f => exact Option.some.inj hr ▸ ha.1

theorem step_walk (h : Held kernel x) (hg : Good op x) {y : Word}
    (hy : y ∈ x.roots ∨ y = x.machine.pml4) (hne : target op ≠ some y) (v : Word) :
    walkPml4 (step op x).machine.mem y v = walkPml4 x.machine.mem y v := by
  apply quiet_walk h (step_quiet h hg)
  rcases hy with hy | hy
  · right
    refine ⟨hy,?_⟩
    rintro ⟨r,hr,he⟩
    apply hne
    rw [hr, root_inj h hy (target_root hg.1 hr) he]
  · exact Or.inl hy

theorem boot_held (h : Boot x) :
    Held (Reached child (tables x.machine.mem) (treeAt x.machine.pml4)) x := by
  have hdom : ∀ r p, owned (Reached child (tables x.machine.mem) (treeAt x.machine.pml4))
      x.roots r p → Reached child (tables x.machine.mem) (treeAt x.machine.pml4) r ∧ p = [] := by
    rintro r p (⟨y,hy,_⟩ | hk)
    · simp [h.roots] at hy
    · exact hk
  constructor
  case forest =>
    constructor
    · intro r p r' p' t hd hd' ht ht'
      rw [(hdom r p hd).2] at ht ⊢
      rw [(hdom r' p' hd').2] at ht' ⊢
      exact ⟨Option.some.inj (ht.trans ht'.symm),rfl⟩
    · exact h.frames
    · rintro a ha d hd ⟨r,p,hrp,ht⟩
      obtain ⟨hr,rfl⟩ := hdom r p hrp
      obtain rfl : d = 0 := by omega
      obtain rfl := Option.some.inj ht
      exact h.outside a ha hr
  case tables => exact fun _ hu => hu
  case apart => simp [h.roots]
  case window => simp [h.roots]
  case aligned => exact h.aligned
  case shared => simp [h.roots]
  case empty => exact h.empty

/-- In every state of a run each process root walks the kernel half exactly as
the kernel root does, and the next operation changes the walk of no root but
its own, at any address. Creating a root changes no walk at all. -/
theorem address_spaces_isolated (x : Spaces) (hb : Boot x) (ops : List Op)
    (hp : Permitted ops x) :
    (∀ y ∈ (run ops x).roots, ∀ v, getIndexOfPml4 v = 511 →
      walkPml4 (run ops x).machine.mem y v =
        walkPml4 (run ops x).machine.mem (run ops x).machine.pml4 v) ∧
    ∀ op, Good op (run ops x) → ∀ y v,
      y ∈ (run ops x).roots ∨ y = (run ops x).machine.pml4 → target op ≠ some y →
      walkPml4 (step op (run ops x)).machine.mem y v = walkPml4 (run ops x).machine.mem y v := by
  have h := run_held x (boot_held hb) hp
  exact ⟨coherent_walk h,fun op hg y v hy hne => step_walk h hg hy hne v⟩

theorem copyEntries_empty (next : Machine → Word → Machine) (source n : Word)
    (hs : Aligned source) (hn : Aligned n) (hne : frameOf source ≠ frameOf n)
    (is : List (Fin 512)) (s : Machine) (hz : ∀ j, tables s.mem (frameOf source) j = 0) :
    ∃ m, copyEntries next source n is s = { s with mem := m } := by
  induction is generalizing s with
  | nil => exact ⟨s.mem,rfl⟩
  | cons i is ih =>
    have hkeep : ∀ j, tables (setEntry s.mem n i (entry s.mem source i)) (frameOf source) j = 0 := by
      intro j
      rw [tables_setEntry s.mem n i _ hn, put_other _ _ (Or.inl hne), hz j]
    obtain ⟨m,hm⟩ := ih { s with mem := setEntry s.mem n i (entry s.mem source i) } hkeep
    have hstep : copyEntries next source n (i::is) s =
        copyEntries next source n is (copyEntry next source n i s) := rfl
    refine ⟨m,?_⟩
    rw [hstep, copyEntry]
    dsimp only
    rw [if_pos ((entry_eq _ _ hs).trans (hkeep i)), hm]

def firstBoot : Spaces :=
  ⟨⟨fun _ => 0,[⟨0x1000,0,false⟩,⟨0x2000,0,false⟩,⟨0x3000,0,false⟩,⟨0x4000,0,false⟩,
    ⟨0x5000,0,false⟩,⟨0x6000,0,false⟩,⟨0x7000,0,false⟩],0x8000,0x8000,0⟩,[]⟩

theorem firstBoot_boot : Boot firstBoot := by
  constructor
  case roots => rfl
  case frames => constructor <;> simp [firstBoot, addresses]
  case aligned => decide
  case empty => exact fun j _ => blank_tables _ j
  case outside =>
    rintro a ha ⟨r,p,⟨hr,_⟩,ht⟩
    have hra := (blank_descend ht).2
    rw [hr, frameOf_eq, frameOf_eq] at hra
    have hmem := unused_address ha
    simp only [firstBoot, addresses, List.map_cons, List.map_nil, List.mem_cons, List.not_mem_nil,
      or_false] at hmem
    rcases hmem with rfl | rfl | rfl | rfl | rfl | rfl | rfl <;> simp [firstBoot] at hra

end PreemptiveOS.AddressSpaces
