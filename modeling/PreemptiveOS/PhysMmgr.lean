import PreemptiveOS.ByteMemory

/-!
# The frame allocator

The page array of `phys_mmgr.c`: one record for each frame, with the flag
`is_free_page`, which despite its name is set while the frame is in use. An
allocation scans from the first record, gives every used record it passes a
reference count of at least one, and takes the first record that is not used.
The array is a list and `number_of_pages` its length.
-/

set_option autoImplicit false

namespace PreemptiveOS.PhysMmgr
open ByteMemory

def kernbase : Word := 0xFFFFFFFF80000000

def kernmem : Word := 0xffffffff80200000

structure Page where
  physAddrOfPage : Word
  referenceCount : BitVec 32
  isFreePage : Bool
  deriving DecidableEq, Repr

def setFreePageList (pages : List Page) (bitNum : ℕ) : List Page :=
  pages.modify bitNum (fun p => { p with isFreePage := true })

def repaired (p : Page) : Page :=
  if p.referenceCount = 0 then { p with referenceCount := 1 } else p

def taken (p : Page) : Page :=
  { p with isFreePage := true, referenceCount := p.referenceCount+1 }

def physAddrOfFirstFreePage : List Page → List Page × Word
  | [] => ([],0)
  | p::ps =>
    if p.isFreePage then
      (repaired p::(physAddrOfFirstFreePage ps).1, (physAddrOfFirstFreePage ps).2)
    else (taken p::ps, p.physAddrOfPage)

def physMemAlloc (pages : List Page) : List Page × Word := physAddrOfFirstFreePage pages

def getIndexOfFirstFreePage (pages : List Page) : Option ℕ :=
  pages.findIdx? (fun p => !p.isFreePage)

def dropped (p : Page) : Page :=
  { p with referenceCount := p.referenceCount-1, isFreePage := p.referenceCount-1 ≠ 0 }

/-- The search stops at the first record with the given address, and an
address that no record has leaves the array as it is. -/
def physMemFree (addr : Word) : List Page → List Page
  | [] => []
  | p::ps =>
    if p.physAddrOfPage = addr then (if p.isFreePage then dropped p else p)::ps
    else p::physMemFree addr ps

def incrementReferenceCountOfPage (physAddr : Word) (pages : List Page) : List Page :=
  pages.map (fun p => if p.physAddrOfPage = physAddr then
    { p with referenceCount := p.referenceCount+1 } else p)

def decrementReferenceCountOfPage (page : Page) (pages : List Page) : List Page :=
  pages.map (fun p => if p.physAddrOfPage = page.physAddrOfPage then
    { p with referenceCount := p.referenceCount-1 } else p)

/-- `number_of_pages * sizeof(page)`, cut to an `int`, in whole pages. -/
def numPagesReserved (numberOfPages : ℕ) : ℕ :=
  ((BitVec.ofNat 32 (numberOfPages*16)).toInt.tdiv 4096).toNat

def initialPage (physbase : Word) (i : ℕ) : Page :=
  ⟨physbase+(BitVec.ofNat 32 (i*4096)).signExtend 64, 0, false⟩

def initializeFreeList (physbase : Word) (numberOfPages : ℕ) : List Page :=
  (List.range (numPagesReserved numberOfPages)).foldl setFreePageList
    ((List.range numberOfPages).map (initialPage physbase))

def defineFreeList (physStart physEnd : Word) : List Page :=
  initializeFreeList (physStart+0x1000) ((physEnd-(physStart+0x1000))/4096).toNat

def addresses (pages : List Page) : List Word := pages.map Page.physAddrOfPage

def freeCount (pages : List Page) : ℕ := pages.countP (fun p => !p.isFreePage)

def pageOf (pages : List Page) (a : Word) : Option Page :=
  pages.find? (fun p => p.physAddrOfPage = a)

theorem repaired_address (p : Page) : (repaired p).physAddrOfPage = p.physAddrOfPage := by
  unfold repaired
  split <;> rfl

theorem repaired_used (p : Page) : (repaired p).isFreePage = p.isFreePage := by
  unfold repaired
  split <;> rfl

theorem freeCount_map {change : Page → Page}
    (h : ∀ p, (change p).isFreePage = p.isFreePage) (pages : List Page) :
    freeCount (pages.map change) = freeCount pages := by
  rw [freeCount, List.countP_map]
  congr 1
  funext p
  simp only [Function.comp_apply, h]

variable {p : Page}

theorem freeCount_taken (us vs : List Page) (hp : p.isFreePage = false) :
    freeCount (us++p::vs) = freeCount (us.map repaired++taken p::vs)+1 := by
  have hus := freeCount_map repaired_used us
  simp only [freeCount] at hus ⊢
  rw [List.countP_append, List.countP_append, hus, List.countP_cons_of_pos (by simp [hp]),
    List.countP_cons_of_neg (by simp [taken])]
  rfl

variable {us : List Page}

theorem alloc_used_append (vs : List Page) (hu : ∀ u ∈ us, u.isFreePage = true) :
    physMemAlloc (us++vs) = (us.map repaired++(physMemAlloc vs).1, (physMemAlloc vs).2) := by
  induction us with
  | nil => rfl
  | cons u us ih =>
    have ht := ih (fun v hv => hu v (by simp [hv]))
    unfold physMemAlloc at *
    simp [physAddrOfFirstFreePage, hu u (by simp), ht]

variable {pages : List Page}

theorem first_unused (h : ¬ ∀ p ∈ pages, p.isFreePage = true) :
    ∃ us p vs, pages = us++p::vs ∧ (∀ u ∈ us, u.isFreePage = true) ∧ p.isFreePage = false := by
  induction pages with
  | nil => simp at h
  | cons q pages ih =>
    by_cases hq : q.isFreePage = true
    · obtain ⟨us,p,vs,he,hu,hp⟩ := ih (fun hall => h (by simpa [hq] using hall))
      exact ⟨q::us,p,vs,by simp [he],by simpa [hq] using hu,hp⟩
    · exact ⟨[],q,pages,rfl,by simp,by simpa using hq⟩

theorem first_free_none (h : ∀ p ∈ pages, p.isFreePage = true) :
    getIndexOfFirstFreePage pages = none := by
  rw [getIndexOfFirstFreePage, List.findIdx?_eq_none_iff]
  intro p hp
  simp [h p hp]

theorem first_free_some (us vs : List Page) (p : Page) (hu : ∀ u ∈ us, u.isFreePage = true)
    (hp : p.isFreePage = false) : getIndexOfFirstFreePage (us++p::vs) = some us.length := by
  rw [getIndexOfFirstFreePage, List.findIdx?_eq_some_iff_getElem]
  refine ⟨by simp,by simp [hp],?_⟩
  intro j hj
  rw [List.getElem_append_left hj]
  simp [hu _ (List.getElem_mem hj)]

theorem set_between (us vs : List Page) (p : Page) :
    setFreePageList (us++p::vs) us.length = us++{ p with isFreePage := true }::vs := by
  rw [setFreePageList, List.modify_eq_take_cons_drop (by simp)]
  simp

/-- Everything one allocation can do: with no frame left it only repairs
counts and returns null; otherwise it takes the first unused record. -/
theorem alloc_cases (pages : List Page) :
    ((∀ p ∈ pages, p.isFreePage = true) ∧ physMemAlloc pages = (pages.map repaired, 0)) ∨
    ∃ us p vs, pages = us++p::vs ∧ (∀ u ∈ us, u.isFreePage = true) ∧ p.isFreePage = false ∧
      physMemAlloc pages = (us.map repaired++taken p::vs, p.physAddrOfPage) := by
  by_cases hall : ∀ p ∈ pages, p.isFreePage = true
  · left
    have h := alloc_used_append [] hall
    refine ⟨hall,?_⟩
    simpa [physMemAlloc, physAddrOfFirstFreePage] using h
  · right
    obtain ⟨us,p,vs,he,hu,hp⟩ := first_unused hall
    refine ⟨us,p,vs,he,hu,hp,?_⟩
    rw [he, alloc_used_append _ hu]
    simp [physMemAlloc, physAddrOfFirstFreePage, hp]

theorem addresses_alloc (pages : List Page) :
    addresses (physMemAlloc pages).1 = addresses pages := by
  have hr : Page.physAddrOfPage ∘ repaired = Page.physAddrOfPage := funext repaired_address
  rcases alloc_cases pages with ⟨_,he⟩ | ⟨us,p,vs,rfl,_,_,he⟩
  · simp [he, addresses, List.map_map, hr]
  · simp [he, addresses, List.map_map, hr, taken]

theorem addresses_free (a : Word) (pages : List Page) :
    addresses (physMemFree a pages) = addresses pages := by
  induction pages with
  | nil => rfl
  | cons p pages ih =>
    unfold addresses at *
    by_cases hp : p.physAddrOfPage = a <;> by_cases hu : p.isFreePage = true <;>
      simp [physMemFree, hp, hu, ih, dropped]

variable {g : Page → Page}

theorem addresses_map (hg : ∀ p, (g p).physAddrOfPage = p.physAddrOfPage) (pages : List Page) :
    addresses (pages.map g) = addresses pages := by
  simp [addresses, List.map_map, Function.comp_def, hg]

theorem addresses_increment (a : Word) (pages : List Page) :
    addresses (incrementReferenceCountOfPage a pages) = addresses pages :=
  addresses_map (fun p => by split <;> rfl) pages

variable {q : Page}

theorem pageOf_map (hg : ∀ p, (g p).physAddrOfPage = p.physAddrOfPage) (pages : List Page)
    (a : Word) : pageOf (pages.map g) a = (pageOf pages a).map g := by
  unfold pageOf
  rw [List.find?_map]
  congr 2
  funext p
  simp [hg]

theorem pageOf_append (us vs : List Page) (a : Word) :
    pageOf (us++vs) a = (pageOf us a).or (pageOf vs a) := by
  simp [pageOf, List.find?_append]

theorem pageOf_cons (p : Page) (ps : List Page) (a : Word) :
    pageOf (p::ps) a = if p.physAddrOfPage = a then some p else pageOf ps a := by
  by_cases h : p.physAddrOfPage = a <;> simp [pageOf, h]

theorem pageOf_address (pages : List Page) (a : Word) (p : Page) (h : pageOf pages a = some p) :
    p.physAddrOfPage = a := by
  simpa using List.find?_some h

theorem pageOf_mem (pages : List Page) (a : Word) (p : Page) (h : pageOf pages a = some p) :
    p ∈ pages := List.mem_of_find?_eq_some h

variable {a : Word}

theorem pageOf_none (h : a ∉ addresses pages) : pageOf pages a = none := by
  apply List.find?_eq_none.mpr
  intro p hp hpa
  exact h (List.mem_map.mpr ⟨p,hp,by simpa using hpa⟩)

theorem pageOf_some (hd : (addresses pages).Nodup) (hp : p ∈ pages) :
    pageOf pages p.physAddrOfPage = some p := by
  induction pages with
  | nil => simp at hp
  | cons q pages ih =>
    obtain ⟨hq,ht⟩ := List.nodup_cons.mp hd
    rw [pageOf_cons]
    rcases List.mem_cons.mp hp with rfl | hp
    · simp
    · have hne : q.physAddrOfPage ≠ p.physAddrOfPage :=
        fun he => hq (he ▸ List.mem_map.mpr ⟨p,hp,rfl⟩)
      rw [if_neg hne, ih ht hp]

theorem pageOf_free (pages : List Page) (b a : Word) :
    pageOf (physMemFree b pages) a =
      if a = b then (pageOf pages a).map (fun p => if p.isFreePage then dropped p else p)
      else pageOf pages a := by
  induction pages with
  | nil => simp [physMemFree, pageOf]
  | cons p pages ih =>
    by_cases hp : p.physAddrOfPage = b
    · by_cases hu : p.isFreePage = true <;> by_cases ha : a = b <;>
        simp [physMemFree, pageOf_cons, hp, hu, ha, dropped, Ne.symm]
    · by_cases ha : p.physAddrOfPage = a
      · have hab : a ≠ b := fun h => hp (ha.trans h)
        simp [physMemFree, pageOf_cons, ha, hab]
      · simp [physMemFree, hp, pageOf_cons, ha, ih]

theorem pageOf_increment (pages : List Page) (b a : Word) :
    pageOf (incrementReferenceCountOfPage b pages) a =
      if a = b then (pageOf pages a).map (fun p => { p with referenceCount := p.referenceCount+1 })
      else pageOf pages a := by
  rw [incrementReferenceCountOfPage, pageOf_map (fun p => by split <;> rfl)]
  cases h : pageOf pages a with
  | none => simp
  | some p => by_cases hb : a = b <;> simp [pageOf_address pages a p h, hb]

theorem pageOf_decrement (pages : List Page) (q : Page) (a : Word) :
    pageOf (decrementReferenceCountOfPage q pages) a =
      if a = q.physAddrOfPage then
        (pageOf pages a).map (fun p => { p with referenceCount := p.referenceCount-1 })
      else pageOf pages a := by
  rw [decrementReferenceCountOfPage, pageOf_map (fun p => by split <;> rfl)]
  cases h : pageOf pages a with
  | none => simp
  | some p => by_cases hb : a = q.physAddrOfPage <;> simp [pageOf_address pages a p h, hb]

/-- One allocation, record by record: the returned frame goes from unused to
taken, and every other record is kept or only repaired. -/
theorem pageOf_alloc (hd : (addresses pages).Nodup) (hf : (physMemAlloc pages).2 ≠ 0) :
    (∃ p, pageOf pages (physMemAlloc pages).2 = some p ∧ p.isFreePage = false ∧
      pageOf (physMemAlloc pages).1 (physMemAlloc pages).2 = some (taken p)) ∧
    ∀ a, a ≠ (physMemAlloc pages).2 →
      pageOf (physMemAlloc pages).1 a = pageOf pages a ∨
      ∃ p, pageOf pages a = some p ∧ p.isFreePage = true ∧
        pageOf (physMemAlloc pages).1 a = some (repaired p) := by
  rcases alloc_cases pages with ⟨_,he⟩ | ⟨us,p,vs,rfl,hu,hp,he⟩
  · simp [he] at hf
  · have hmem : p.physAddrOfPage ∉ addresses us := by
      have hn : (addresses us++addresses (p::vs)).Nodup := by simpa [addresses] using hd
      exact fun h => (List.nodup_append.mp hn).2.2 _ h _ (by simp [addresses]) rfl
    rw [he]
    refine ⟨⟨p,?_,hp,?_⟩,?_⟩
    · simp [pageOf_append, pageOf_none hmem, pageOf_cons]
    · rw [pageOf_append, pageOf_map repaired_address, pageOf_none hmem]
      simp [pageOf_cons, taken]
    · intro a ha
      have hne : ¬ p.physAddrOfPage = a := fun h => ha h.symm
      have htk : ¬ (taken p).physAddrOfPage = a := hne
      simp only [pageOf_append, pageOf_map repaired_address, pageOf_cons, if_neg hne,
        if_neg htk]
      cases h : pageOf us a with
      | none => left; rfl
      | some q =>
        right
        exact ⟨q,by simp,hu q (pageOf_mem us a q h),by simp⟩

theorem alloc_zero (hpos : ∀ p ∈ pages, p.physAddrOfPage ≠ 0) (hf : (physMemAlloc pages).2 = 0) :
    freeCount pages = 0 := by
  rcases alloc_cases pages with ⟨hu,_⟩ | ⟨us,p,vs,rfl,_,_,he⟩
  · simpa [freeCount, List.countP_eq_zero] using hu
  · exact absurd (by simpa [he] using hf) (hpos p (by simp))

theorem freeCount_alloc (hf : (physMemAlloc pages).2 ≠ 0) :
    freeCount pages = freeCount (physMemAlloc pages).1+1 := by
  rcases alloc_cases pages with ⟨_,he⟩ | ⟨us,p,vs,rfl,hu,hp,he⟩
  · simp [he] at hf
  · rw [he]
    exact freeCount_taken us vs hp

theorem reserve_getElem? (pages : List Page) (k i : ℕ) :
    ((List.range k).foldl setFreePageList pages)[i]? =
      pages[i]?.map (fun p => if i < k then { p with isFreePage := true } else p) := by
  induction k with
  | zero => simp
  | succ k ih =>
    rw [List.range_succ, List.foldl_append]
    simp only [List.foldl_cons, List.foldl_nil, setFreePageList, List.getElem?_modify, ih]
    cases pages[i]? with
    | none => simp
    | some p =>
      by_cases hk : k = i
      · simp [hk]
      · have hlt : i < k+1 ↔ i < k := by omega
        simp [hk, hlt]

theorem initialize_eq (physbase : Word) (n : ℕ) :
    initializeFreeList physbase n = (List.range n).map (fun i =>
      { initialPage physbase i with isFreePage := decide (i < numPagesReserved n) }) := by
  apply List.ext_getElem?
  intro i
  rw [initializeFreeList, reserve_getElem?, List.getElem?_map, List.getElem?_map, Option.map_map]
  by_cases hi : i < n
  · simp only [List.getElem?_range hi, Option.map_some, Function.comp_apply]
    by_cases hr : i < numPagesReserved n <;> simp [hr, initialPage]
  · simp [hi]

theorem initial_address (physbase : Word) (i : ℕ) (hi : i*4096 < 2^31)
    (hb : physbase.toNat+i*4096 < 2^64) :
    (initialPage physbase i).physAddrOfPage.toNat = physbase.toNat+i*4096 := by
  have hmsb : (BitVec.ofNat 32 (i*4096)).msb = false := by
    rw [BitVec.msb_eq_false_iff_two_mul_lt, BitVec.toNat_ofNat]
    omega
  simp only [initialPage, BitVec.signExtend_eq_setWidth_of_msb_false hmsb, BitVec.toNat_add,
    BitVec.toNat_setWidth, BitVec.toNat_ofNat]
  omega

variable {n : ℕ}

theorem numPagesReserved_int (hn : n*16 < 2^31) : numPagesReserved n = n*16/4096 := by
  have hi : (BitVec.ofNat 32 (n*16)).toInt = ((n*16 : ℕ) : ℤ) := by
    rw [BitVec.toInt_eq_toNat_of_lt (by rw [BitVec.toNat_ofNat]; omega), BitVec.toNat_ofNat,
      Nat.mod_eq_of_lt (by omega)]
  rw [numPagesReserved, hi]
  have : ((n*16 : ℕ) : ℤ).tdiv 4096 = ((n*16/4096 : ℕ) : ℤ) := by
    rw [Int.tdiv_eq_ediv_of_nonneg (by omega)]
    norm_cast
  rw [this, Int.toNat_natCast]

theorem define_eq {physStart physEnd : Word} (h : physStart.toNat+0x1000 ≤ physEnd.toNat) :
    (physStart+0x1000).toNat = physStart.toNat+0x1000 ∧
    defineFreeList physStart physEnd = initializeFreeList (physStart+0x1000)
      ((physEnd.toNat-(physStart.toNat+0x1000))/4096) := by
  have hend := physEnd.isLt
  have hb : (physStart+0x1000).toNat = physStart.toNat+0x1000 := by
    rw [BitVec.toNat_add]
    show (physStart.toNat+0x1000)%2^64 = _
    omega
  have hle : physStart+0x1000 ≤ physEnd := by rwa [BitVec.le_def, hb]
  refine ⟨hb,?_⟩
  rw [defineFreeList, BitVec.toNat_udiv, BitVec.toNat_sub_of_le hle, hb]
  rfl

theorem numPagesReserved_eq (n : ℕ) (hn : n*4096 ≤ 2^31) : numPagesReserved n = n*16/4096 :=
  numPagesReserved_int (by omega)

structure FramesOk (pages : List Page) : Prop where
  ordered : (addresses pages).Pairwise (fun a b => a.toNat < b.toNat)
  aligned : ∀ a ∈ addresses pages, a.toNat%4096 = 0
  window : ∀ a ∈ addresses pages, 0 < a.toNat ∧ a.toNat < 2^31

theorem framesOk_congr {pages' : List Page} (h : addresses pages' = addresses pages)
    (hf : FramesOk pages) : FramesOk pages' := by
  obtain ⟨ho,ha,hw⟩ := hf
  exact ⟨h ▸ ho,h ▸ ha,h ▸ hw⟩

theorem ordered_nodup {as : List Word} (h : as.Pairwise (fun a b => a.toNat < b.toNat)) :
    as.Nodup := h.imp (fun hlt he => by simp [he] at hlt)

theorem framesOk_nodup (hf : FramesOk pages) : (addresses pages).Nodup :=
  ordered_nodup hf.ordered

theorem initialize_addresses (physbase : Word) (n : ℕ) :
    addresses (initializeFreeList physbase n) =
      (List.range n).map (fun i => (initialPage physbase i).physAddrOfPage) := by
  simp [initialize_eq, addresses, List.map_map, Function.comp_def]

theorem initialize_ordered {physbase : Word} (hn : n*4096 ≤ 2^31)
    (hb : physbase.toNat+n*4096 ≤ 2^64) :
    (addresses (initializeFreeList physbase n)).Pairwise (fun a b => a.toNat < b.toNat) := by
  rw [initialize_addresses, List.pairwise_map]
  apply List.Pairwise.imp_of_mem _ List.pairwise_lt_range
  intro i j hi hj hij
  have hi' := List.mem_range.mp hi
  have hj' := List.mem_range.mp hj
  rw [initial_address physbase i (by omega) (by omega),
    initial_address physbase j (by omega) (by omega)]
  omega

def Unused (pages : List Page) (a : Word) : Prop :=
  ∃ p ∈ pages, p.physAddrOfPage = a ∧ p.isFreePage = false

theorem unused_address (h : Unused pages a) : a ∈ addresses pages := by
  obtain ⟨p,hp,rfl,_⟩ := h
  exact List.mem_map.mpr ⟨p,hp,rfl⟩

theorem alloc_unused (pages : List Page) (hf : (physMemAlloc pages).2 ≠ 0) :
    Unused pages (physMemAlloc pages).2 := by
  rcases alloc_cases pages with ⟨_,he⟩ | ⟨us,p,vs,rfl,_,hp,he⟩
  · simp [he] at hf
  · exact ⟨p,by simp,by rw [he],hp⟩

theorem ordered_behind {vs : List Page} (hk : FramesOk (us++p::vs)) (hq : q ∈ vs) :
    p.physAddrOfPage.toNat < q.physAddrOfPage.toNat := by
  have ho := hk.ordered
  simp only [addresses, List.map_append, List.map_cons] at ho
  exact List.rel_of_pairwise_cons (List.pairwise_append.mp ho).2.1 (List.mem_map.mpr ⟨q,hq,rfl⟩)

theorem unused_alloc (pages : List Page) (hk : FramesOk pages) (hf : (physMemAlloc pages).2 ≠ 0)
    (b : Word) (hb : Unused (physMemAlloc pages).1 b) :
    Unused pages b ∧ (physMemAlloc pages).2.toNat < b.toNat := by
  rcases alloc_cases pages with ⟨_,he⟩ | ⟨us,p,vs,rfl,hu,hp,he⟩
  · simp [he] at hf
  · rw [he] at hb ⊢
    obtain ⟨q,hq,rfl,hfree⟩ := hb
    rcases List.mem_append.mp hq with hq | hq
    · obtain ⟨u,hmem,rfl⟩ := List.mem_map.mp hq
      simp [repaired_used, hu u hmem] at hfree
    · rcases List.mem_cons.mp hq with rfl | hq
      · simp [taken] at hfree
      · exact ⟨⟨q,by simp [hq],rfl,hfree⟩,ordered_behind hk hq⟩

theorem alloc_lowest (hk : FramesOk pages) (hf : (physMemAlloc pages).2 ≠ 0) {b : Word}
    (hb : Unused pages b) : (physMemAlloc pages).2.toNat ≤ b.toNat := by
  rcases alloc_cases pages with ⟨_,he⟩ | ⟨us,p,vs,rfl,hu,hp,he⟩
  · simp [he] at hf
  · obtain ⟨q,hq,rfl,hfree⟩ := hb
    rw [he]
    rcases List.mem_append.mp hq with hq | hq
    · simp [hu q hq] at hfree
    · rcases List.mem_cons.mp hq with rfl | hq
      · exact le_rfl
      · exact (ordered_behind hk hq).le

def allocs : ℕ → List Page → List Page
  | 0, pages => pages
  | k+1, pages => allocs k (physMemAlloc pages).1

/-- First fit reaches every unused frame: once the unused frames before it are
handed out, it is the next one returned. -/
theorem unused_allocatable (us : List Page) (vs : List Page) (hp : p.isFreePage = false) :
    ∃ k, (physMemAlloc (allocs k (us++p::vs))).2 = p.physAddrOfPage := by
  induction hk : freeCount us generalizing us with
  | zero =>
    have hu : ∀ u ∈ us, u.isFreePage = true := by
      simpa [freeCount, List.countP_eq_zero] using hk
    refine ⟨0,?_⟩
    rw [allocs, alloc_used_append _ hu]
    simp [physMemAlloc, physAddrOfFirstFreePage, hp]
  | succ k ih =>
    have hne : ¬ ∀ u ∈ us, u.isFreePage = true := by
      intro hall
      have : freeCount us = 0 := by simpa [freeCount, List.countP_eq_zero] using hall
      omega
    obtain ⟨us₁,q,us₂,rfl,hu,hq⟩ := first_unused hne
    have hstep : (physMemAlloc ((us₁++q::us₂)++p::vs)).1 =
        (us₁.map repaired++taken q::us₂)++p::vs := by
      rw [List.append_assoc, alloc_used_append _ hu]
      simp [physMemAlloc, physAddrOfFirstFreePage, hq]
    have hcount : freeCount (us₁.map repaired++taken q::us₂) = k := by
      rw [freeCount_taken us₁ us₂ hq] at hk
      omega
    obtain ⟨j,hj⟩ := ih _ hcount
    exact ⟨j+1,by rw [allocs, hstep]; exact hj⟩

end PreemptiveOS.PhysMmgr
