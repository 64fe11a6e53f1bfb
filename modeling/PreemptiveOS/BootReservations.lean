import PreemptiveOS.PhysMmgr

/-!
# What the boot code reserves

The page array is put at the start of the memory it describes, and its records
mark the frames in use. The frames of the array are counted by a division that
leaves out a page that is filled only in part; the super block goes behind that
many pages of a fixed address, and the next free frame is marked for it,
wherever that frame is. The dentry cache takes one more frame.
-/

set_option autoImplicit false

namespace PreemptiveOS.BootReservations
open ByteMemory PhysMmgr

/-- An index that was not found is written to in front of the array. -/
def initializeTarfsSb (numberOfPages : ℕ) (pages : List Page) : List Page × Word :=
  (match getIndexOfFirstFreePage pages with
    | some index => setFreePageList pages index
    | none => pages,
    0x31E000+BitVec.ofNat 64 (numberOfPages*16/4096*0x1000))

def initializeDentryCache (pages : List Page) : List Page × Word := physMemAlloc pages

structure Boot where
  pages : List Page
  freePageList : Word
  tarfsSb : Word
  dentryCacheArray : Word

def boot (physStart physEnd : Word) : Boot :=
  let pages := defineFreeList physStart physEnd
  let sb := initializeTarfsSb pages.length pages
  let cache := initializeDentryCache sb.1
  ⟨cache.1,physStart+0x1000,sb.2,cache.2⟩

structure Area where
  start : ℕ
  size : ℕ

def Area.Holds (a : Area) (x : ℕ) : Prop := a.start ≤ x ∧ x < a.start+a.size

def Meets (a b : Area) : Prop := ∃ x, a.Holds x ∧ b.Holds x

theorem meets_iff (a b : Area) : Meets a b ↔
    a.start < b.start+b.size ∧ b.start < a.start+a.size ∧ 0 < a.size ∧ 0 < b.size := by
  constructor
  · rintro ⟨x,⟨ha,ha'⟩,hb,hb'⟩
    omega
  · intro h
    refine ⟨max a.start b.start,⟨le_max_left _ _,?_⟩,le_max_right _ _,?_⟩ <;> omega

def frame (p : Page) : Area := ⟨p.physAddrOfPage.toNat,4096⟩

def pageArray (b : Boot) : Area := ⟨b.freePageList.toNat,16*b.pages.length⟩

def superBlock (b : Boot) : Area := ⟨b.tarfsSb.toNat,32⟩

def dentryCachePage (b : Boot) : Area := ⟨b.dentryCacheArray.toNat,4096⟩

def tables (b : Boot) : List Area := [pageArray b,superBlock b,dentryCachePage b]

/-- Every byte of a table lies in a frame that a record marks as used, no
record leaves such a frame free, and the tables are apart. -/
structure Covered (b : Boot) : Prop where
  used : ∀ p ∈ b.pages, ∀ t ∈ tables b, Meets (frame p) t → p.isFreePage = true
  kept : ∀ t ∈ tables b, ∀ x, t.Holds x → ∃ p ∈ b.pages, (frame p).Holds x ∧ p.isFreePage = true
  apart : (tables b).Pairwise (fun t t' => ¬ Meets t t')

def prefixUsed (base : Word) (n k : ℕ) : List Page :=
  (List.range n).map (fun i => { initialPage base i with isFreePage := decide (i < k) })

section
variable (base : Word) (n k : ℕ)

theorem prefixUsed_length : (prefixUsed base n k).length = n := by
  rw [prefixUsed, List.length_map, List.length_range]

theorem prefixUsed_getElem? (i : ℕ) : (prefixUsed base n k)[i]? =
    if i < n then some { initialPage base i with isFreePage := decide (i < k) } else none := by
  rw [prefixUsed, List.getElem?_map]
  split_ifs with hi
  · rw [List.getElem?_range hi, Option.map_some]
  · rw [List.getElem?_eq_none (by simpa using hi), Option.map_none]

theorem mark_next : setFreePageList (prefixUsed base n k) k = prefixUsed base n (k+1) := by
  apply List.ext_getElem?
  intro i
  rw [setFreePageList, List.getElem?_modify, prefixUsed_getElem?, prefixUsed_getElem?]
  by_cases hi : i < n
  · by_cases hk : k = i
    · simp [hi, hk]
    · have hlt : i < k+1 ↔ i < k := by omega
      simp [hi, hk, hlt]
  · simp [hi]

theorem first_free_next (hk : k < n) : getIndexOfFirstFreePage (prefixUsed base n k) = some k := by
  rw [getIndexOfFirstFreePage, List.findIdx?_eq_some_iff_getElem]
  refine ⟨by rwa [prefixUsed_length],?_,?_⟩
  · simp [prefixUsed]
  · intro j hj
    simp [prefixUsed, hj]

end

def stamp (p : Page) : Word × Bool := (p.physAddrOfPage,p.isFreePage)

theorem stamp_repaired : stamp ∘ repaired = stamp := by
  funext q
  simp [stamp, repaired_address, repaired_used]

variable {i : ℕ}

theorem alloc_marks {pages : List Page} (hi : getIndexOfFirstFreePage pages = some i) :
    (physMemAlloc pages).1.map stamp = (setFreePageList pages i).map stamp ∧
      pages[i]?.map Page.physAddrOfPage = some (physMemAlloc pages).2 := by
  rcases alloc_cases pages with ⟨hall,_⟩ | ⟨us,p,vs,rfl,hu,hp,he⟩
  · rw [first_free_none hall] at hi
    cases hi
  · obtain rfl : us.length = i := Option.some.inj ((first_free_some us vs p hu hp).symm.trans hi)
    rw [he, set_between]
    constructor
    · simp only [List.map_append, List.map_cons, List.map_map, stamp_repaired]
      rfl
    · simp

theorem alloc_prefix {base : Word} {n k : ℕ} {pages : List Page} (hk : k < n)
    (h : pages.map stamp = (prefixUsed base n k).map stamp) :
    (physMemAlloc pages).1.map stamp = (prefixUsed base n (k+1)).map stamp ∧
      (physMemAlloc pages).2 = (initialPage base k).physAddrOfPage := by
  have hfirst : getIndexOfFirstFreePage pages = some k := by
    have hidx : ∀ ps : List Page, getIndexOfFirstFreePage ps =
        (ps.map stamp).findIdx? (fun s => !s.2) := by
      intro ps
      rw [List.findIdx?_map]
      rfl
    rw [hidx, h, ← hidx, first_free_next base n k hk]
  obtain ⟨hmarks,haddr⟩ := alloc_marks hfirst
  constructor
  · have hset : ∀ ps : List Page, (setFreePageList ps k).map stamp =
        (ps.map stamp).modify k (fun s => (s.1,true)) := by
      intro ps
      apply List.ext_getElem?
      intro i
      rw [List.getElem?_map, setFreePageList, List.getElem?_modify, List.getElem?_modify,
        List.getElem?_map]
      cases ps[i]? with
      | none => rfl
      | some p => by_cases hi : k = i <;> simp [hi, stamp]
    rw [hmarks, hset, h, ← hset, mark_next]
  · have hat := congrArg (fun ss => ss[k]?.map Prod.fst) h
    simp only [List.getElem?_map, Option.map_map] at hat
    rw [prefixUsed_getElem?, if_pos hk] at hat
    exact Option.some.inj (haddr.symm.trans hat)

theorem reserved_bound (n : ℕ) : numPagesReserved n ≤ 2^19 := by
  rw [numPagesReserved, Int.toNat_le]
  have hlt : (BitVec.ofNat 32 (n*16)).toInt ≤ 2^31 := BitVec.toInt_lt.le
  exact (Int.tdiv_le_tdiv (by decide) hlt).trans (by decide)

variable {n : ℕ}

theorem reserved_lt (h2 : 2 ≤ n) : numPagesReserved n+1 < n := by
  by_cases hn : n*16 < 2^31
  · rw [numPagesReserved_int hn]
    omega
  · have hb := reserved_bound n
    omega

section
variable {physStart physEnd base : Word}
  (hdef : defineFreeList physStart physEnd = initializeFreeList base n)
include hdef

theorem define_prefix : defineFreeList physStart physEnd = prefixUsed base n (numPagesReserved n) :=
  hdef.trans (initialize_eq base n)

theorem boot_tarfsSb : (boot physStart physEnd).tarfsSb =
    0x31E000+BitVec.ofNat 64 (n*16/4096*0x1000) := by
  rw [boot, define_prefix hdef, prefixUsed_length]
  rfl

theorem boot_tables (h2 : 2 ≤ n) :
    (boot physStart physEnd).pages.map stamp =
      (prefixUsed base n (numPagesReserved n+2)).map stamp ∧
    (boot physStart physEnd).dentryCacheArray =
      (initialPage base (numPagesReserved n+1)).physAddrOfPage := by
  have hlt := reserved_lt h2
  have hsb : (initializeTarfsSb n (prefixUsed base n (numPagesReserved n))).1 =
      prefixUsed base n (numPagesReserved n+1) := by
    rw [initializeTarfsSb, first_free_next base n _ (by omega)]
    exact mark_next base n _
  obtain ⟨hpages,hcache⟩ := alloc_prefix hlt rfl
  simp only [boot, define_prefix hdef, prefixUsed_length, hsb, initializeDentryCache]
  exact ⟨hpages,hcache⟩

theorem boot_tables_short (h1 : n ≤ 1) :
    (boot physStart physEnd).pages.map stamp = (prefixUsed base n 1).map stamp ∧
    (boot physStart physEnd).dentryCacheArray = 0 := by
  have hr : numPagesReserved n = 0 := by
    rw [numPagesReserved_int (by omega)]
    omega
  have hsb : (initializeTarfsSb n (prefixUsed base n 0)).1 = prefixUsed base n 1 := by
    rw [initializeTarfsSb]
    by_cases h0 : n = 0
    · subst h0
      rfl
    · rw [first_free_next base n 0 (by omega)]
      exact mark_next base n 0
  have hall : ∀ p ∈ prefixUsed base n 1, p.isFreePage = true := by
    intro p hp
    obtain ⟨i,hi,rfl⟩ := List.mem_map.mp hp
    have hlt := List.mem_range.mp hi
    have h0 : i < 1 := by omega
    simp [h0]
  have halloc := alloc_used_append [] hall
  rw [List.append_nil] at halloc
  simp only [boot, define_prefix hdef, prefixUsed_length, hr, hsb, initializeDentryCache, halloc]
  simp [physMemAlloc, physAddrOfFirstFreePage, stamp_repaired]

end

def sbStart (n : ℕ) : ℕ := 0x31E000+4096*(n/256)

/-- The array starts less than a page below the address that the super block
counts from, and the records of its last page end before that address; there
are frames for the super block and for the cache. From 2^20 records on the
addresses of the frames start again at the array. -/
def Fits (base n : ℕ) : Prop :=
  2 ≤ n ∧ n ≤ 2^20 ∧ 0x31D020 ≤ base ∧ base+16*(n%256) ≤ 0x31E000

theorem address_wrapped (base : Word) (hlow : 2^19 ≤ i) (hhigh : i < 2^20) :
    (initialPage base i).physAddrOfPage.toNat = (base.toNat+(2^64-2^32+i*4096))%2^64 := by
  have hnat : (BitVec.ofNat 32 (i*4096)).toNat = i*4096 := by
    rw [BitVec.toNat_ofNat]
    omega
  have hmsb : (BitVec.ofNat 32 (i*4096)).msb = true := by
    rw [BitVec.msb_eq_true_iff_two_mul_ge, hnat]
    omega
  rw [initialPage, BitVec.toNat_add, BitVec.toNat_signExtend, hmsb, BitVec.toNat_setWidth, hnat]
  have hmod : i*4096%2^64 = i*4096 := by omega
  rw [hmod, if_pos rfl]
  congr 1
  omega

theorem address_again (base : Word) : (initialPage base (2^20)).physAddrOfPage = base := by
  rw [initialPage, show BitVec.ofNat 32 (2^20*4096) = 0 from rfl]
  simp

theorem sb_toNat (hn : n*4096 ≤ 2^64) :
    (0x31E000+BitVec.ofNat 64 (n*16/4096*0x1000) : Word).toNat = sbStart n := by
  rw [BitVec.toNat_add, BitVec.toNat_ofNat, sbStart]
  show (0x31E000+n*16/4096*0x1000%2^64)%2^64 = _
  omega

variable {b : Boot} {k : ℕ} {base : Word}

def initialFrame (base : Word) (i : ℕ) : Area := ⟨(initialPage base i).physAddrOfPage.toNat,4096⟩

section
variable (hpages : b.pages.map stamp = (prefixUsed base n k).map stamp)
include hpages

theorem record_prefix {p : Page} (hp : p ∈ b.pages) :
    ∃ i < n, frame p = initialFrame base i ∧ p.isFreePage = decide (i < k) := by
  have hmem := List.mem_map_of_mem (f := stamp) hp
  rw [hpages, prefixUsed, List.map_map] at hmem
  obtain ⟨i,hi,he⟩ := List.mem_map.mp hmem
  simp only [Function.comp_apply, stamp, Prod.mk.injEq] at he
  refine ⟨i,List.mem_range.mp hi,?_,he.2.symm⟩
  rw [frame, ← he.1, initialFrame]

theorem prefix_record (hi : i < n) :
    ∃ p ∈ b.pages, frame p = initialFrame base i ∧ p.isFreePage = decide (i < k) := by
  have hmem : stamp { initialPage base i with isFreePage := decide (i < k) } ∈
      b.pages.map stamp := by
    rw [hpages]
    exact List.mem_map_of_mem (List.mem_map.mpr ⟨i,List.mem_range.mpr hi,rfl⟩)
  obtain ⟨p,hp,he⟩ := List.mem_map.mp hmem
  simp only [stamp, Prod.mk.injEq] at he
  refine ⟨p,hp,?_,he.2⟩
  rw [frame, he.1, initialFrame]

theorem covered_iff : Covered b ↔
    (∀ i, k ≤ i → i < n → ∀ t ∈ tables b, ¬ Meets (initialFrame base i) t) ∧
    (∀ t ∈ tables b, ∀ x, t.Holds x → ∃ i < n, i < k ∧ (initialFrame base i).Holds x) ∧
    ¬ Meets (pageArray b) (superBlock b) ∧ ¬ Meets (pageArray b) (dentryCachePage b) ∧
      ¬ Meets (superBlock b) (dentryCachePage b) := by
  have happart : (tables b).Pairwise (fun t t' => ¬ Meets t t') ↔
      ¬ Meets (pageArray b) (superBlock b) ∧ ¬ Meets (pageArray b) (dentryCachePage b) ∧
        ¬ Meets (superBlock b) (dentryCachePage b) := by
    simp [tables, and_assoc]
  rw [← happart]
  constructor
  · rintro ⟨hused,hkept,hapart⟩
    refine ⟨?_,?_,hapart⟩
    · intro i hk hi t ht hmeets
      obtain ⟨p,hp,hf,hu⟩ := prefix_record hpages hi
      have hlt := of_decide_eq_true (hu.symm.trans (hused p hp t ht (hf ▸ hmeets)))
      omega
    · intro t ht x hx
      obtain ⟨p,hp,hholds,hused⟩ := hkept t ht x hx
      obtain ⟨i,hi,hf,hu⟩ := record_prefix hpages hp
      exact ⟨i,hi,of_decide_eq_true (hu.symm.trans hused),hf ▸ hholds⟩
  · rintro ⟨hused,hkept,hapart⟩
    refine ⟨?_,?_,hapart⟩
    · intro p hp t ht hmeets
      obtain ⟨i,hi,hf,hu⟩ := record_prefix hpages hp
      rw [hu, decide_eq_true_eq]
      by_contra hk
      exact hused i (by omega) hi t ht (hf ▸ hmeets)
    · intro t ht x hx
      obtain ⟨i,hi,hk,hholds⟩ := hkept t ht x hx
      obtain ⟨p,hp,hf,hu⟩ := prefix_record hpages hi
      exact ⟨p,hp,hf ▸ hholds,hu.trans (decide_eq_true hk)⟩

end

section
variable (hfree : b.freePageList = base) (hlen : b.pages.length = n)
include hfree hlen

/-- The frames marked for the array, the super block and the cache are one
stretch from the array on, so only the place of the super block is left to
chance. -/
theorem covered_iff_fits (hend : base.toNat+n*4096 ≤ 2^64) (hsb : b.tarfsSb.toNat = sbStart n)
    (h2 : 2 ≤ n) (hn : n ≤ 2^20)
    (hpages : b.pages.map stamp = (prefixUsed base n (n/256+2)).map stamp)
    (hcache : b.dentryCacheArray = (initialPage base (n/256+1)).physAddrOfPage) :
    Covered b ↔ Fits base.toNat n := by
  have hsbs : sbStart n = 0x31E000+4096*(n/256) := rfl
  have haddr : ∀ i < n/256+2, initialFrame base i = ⟨base.toNat+i*4096,4096⟩ := by
    intro i hi
    rw [initialFrame, initial_address base i (by omega) (by omega)]
  have hpage : ∀ y, base.toNat+y/4096*4096 ≤ base.toNat+y ∧
      base.toNat+y < base.toNat+y/4096*4096+4096 := by
    intro y
    have hdiv := Nat.div_add_mod' y 4096
    have hmod := Nat.mod_lt y (y := 4096) (by decide)
    omega
  have hd : b.dentryCacheArray.toNat = base.toNat+(n/256+1)*4096 := by
    rw [hcache, initial_address base _ (by omega) (by omega)]
  rw [covered_iff hpages, Fits]
  simp only [tables, List.forall_mem_cons, List.not_mem_nil, false_implies, implies_true, and_true,
    meets_iff, Area.Holds, pageArray, superBlock, dentryCachePage, hfree, hlen, hsb, hd]
  constructor
  · rintro ⟨-,⟨-,hblock,-⟩,harray,-,hpage⟩
    obtain ⟨i,hi,hk,hx⟩ := hblock (sbStart n) (by omega)
    rw [haddr i hk] at hx
    dsimp only at hx
    omega
  · rintro ⟨-,-,hlow,hhigh⟩
    refine ⟨?_,⟨?_,?_,?_⟩,by omega,by omega,by omega⟩
    · intro i hk hi
      by_cases hint : i < 2^19
      · rw [initialFrame, initial_address base i (by omega) (by omega)]
        dsimp only
        omega
      · -- a frame that starts again from below ends at the array or is out of reach
        have haway : (base.toNat+(2^64-2^32+i*4096))%2^64+4096 ≤ base.toNat ∨
            2^63 ≤ (base.toNat+(2^64-2^32+i*4096))%2^64 := by omega
        rw [initialFrame, address_wrapped base (by omega) (by omega)]
        dsimp only
        omega
    all_goals
      intro x hx
      obtain ⟨y,rfl⟩ : ∃ y, x = base.toNat+y := Nat.exists_eq_add_of_le (by omega)
      have hk : y/4096 < n/256+2 := by omega
      exact ⟨y/4096,by omega,hk,by rw [haddr _ hk]; exact hpage y⟩

theorem not_covered (hn : 2^20 < n) (hk : k ≤ 2^20)
    (hpages : b.pages.map stamp = (prefixUsed base n k).map stamp) : ¬ Covered b := by
  intro hcov
  have hmiss := ((covered_iff hpages).mp hcov).1 (2^20) hk hn (pageArray b)
    (by simp [tables])
  simp only [initialFrame, address_again, meets_iff, pageArray, hfree, hlen] at hmiss
  omega

omit hfree hlen in
/-- Without a frame for it the cache is null, where no record has its frame. -/
theorem not_covered_short (h1 : n ≤ 1) (hlow : 4096 ≤ base.toNat)
    (hpages : b.pages.map stamp = (prefixUsed base n 1).map stamp)
    (hcache : b.dentryCacheArray = 0) : ¬ Covered b := by
  intro hcov
  have hzero : (dentryCachePage b).Holds 0 := by
    rw [dentryCachePage, hcache]
    exact ⟨by decide,by decide⟩
  obtain ⟨i,hi,-,hx,-⟩ :=
    ((covered_iff hpages).mp hcov).2.1 (dentryCachePage b) (by simp [tables]) 0 hzero
  have hb := base.isLt
  obtain rfl : i = 0 := by omega
  rw [initialFrame, initial_address base 0 (by decide) (by omega)] at hx
  dsimp only at hx
  omega

end

/-- The reservations cover the tables exactly when the super block happens to
lie behind the array in the page that is marked for it. -/
theorem boot_covered_iff (physStart physEnd : Word)
    (h : physStart.toNat+0x1000 < physEnd.toNat) :
    Covered (boot physStart physEnd) ↔
      Fits (physStart.toNat+0x1000) ((physEnd.toNat-(physStart.toNat+0x1000))/4096) := by
  obtain ⟨hbase,hdef⟩ := define_eq h.le
  have hlt := physEnd.isLt
  generalize hn : (physEnd.toNat-(physStart.toNat+0x1000))/4096 = n at *
  have hfree : (boot physStart physEnd).freePageList = physStart+0x1000 := rfl
  have hfits : ¬ (2 ≤ n ∧ n ≤ 2^20) → ¬ Fits (physStart+0x1000).toNat n :=
    fun hno hf => hno ⟨hf.1,hf.2.1⟩
  rw [← hbase]
  by_cases h2 : 2 ≤ n
  · obtain ⟨hpages,hcache⟩ := boot_tables hdef h2
    have hlen : (boot physStart physEnd).pages.length = n := by
      simpa [prefixUsed_length] using congrArg List.length hpages
    by_cases hmax : n ≤ 2^20
    · have hr : numPagesReserved n = n/256 := by
        rw [numPagesReserved_int (by omega)]
        omega
      have hsb : (boot physStart physEnd).tarfsSb.toNat = sbStart n := by
        rw [boot_tarfsSb hdef, sb_toNat (by omega)]
      rw [hr] at hpages hcache
      exact covered_iff_fits hfree hlen (by omega) hsb h2 hmax hpages hcache
    · have hr := reserved_bound n
      exact iff_of_false (not_covered hfree hlen (by omega) (by omega) hpages)
        (hfits (by omega))
  · obtain ⟨hpages,hcache⟩ := boot_tables_short hdef (by omega)
    exact iff_of_false (not_covered_short (by omega) (by omega) hpages hcache)
      (hfits (by omega))

/-- One whole page of records from the address that the super block counts from. -/
theorem boot_covered_page : (0x31D000 : Word).toNat+0x1000 < (0x41E000 : Word).toNat ∧
    Covered (boot 0x31D000 0x41E000) := by
  have h : (0x31D000 : Word).toNat+0x1000 < (0x41E000 : Word).toNat := by decide
  refine ⟨h,(boot_covered_iff _ _ h).mpr ?_⟩
  rw [Fits]
  decide

/-- The range of the machine: the last page of records is filled in part, and
the super block lies in it. -/
theorem super_block_in_array : (0x31D000 : Word).toNat+0x1000 < (0x5000000 : Word).toNat ∧
    ¬ Covered (boot 0x31D000 0x5000000) := by
  refine ⟨by decide,?_⟩
  intro hcov
  obtain ⟨-,hdef⟩ :=
    define_eq (show (0x31D000 : Word).toNat+0x1000 ≤ (0x5000000 : Word).toNat by decide)
  obtain ⟨hpages,-⟩ := boot_tables hdef (by decide)
  have hlen := congrArg List.length hpages
  simp only [List.length_map, prefixUsed_length] at hlen
  have hmiss := ((covered_iff hpages).mp hcov).2.2.1
  rw [meets_iff, pageArray, superBlock, boot_tarfsSb hdef, sb_toNat (by decide), hlen] at hmiss
  exact hmiss (by decide)

end PreemptiveOS.BootReservations
