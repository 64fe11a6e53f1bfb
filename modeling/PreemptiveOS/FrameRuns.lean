import Mathlib.Data.List.GetD
import PreemptiveOS.PhysMmgr

/-!
# Allocation of several frames

`phys_mem_alloc_more` returns the address of the first frame that is not used and marks
one record less than it was asked for, from that frame on, used or not. The last frame
of the run is therefore given out again. With no frame left the index is -1, and the
record in front of the array is read and marked.
-/

set_option autoImplicit false

namespace PreemptiveOS.FrameRuns
open ByteMemory PhysMmgr

@[ext]
structure Records where
  before : Page
  pages : List Page
  behind : ℕ → Page

structure Allocator extends Records where
  nonnull : ∀ p ∈ pages, p.physAddrOfPage ≠ 0
  small : pages.length < 2^31

def marked (p : Page) : Page := { p with isFreePage := true }

def recordAt (r : Records) (i : ℤ) : Page :=
  if i < 0 then r.before else r.pages.getD i.toNat (r.behind (i.toNat-r.pages.length))

def setRecord (r : Records) (i : ℤ) : Records :=
  if i < 0 then { r with before := marked r.before }
  else
    { r with
      pages := setFreePageList r.pages i.toNat
      behind := fun k => if r.pages.length+k = i.toNat then marked (r.behind k) else r.behind k }

def markLoop : ℕ → ℤ → Records → Records
  | 0, _, r => r
  | k+1, i, r => markLoop k (i+1) (setRecord r i)

def indexOfFirstFree (r : Records) : ℤ :=
  match getIndexOfFirstFreePage r.pages with
  | some i => i
  | none => -1

def markCount (index : ℤ) (n : BitVec 32) : ℕ :=
  ((BitVec.ofInt 32 index+(n-1)).toInt-index).toNat

def physMemAllocMore (r : Records) (n : BitVec 32) : Records × Word :=
  let index := indexOfFirstFree r
  (markLoop (markCount index n) index r,(recordAt r index).physAddrOfPage)

def runAddress (p : Word) (j : ℕ) : Word := p+BitVec.ofNat 64 (4096*j)

def HasRun (pages : List Page) (n : ℕ) : Prop :=
  ∃ p, ∀ j < n, ∃ q ∈ pages, q.physAddrOfPage = runAddress p j ∧ q.isFreePage = false

def TakesRun (pages pages' : List Page) (p : Word) (n : ℕ) : Prop :=
  ∀ j < n, ∃ (k : ℕ) (q q' : Page), pages[k]? = some q ∧ q.physAddrOfPage = runAddress p j ∧
    q.isFreePage = false ∧
    pages'[k]? = some q' ∧ q'.isFreePage = true

def Reserves (r : Records) (n : BitVec 32) : Prop :=
  ((physMemAllocMore r n).2 ≠ 0 →
    TakesRun r.pages (physMemAllocMore r n).1.pages (physMemAllocMore r n).2 n.toNat) ∧
  (¬ HasRun r.pages n.toNat → (physMemAllocMore r n).2 = 0 ∧ (physMemAllocMore r n).1 = r)

theorem recordAt_before (r : Records) : recordAt r (-1) = r.before := rfl

theorem recordAt_page (r : Records) (j : ℕ) (q : Page) (h : r.pages[j]? = some q) :
    recordAt r j = q := by
  rw [recordAt, if_neg (by omega), Int.toNat_natCast, List.getD_eq_getElem?_getD, h]
  rfl

theorem recordAt_behind (r : Records) (k : ℕ) :
    recordAt r ((r.pages.length+k : ℕ) : ℤ) = r.behind k := by
  rw [recordAt, if_neg (by omega), Int.toNat_natCast, List.getD_eq_default _ _ (by omega),
    Nat.add_sub_cancel_left]

variable {r : Records}

theorem records_eq {r' : Records} (hlen : r.pages.length = r'.pages.length)
    (h : ∀ x, -1 ≤ x → recordAt r x = recordAt r' x) : r = r' := by
  apply Records.ext
  · exact h (-1) le_rfl
  · refine List.ext_getElem hlen (fun j hj hj' => ?_)
    rw [← recordAt_page r j _ (List.getElem?_eq_getElem hj), h j (by omega),
      recordAt_page r' j _ (List.getElem?_eq_getElem hj')]
  · funext k
    rw [← recordAt_behind r k, h _ (by omega), hlen, recordAt_behind r' k]

theorem setRecord_length (r : Records) (i : ℤ) : (setRecord r i).pages.length = r.pages.length := by
  rw [setRecord]
  split_ifs
  · rfl
  · exact List.length_modify _ _ _

theorem recordAt_setRecord (r : Records) {i x : ℤ} (hi : -1 ≤ i) (hx : -1 ≤ x) :
    recordAt (setRecord r i) x = if x = i then marked (recordAt r x) else recordAt r x := by
  rw [recordAt, recordAt, setRecord_length, setRecord]
  by_cases hneg : i < 0
  · rw [if_pos hneg]
    split_ifs <;> first | rfl | omega
  · rw [if_neg hneg]
    by_cases hxneg : x < 0
    · rw [if_pos hxneg, if_pos hxneg, if_neg (by omega)]
    · rw [if_neg hxneg, if_neg hxneg]
      dsimp only
      by_cases hlt : x.toNat < r.pages.length
      · rw [List.getD_eq_getElem _ _ (by rwa [setFreePageList, List.length_modify]),
          List.getD_eq_getElem _ _ hlt]
        simp only [setFreePageList, List.getElem_modify]
        split_ifs <;> first | rfl | omega
      · rw [List.getD_eq_default _ _ (by rw [setFreePageList, List.length_modify]; omega),
          List.getD_eq_default _ _ (by omega)]
        split_ifs <;> first | rfl | omega

theorem markLoop_length (k : ℕ) (i : ℤ) (r : Records) :
    (markLoop k i r).pages.length = r.pages.length := by
  induction k generalizing i r with
  | zero => rfl
  | succ k ih => rw [markLoop, ih, setRecord_length]

theorem recordAt_markLoop (k : ℕ) (i x : ℤ) (r : Records) (hi : -1 ≤ i) (hx : -1 ≤ x) :
    recordAt (markLoop k i r) x =
      if i ≤ x ∧ x < i+k then marked (recordAt r x) else recordAt r x := by
  induction k generalizing i r with
  | zero => rw [markLoop, if_neg (by omega)]
  | succ k ih =>
    rw [markLoop, ih (i+1) (setRecord r i) (by omega), recordAt_setRecord r hi hx]
    split_ifs <;> first | rfl | omega

theorem toNat_positive (n : BitVec 32) (hn : 1 ≤ n.toInt) : (n.toNat : ℤ) = n.toInt := by
  rw [BitVec.toInt_eq_toNat_cond] at hn ⊢
  split_ifs at hn ⊢ <;> omega

variable {n : BitVec 32} {index : ℤ}

theorem bound_toInt (hlow : -1 ≤ index) (hhigh : index < 2^31) (hn : 1 ≤ n.toInt) :
    (BitVec.ofInt 32 index+(n-1)).toInt =
      if index+(n.toInt-1) < 2^31 then index+(n.toInt-1) else index+(n.toInt-1)-2^32 := by
  have hmax : n.toInt < 2^31 := BitVec.toInt_lt
  have hone : (n-1).toInt = n.toInt-1 := by
    rw [BitVec.toInt_sub, show (1 : BitVec 32).toInt = 1 from rfl]
    exact Int.bmod_eq_of_le (by norm_num; omega) (by norm_num; omega)
  have hindex : (BitVec.ofInt 32 index).toInt = index := by
    rw [BitVec.toInt_ofInt]
    exact Int.bmod_eq_of_le (by norm_num; omega) (by norm_num; omega)
  rw [BitVec.toInt_add, hone, hindex, Int.bmod_def]
  split_ifs <;> omega

theorem markCount_le (index : ℤ) (hlow : -1 ≤ index) (hhigh : index < 2^31) (hn : 1 ≤ n.toInt) :
    markCount index n+1 ≤ n.toNat := by
  have hnat := toNat_positive n hn
  rw [markCount, bound_toInt hlow hhigh hn]
  split_ifs <;> omega

theorem markCount_eq (index : ℤ) (n : BitVec 32) (hlow : -1 ≤ index) (hn : 1 ≤ n.toInt)
    (hhigh : index+(n.toInt-1) < 2^31) : markCount index n+1 = n.toNat := by
  have hnat := toNat_positive n hn
  rw [markCount, bound_toInt hlow (by omega) hn, if_pos hhigh]
  omega

theorem index_cases (r : Records) :
    (∃ us p vs, r.pages = us++p::vs ∧ (∀ u ∈ us, u.isFreePage = true) ∧ p.isFreePage = false ∧
      indexOfFirstFree r = us.length) ∨
    ((∀ p ∈ r.pages, p.isFreePage = true) ∧ indexOfFirstFree r = -1) := by
  by_cases hall : ∀ p ∈ r.pages, p.isFreePage = true
  · exact Or.inr ⟨hall,by rw [indexOfFirstFree, first_free_none hall]⟩
  · obtain ⟨us,p,vs,hpages,hus,hp⟩ := first_unused hall
    exact Or.inl ⟨us,p,vs,hpages,hus,hp,
      by rw [indexOfFirstFree, hpages, first_free_some us vs p hus hp]⟩

variable {p : Word}

theorem runAddress_inj {i j : ℕ} (hi : i < 2^32) (hj : j < 2^32)
    (h : runAddress p i = runAddress p j) : i = j := by
  have hofNat : BitVec.ofNat 64 (4096*i) = BitVec.ofNat 64 (4096*j) := add_left_cancel h
  have hnat := congrArg BitVec.toNat hofNat
  rw [BitVec.toNat_ofNat, BitVec.toNat_ofNat] at hnat
  omega

variable {k : ℕ}

theorem takesRun_le {n : ℕ} (hlow : -1 ≤ index) (hn : n < 2^32)
    (h : TakesRun r.pages (markLoop k index r).pages p n) : n ≤ k := by
  -- a record that changes is in the range of the loop
  have hrange : ∀ j < n, ∃ i : ℕ, (index ≤ i ∧ (i : ℤ) < index+k) ∧
      (recordAt r i).physAddrOfPage = runAddress p j := by
    intro j hj
    obtain ⟨i,q,q',hq,haddr,hfree,hq',hused⟩ := h j hj
    have hnew := recordAt_page _ _ _ hq'
    rw [recordAt_markLoop k index i r hlow (by omega), recordAt_page r i q hq] at hnew
    refine ⟨i,?_,by rw [recordAt_page r i q hq, haddr]⟩
    by_contra hout
    rw [if_neg hout] at hnew
    rw [← hnew, hfree] at hused
    exact Bool.false_ne_true hused
  choose! place hplace haddr using hrange
  have hinj : Set.InjOn (fun j => (place j : ℤ)) (Finset.range n : Set ℕ) := by
    intro i hi j hj hij
    have hi' := Finset.mem_range.mp hi
    have hj' := Finset.mem_range.mp hj
    have hsame : (place i : ℤ) = place j := hij
    exact runAddress_inj (by omega) (by omega) (by rw [← haddr i hi', ← haddr j hj', hsame])
  have hcard := Finset.card_le_card_of_injOn (fun j => (place j : ℤ))
    (t := Finset.Ico index (index+k))
    (fun j hj => Finset.mem_Ico.mpr (hplace j (Finset.mem_range.mp hj))) hinj
  rw [Finset.card_range, Int.card_Ico] at hcard
  omega

theorem not_reserved (s : Allocator) (n : BitVec 32) (hn : 1 ≤ n.toInt) (us vs : List Page)
    (p : Page) (hpages : s.pages = us++p::vs) (hindex : indexOfFirstFree s.toRecords = us.length) :
    ¬ Reserves s.toRecords n := by
  have hget : s.pages[us.length]? = some p := by
    rw [hpages]
    simp
  have haddr : (physMemAllocMore s.toRecords n).2 = p.physAddrOfPage := by
    rw [physMemAllocMore]
    dsimp only
    rw [hindex, recordAt_page s.toRecords us.length p hget]
  have hnonnull : p.physAddrOfPage ≠ 0 := s.nonnull p (List.mem_of_getElem? hget)
  have hsmall : us.length < s.pages.length := (List.getElem?_eq_some_iff.mp hget).1
  have hlimit := s.small
  intro hres
  have htakes := hres.1 (haddr ▸ hnonnull)
  have hle := takesRun_le (by omega) n.isLt htakes
  have hcount := markCount_le (indexOfFirstFree s.toRecords) (by omega) (by omega) hn
  omega

theorem marked_same_iff (p : Page) : marked p = p ↔ p.isFreePage = true := by
  constructor
  · intro h
    rw [← h]
    rfl
  · intro h
    rw [marked, ← h]

theorem markLoop_same_iff (k : ℕ) (r : Records) (hlow : -1 ≤ index) :
    markLoop k index r = r ↔
      ∀ x, index ≤ x → x < index+k → (recordAt r x).isFreePage = true := by
  constructor
  · intro h x hx hx'
    have hmarked := recordAt_markLoop k index x r hlow (by omega)
    rw [h, if_pos ⟨hx,hx'⟩] at hmarked
    exact (marked_same_iff _).mp hmarked.symm
  · intro h
    refine records_eq (markLoop_length k index r) (fun x hx => ?_)
    rw [recordAt_markLoop k index x r hlow hx]
    split_ifs with hin
    · exact (marked_same_iff _).mpr (h x hin.1 hin.2)
    · rfl

theorem full_same_iff (hall : ∀ p ∈ r.pages, p.isFreePage = true) :
    markLoop k (-1) r = r ↔ k = 0 ∨ r.before.isFreePage = true ∧
      ∀ j, r.pages.length+j+1 < k → (r.behind j).isFreePage = true := by
  rw [markLoop_same_iff k r le_rfl]
  constructor
  · intro h
    by_cases hk : k = 0
    · exact Or.inl hk
    · refine Or.inr ⟨h (-1) le_rfl (by omega),fun j hj => ?_⟩
      rw [← recordAt_behind r j]
      exact h _ (by omega) (by omega)
  · rintro (rfl | ⟨hbefore,hbehind⟩) x hx hx'
    · omega
    · by_cases hneg : x = -1
      · rw [hneg]
        exact hbefore
      · obtain ⟨j,rfl⟩ := Int.eq_ofNat_of_zero_le (show 0 ≤ x by omega)
        by_cases hj : j < r.pages.length
        · rw [recordAt_page r j _ (List.getElem?_eq_getElem hj)]
          exact hall _ (List.getElem_mem hj)
        · rw [show j = r.pages.length+(j-r.pages.length) by omega, recordAt_behind]
          exact hbehind _ (by omega)

theorem no_run {pages : List Page} {n : ℕ} (hn : 0 < n) (hall : ∀ p ∈ pages, p.isFreePage = true) :
    ¬ HasRun pages n := by
  rintro ⟨p,hrun⟩
  obtain ⟨q,hq,-,hfree⟩ := hrun 0 hn
  exact Bool.false_ne_true (hfree.symm.trans (hall q hq))

/-- Frames are never reserved. With no frame left the call is right if the memory around
the array happens to be as if it were. -/
theorem reserves_iff (s : Allocator) (n : BitVec 32) (hn : 1 ≤ n.toInt) :
    Reserves s.toRecords n ↔ (∀ p ∈ s.pages, p.isFreePage = true) ∧ s.before.physAddrOfPage = 0 ∧
      (n = 1 ∨ s.before.isFreePage = true ∧
        ∀ j, s.pages.length+j+2 < n.toNat → (s.behind j).isFreePage = true) := by
  rcases index_cases s.toRecords with ⟨us,p,vs,hpages,-,hp,hindex⟩ | ⟨hall,hindex⟩
  · refine iff_of_false (not_reserved s n hn us vs p hpages hindex) (fun h => ?_)
    exact Bool.false_ne_true (hp.symm.trans (h.1 p (hpages ▸ by simp)))
  · have hcount := markCount_eq (-1) n le_rfl hn (by have := BitVec.toInt_lt (x := n); omega)
    have hone : markCount (-1) n = 0 ↔ n = 1 := by
      have htoNat : n = 1 ↔ n.toNat = 1 := by
        rw [← BitVec.toNat_inj]
        rfl
      rw [htoNat]
      omega
    have haddr : (physMemAllocMore s.toRecords n).2 = s.before.physAddrOfPage := by
      rw [physMemAllocMore]
      dsimp only
      rw [hindex, recordAt_before]
    have hsame : (physMemAllocMore s.toRecords n).1 = s.toRecords ↔
        n = 1 ∨ s.before.isFreePage = true ∧
          ∀ j, s.pages.length+j+2 < n.toNat → (s.behind j).isFreePage = true := by
      rw [physMemAllocMore]
      dsimp only
      rw [hindex, full_same_iff hall, hone]
      refine or_congr Iff.rfl (and_congr Iff.rfl (forall_congr' (fun j => imp_congr ?_ Iff.rfl)))
      omega
    rw [Reserves, haddr, hsame, and_iff_right hall]
    constructor
    · rintro ⟨-,hfail⟩
      exact hfail (no_run (by omega) hall)
    · rintro ⟨hnull,hrest⟩
      exact ⟨fun h => absurd hnull h,fun _ => ⟨hnull,hrest⟩⟩

def twoFrames : Allocator where
  before := ⟨0,0,false⟩
  pages := [⟨0x1000,0,false⟩,⟨0x2000,0,false⟩]
  behind := fun _ => ⟨0,0,false⟩
  nonnull := by decide
  small := by decide

theorem reserves_iff_two_frames : ¬ Reserves twoFrames.toRecords 2 := by
  rw [reserves_iff twoFrames 2 (by decide)]
  rintro ⟨hall,-⟩
  exact absurd (hall ⟨0x1000,0,false⟩ List.mem_cons_self) (by decide)

/-- A frame is given out twice. -/
theorem frame_given_twice : ¬ Reserves twoFrames.toRecords 1 ∧
    (physMemAllocMore twoFrames.toRecords 1).2 = 0x1000 ∧
    (physMemAlloc (physMemAllocMore twoFrames.toRecords 1).1.pages).2 = 0x1000 :=
  ⟨not_reserved twoFrames 1 (by decide) [] [⟨0x2000,0,false⟩] ⟨0x1000,0,false⟩ rfl rfl,
    by decide,by decide⟩

theorem markLoop_run (us : List Page) {run vs : List Page} (r : Records)
    (hpages : r.pages = us++run++vs) :
    (markLoop run.length us.length r).pages = us++run.map marked++vs := by
  induction run generalizing us r with
  | nil => exact hpages
  | cons q run ih =>
    have hset : (setRecord r us.length).pages = us++[marked q]++run++vs := by
      rw [setRecord, if_neg (by omega)]
      dsimp only
      rw [hpages, Int.toNat_natCast, List.append_assoc, List.cons_append, set_between]
      simp [marked]
    have hrest := ih (us++[marked q]) (setRecord r us.length) hset
    rw [List.length_append, List.length_singleton, Nat.cast_add, Nat.cast_one] at hrest
    rw [List.length_cons, markLoop, hrest]
    simp

/-- Of a run of free frames that is as long as is asked for, the last one is not
marked, and the next allocation hands it out again. -/
theorem last_given_again (r : Records) (n : BitVec 32) (us run vs : List Page) (last : Page)
    (hpages : r.pages = us++run++last::vs) (hus : ∀ u ∈ us, u.isFreePage = true)
    (hrun : ∀ q ∈ run, q.isFreePage = false) (hlast : last.isFreePage = false)
    (hn : n.toInt = run.length+1) (hsmall : r.pages.length < 2^31) :
    ((run++[last]).head?.map Page.physAddrOfPage) = some (physMemAllocMore r n).2 ∧
      (physMemAllocMore r n).1.pages = us++run.map marked++last::vs ∧
      (physMemAlloc (physMemAllocMore r n).1.pages).2 = last.physAddrOfPage := by
  have hlen : us.length+run.length < 2^31 := by
    rw [hpages] at hsmall
    simp only [List.length_append, List.length_cons] at hsmall
    omega
  obtain ⟨first,rest,hfirst,hfree⟩ : ∃ first rest, run++last::vs = first::rest ∧
      first.isFreePage = false := by
    cases run with
    | nil => exact ⟨last,vs,rfl,hlast⟩
    | cons q run => exact ⟨q,run++last::vs,rfl,hrun q List.mem_cons_self⟩
  have hsplit : r.pages = us++first::rest := by rw [hpages, List.append_assoc, hfirst]
  have hindex : indexOfFirstFree r = us.length := by
    rw [indexOfFirstFree, hsplit, first_free_some us rest first hus hfree]
  have hcount : markCount us.length n = run.length := by
    have heq := markCount_eq us.length n (by omega) (by omega) (by omega)
    have hnat := toNat_positive n (by omega)
    omega
  have hmarked : (physMemAllocMore r n).1.pages = us++run.map marked++last::vs := by
    rw [physMemAllocMore]
    dsimp only
    rw [hindex, hcount, markLoop_run us r hpages]
  refine ⟨?_,hmarked,?_⟩
  · have hget : r.pages[us.length]? = some first := by
      rw [hsplit]
      simp
    rw [physMemAllocMore]
    dsimp only
    rw [hindex, recordAt_page r us.length first hget]
    cases run with
    | nil => exact congrArg (fun q : Page => some q.physAddrOfPage) (List.cons.inj hfirst).1
    | cons q run => exact congrArg (fun q : Page => some q.physAddrOfPage) (List.cons.inj hfirst).1
  · have hused : ∀ u ∈ us++run.map marked, u.isFreePage = true := by
      intro u hu
      rcases List.mem_append.mp hu with hu | hu
      · exact hus u hu
      · obtain ⟨q,-,rfl⟩ := List.mem_map.mp hu
        rfl
    rw [hmarked, alloc_used_append _ hused, physMemAlloc, physAddrOfFirstFreePage, hlast]
    rfl

theorem last_given_again_two :
    (physMemAllocMore twoFrames.toRecords 2).1.pages = [marked ⟨0x1000,0,false⟩,⟨0x2000,0,false⟩] ∧
    (physMemAlloc (physMemAllocMore twoFrames.toRecords 2).1.pages).2 = 0x2000 :=
  (last_given_again twoFrames.toRecords 2 [] [⟨0x1000,0,false⟩] [] ⟨0x2000,0,false⟩ rfl (by simp)
    (by simp) rfl rfl (by decide)).2

end PreemptiveOS.FrameRuns
