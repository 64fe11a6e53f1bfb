import PreemptiveOS.PhysMmgr

/-!
# Runs of the frame allocator

A ledger keeps the page array beside the history of what was returned,
retained and released. The counts are read off the history alone, so they
state what a caller is owed without looking at the array. The invariant
relates the two fields of each record to the caller's count; it is kept by
each of the four operations and hence along every permitted run.
-/

set_option autoImplicit false

namespace PreemptiveOS.FrameLedger
open ByteMemory PhysMmgr

inductive Op where
  | alloc
  | free (f : Word)
  | increment (f : Word)
  | decrement (f : Word)
  deriving DecidableEq, Repr

inductive Event where
  | returned (f : Word)
  | retained (f : Word)
  | released (f : Word)
  deriving DecidableEq, Repr

structure Ledger where
  pages : List Page
  history : List Event
  deriving DecidableEq, Repr

def step : Op → Ledger → Ledger
  | .alloc, l => ⟨(physMemAlloc l.pages).1, .returned (physMemAlloc l.pages).2::l.history⟩
  | .free f, l => ⟨physMemFree f l.pages, .released f::l.history⟩
  | .increment f, l => ⟨incrementReferenceCountOfPage f l.pages, .retained f::l.history⟩
  | .decrement f, l => ⟨decrementReferenceCountOfPage ⟨f,0,true⟩ l.pages, .released f::l.history⟩

def run : List Op → Ledger → Ledger
  | [], l => l
  | op::ops, l => run ops (step op l)

def retains : List Event → Word → ℕ
  | [], _ => 0
  | .returned g::es, f => if f = g then 0 else retains es f
  | .retained g::es, f => if f = g then retains es f+1 else retains es f
  | .released _::es, f => retains es f

def releases : List Event → Word → ℕ
  | [], _ => 0
  | .returned g::es, f => if f = g then 0 else releases es f
  | .retained _::es, f => releases es f
  | .released g::es, f => if f = g then releases es f+1 else releases es f

def Held (es : List Event) (f : Word) : Prop :=
  f ≠ 0 ∧ .returned f ∈ es ∧ releases es f < 1+retains es f

def countOf (pages : List Page) (f : Word) : ℕ :=
  ((pageOf pages f).map (fun p => p.referenceCount.toNat)).getD 0

def Allowed : Op → Ledger → Prop
  | .alloc, _ => True
  | .free f, l => Held l.history f
  | .increment f, l => Held l.history f ∧ countOf l.pages f+1 < 2^32
  | .decrement f, l => Held l.history f ∧ 2 ≤ countOf l.pages f

def Permitted : List Op → Ledger → Prop
  | [], _ => True
  | op::ops, l => Allowed op l ∧ Permitted ops (step op l)

def fresh (physbase : Word) (n : ℕ) : Ledger := ⟨initializeFreeList physbase n, []⟩

def reserved (physbase : Word) (n : ℕ) : List Word :=
  (List.range (numPagesReserved n)).map (fun i => (initialPage physbase i).physAddrOfPage)

def Settled (rs : List Word) (es : List Event) (p : Page) : Prop :=
  if p.physAddrOfPage ∈ rs then p.isFreePage = true ∧ .returned p.physAddrOfPage ∉ es
  else if p.isFreePage then .returned p.physAddrOfPage ∈ es ∧ 0 < p.referenceCount.toNat ∧
    p.referenceCount.toNat+releases es p.physAddrOfPage = 1+retains es p.physAddrOfPage
  else p.referenceCount = 0 ∧ (.returned p.physAddrOfPage ∈ es →
    releases es p.physAddrOfPage = 1+retains es p.physAddrOfPage)

structure Balanced (fs rs : List Word) (l : Ledger) : Prop where
  layout : addresses l.pages = fs
  settled : ∀ a p, pageOf l.pages a = some p → Settled rs l.history p
  known : ∀ f, .returned f ∈ l.history → f = 0 ∨ f ∈ fs

variable {es : List Event} {rs : List Word} {p : Page}

theorem settled_reserved (h : Settled rs es p) (hr : p.physAddrOfPage ∈ rs) :
    p.isFreePage = true ∧ .returned p.physAddrOfPage ∉ es := by
  rwa [Settled, if_pos hr] at h

theorem settled_busy (h : Settled rs es p) (hr : p.physAddrOfPage ∉ rs) (hu : p.isFreePage = true) :
    0 < p.referenceCount.toNat ∧
    p.referenceCount.toNat+releases es p.physAddrOfPage = 1+retains es p.physAddrOfPage := by
  rw [Settled, if_neg hr, if_pos hu] at h
  exact h.2

theorem settled_idle (h : Settled rs es p) (hu : p.isFreePage = false) :
    p.physAddrOfPage ∉ rs ∧ p.referenceCount = 0 ∧
    (.returned p.physAddrOfPage ∈ es →
      releases es p.physAddrOfPage = 1+retains es p.physAddrOfPage) := by
  have hr : p.physAddrOfPage ∉ rs := by
    intro hr
    have := (settled_reserved h hr).1
    simp [hu] at this
  rw [Settled, if_neg hr, if_neg (by simp [hu])] at h
  exact ⟨hr,h⟩

theorem settled_used {f : Word} (rs : List Word) (p : Page) (hp : p.physAddrOfPage = f)
    (hr : f ∉ rs) (hu : p.isFreePage = true) (hm : .returned f ∈ es)
    (hc : 0 < p.referenceCount.toNat)
    (hs : p.referenceCount.toNat+releases es f = 1+retains es f) : Settled rs es p := by
  rw [Settled, hp, if_neg hr, if_pos hu]
  exact ⟨hm,hc,hs⟩

variable {e : Event}

theorem settled_other (h : Settled rs es p) (hr : e ≠ .returned p.physAddrOfPage)
    (hi : retains (e::es) p.physAddrOfPage = retains es p.physAddrOfPage)
    (hl : releases (e::es) p.physAddrOfPage = releases es p.physAddrOfPage) :
    Settled rs (e::es) p := by
  have hm : .returned p.physAddrOfPage ∈ e::es ↔ .returned p.physAddrOfPage ∈ es := by
    simp [Ne.symm hr]
  simpa only [Settled, hm, hi, hl] using h

theorem settled_repaired (h : Settled rs es p) (hu : p.isFreePage = true) :
    Settled rs es (repaired p) := by
  unfold repaired
  split
  · rename_i hz
    by_cases hr : p.physAddrOfPage ∈ rs
    · simpa [Settled, hr] using h
    · have hc := (settled_busy h hr hu).1
      simp [hz] at hc
  · exact h

variable {l : Ledger} {fs : List Word} {f : Word}

theorem held_settled (hb : Balanced fs rs l) (hf : Held l.history f) :
    ∃ p, pageOf l.pages f = some p ∧ p.physAddrOfPage = f ∧
      f ∉ rs ∧ p.isFreePage = true ∧ 0 < p.referenceCount.toNat ∧
      p.referenceCount.toNat+releases l.history f = 1+retains l.history f := by
  obtain ⟨hne,hret,hlt⟩ := hf
  have hmem : f ∈ addresses l.pages := by
    rcases hb.known f hret with h | h
    · exact absurd h hne
    · exact hb.layout ▸ h
  cases hp : pageOf l.pages f with
  | none =>
    obtain ⟨q,hq,hqf⟩ := List.mem_map.mp hmem
    exact absurd hqf (by simpa using List.find?_eq_none.mp hp q hq)
  | some p =>
    have ha := pageOf_address _ _ _ hp
    have hs := hb.settled f p hp
    have hr : p.physAddrOfPage ∉ rs := fun hr =>
      (settled_reserved hs hr).2 (ha ▸ hret)
    by_cases hu : p.isFreePage = true
    · have hc := settled_busy hs hr hu
      rw [ha] at hc hr
      exact ⟨p,rfl,ha,hr,hu,hc⟩
    · have hi := (settled_idle hs (by simpa using hu)).2.2
      rw [ha] at hi
      have := hi hret
      omega

theorem alloc_balanced (hd : fs.Nodup) (hz : (0 : Word) ∉ fs) (hb : Balanced fs rs l) :
    Balanced fs rs (step .alloc l) := by
  have hnd : (addresses l.pages).Nodup := hb.layout ▸ hd
  have hlay : addresses (step .alloc l).pages = fs := (addresses_alloc l.pages).trans hb.layout
  have hne : ∀ a p, pageOf l.pages a = some p → a ≠ 0 := by
    intro a p hp ha
    have hm : a ∈ addresses l.pages :=
      List.mem_map.mpr ⟨p,pageOf_mem _ _ _ hp,pageOf_address _ _ _ hp⟩
    exact hz (ha ▸ hb.layout ▸ hm)
  -- a record other than the returned one keeps its standing under the new event
  have hkeep : ∀ a p q, pageOf l.pages a = some p → a ≠ (physMemAlloc l.pages).2 →
      q = p ∨ (p.isFreePage = true ∧ q = repaired p) →
      Settled rs (.returned (physMemAlloc l.pages).2::l.history) q := by
    intro a p q hp hane hq
    have hpa := pageOf_address _ _ _ hp
    have hs := hb.settled a p hp
    have hqa : q.physAddrOfPage = a := by
      rcases hq with rfl | ⟨_,rfl⟩
      · exact hpa
      · rw [repaired_address, hpa]
    have hsq : Settled rs l.history q := by
      rcases hq with rfl | ⟨hu,rfl⟩
      · exact hs
      · exact settled_repaired hs hu
    apply settled_other hsq
    · simpa [hqa] using Ne.symm hane
    · simp [retains, hqa, hane]
    · simp [releases, hqa, hane]
  by_cases hf : (physMemAlloc l.pages).2 = 0
  · refine ⟨hlay,?_,?_⟩
    · intro a q hq
      have hall : ∀ p ∈ l.pages, p.isFreePage = true := by
        have hpos : ∀ p ∈ l.pages, p.physAddrOfPage ≠ 0 := by
          intro p hp h0
          exact hz (hb.layout ▸ h0 ▸ List.mem_map.mpr ⟨p,hp,rfl⟩)
        have := alloc_zero hpos hf
        simpa [freeCount, List.countP_eq_zero] using this
      have he : (physMemAlloc l.pages).1 = l.pages.map repaired := by
        have := alloc_used_append [] hall
        simpa [physMemAlloc, physAddrOfFirstFreePage] using congrArg Prod.fst this
      simp only [step, he, pageOf_map repaired_address] at hq
      obtain ⟨p,hp,rfl⟩ := Option.map_eq_some_iff.mp hq
      exact hkeep a p _ hp (by rw [hf]; exact hne a p hp)
        (Or.inr ⟨hall p (pageOf_mem _ _ _ hp),rfl⟩)
    · intro f hm
      rcases List.mem_cons.mp hm with h | h
      · left
        simpa [hf] using h
      · exact hb.known f h
  · obtain ⟨⟨p,hp,hu,hp'⟩,hrest⟩ := pageOf_alloc hnd hf
    have hpa := pageOf_address _ _ _ hp
    refine ⟨hlay,?_,?_⟩
    · intro a q hq
      by_cases ha : a = (physMemAlloc l.pages).2
      · have he : q = taken p := by
          have : pageOf (physMemAlloc l.pages).1 a = some (taken p) := ha ▸ hp'
          exact (Option.some.inj (this.symm.trans hq)).symm
        have hs := hb.settled _ p hp
        obtain ⟨hr,hc,_⟩ := settled_idle hs hu
        subst he
        apply settled_used rs (taken p) rfl hr rfl
        · simp [step, taken, hpa]
        · simp [taken, hc]
        · simp [step, taken, hc, hpa, retains, releases]
      · rcases hrest a ha with h | ⟨p',hp1,hu1,hp2⟩
        · exact hkeep a q q (h ▸ hq) ha (Or.inl rfl)
        · have he : q = repaired p' := Option.some.inj (hq.symm.trans hp2)
          exact hkeep a p' q hp1 ha (Or.inr ⟨hu1,he⟩)
    · intro f hm
      rcases List.mem_cons.mp hm with h | h
      · right
        have : f = (physMemAlloc l.pages).2 := by simpa using h
        rw [this, ← hpa, ← hb.layout]
        exact List.mem_map.mpr ⟨p,pageOf_mem _ _ _ hp,rfl⟩
      · exact hb.known f h

section
variable (hb : Balanced fs rs l) (hf : Held l.history f)
include hb hf

theorem held_balanced {l' : Ledger} {g : Page → Page} (hh : l'.history = e::l.history)
    (he : ∀ a, e ≠ .returned a)
    (hi : ∀ a ≠ f, retains (e::l.history) a = retains l.history a)
    (hl : ∀ a ≠ f, releases (e::l.history) a = releases l.history a)
    (hlay : addresses l'.pages = addresses l.pages)
    (hp : ∀ a, pageOf l'.pages a = if a = f then (pageOf l.pages a).map g else pageOf l.pages a)
    (hg : ∀ p, pageOf l.pages f = some p → p.physAddrOfPage = f → f ∉ rs → p.isFreePage = true →
      0 < p.referenceCount.toNat ∧
        p.referenceCount.toNat+releases l.history f = 1+retains l.history f →
      Settled rs (e::l.history) (g p)) : Balanced fs rs l' := by
  obtain ⟨p,hpf,hpa,hr,hu,hc⟩ := held_settled hb hf
  refine ⟨hlay.trans hb.layout,?_,?_⟩
  · intro a q hq
    rw [hh]
    rw [hp a] at hq
    by_cases ha : a = f
    · rw [if_pos ha, ha, hpf] at hq
      exact Option.some.inj hq ▸ hg p hpf hpa hr hu hc
    · rw [if_neg ha] at hq
      have hqa := pageOf_address _ _ _ hq
      apply settled_other (hb.settled a q hq) (he _)
      · rw [hqa, hi a ha]
      · rw [hqa, hl a ha]
  · intro b hm
    rw [hh] at hm
    rcases List.mem_cons.mp hm with h | h
    · exact absurd h.symm (he b)
    · exact hb.known b h

theorem free_balanced : Balanced fs rs (step (.free f) l) := by
  apply held_balanced hb hf rfl (by simp) (fun a ha => rfl) (fun a ha => by simp [releases, ha])
    (addresses_free f l.pages) (fun a => pageOf_free l.pages f a)
  intro p hp hpa hr hu hc
  rw [if_pos hu]
  by_cases h1 : p.referenceCount.toNat = 1
  · have h0 : p.referenceCount-1 = 0 := by bv_omega
    have hd : (dropped p).physAddrOfPage = f := hpa
    rw [Settled, hd, if_neg hr, if_neg (by simpa [dropped] using h0)]
    refine ⟨h0,fun _ => ?_⟩
    simp only [releases, retains, if_true]
    omega
  · have h0 : (p.referenceCount-1).toNat = p.referenceCount.toNat-1 := by bv_omega
    have hne : p.referenceCount-1 ≠ 0 := by bv_omega
    apply settled_used rs (dropped p) hpa hr (by simpa [dropped] using hne)
      (List.mem_cons_of_mem _ hf.2.1)
    · simp only [dropped, h0]
      omega
    · simp only [dropped, releases, retains, if_true, h0]
      omega

theorem increment_balanced (hlt : countOf l.pages f+1 < 2^32) :
    Balanced fs rs (step (.increment f) l) := by
  apply held_balanced hb hf rfl (by simp) (fun a ha => by simp [retains, ha]) (fun a ha => rfl)
    (addresses_increment f l.pages) (fun a => pageOf_increment l.pages f a)
  intro p hp hpa hr hu hc
  have hlt' : p.referenceCount.toNat+1 < 2^32 := by simpa [countOf, hp] using hlt
  have h1 : (p.referenceCount+1).toNat = p.referenceCount.toNat+1 := by bv_omega
  refine settled_used rs _ hpa hr hu (List.mem_cons_of_mem _ hf.2.1) ?_ ?_
  · simp only [h1]
    omega
  · simp only [releases, retains, if_true, h1]
    omega

theorem decrement_balanced (h2 : 2 ≤ countOf l.pages f) :
    Balanced fs rs (step (.decrement f) l) := by
  apply held_balanced hb hf rfl (by simp) (fun a ha => rfl) (fun a ha => by simp [releases, ha])
    (addresses_map (fun p => by split <;> rfl) l.pages)
    (fun a => pageOf_decrement l.pages ⟨f,0,true⟩ a)
  intro p hp hpa hr hu hc
  have h2' : 2 ≤ p.referenceCount.toNat := by simpa [countOf, hp] using h2
  have h1 : (p.referenceCount-1).toNat = p.referenceCount.toNat-1 := by bv_omega
  refine settled_used rs _ hpa hr hu (List.mem_cons_of_mem _ hf.2.1) ?_ ?_
  · simp only [h1]
    omega
  · simp only [releases, retains, if_true, h1]
    omega

end

theorem step_balanced (hd : fs.Nodup) (hz : (0 : Word) ∉ fs) {op : Op} (ha : Allowed op l)
    (hb : Balanced fs rs l) : Balanced fs rs (step op l) := by
  cases op with
  | alloc => exact alloc_balanced hd hz hb
  | free f => exact free_balanced hb ha
  | increment f => exact increment_balanced hb ha.1 ha.2
  | decrement f => exact decrement_balanced hb ha.1 ha.2

theorem run_balanced (hd : fs.Nodup) (hz : (0 : Word) ∉ fs) {ops : List Op} (l : Ledger)
    (hp : Permitted ops l) (hb : Balanced fs rs l) : Balanced fs rs (run ops l) := by
  induction ops generalizing l with
  | nil => exact hb
  | cons op ops ih => exact ih _ hp.2 (step_balanced hd hz hp.1 hb)

theorem fresh_balanced {physbase : Word} {n : ℕ} (hn : n*4096 ≤ 2^31)
    (hb : physbase.toNat+n*4096 ≤ 2^64) :
    Balanced (addresses (initializeFreeList physbase n)) (reserved physbase n)
      (fresh physbase n) := by
  refine ⟨rfl,?_,by simp [fresh]⟩
  intro a p hp
  have hm := pageOf_mem _ _ _ hp
  simp only [fresh, initialize_eq] at hm
  obtain ⟨i,hi,rfl⟩ := List.mem_map.mp hm
  have hi' := List.mem_range.mp hi
  have hres := numPagesReserved_eq n hn
  by_cases hr : i < numPagesReserved n
  · have hmem : (initialPage physbase i).physAddrOfPage ∈ reserved physbase n :=
      List.mem_map.mpr ⟨i,List.mem_range.mpr hr,rfl⟩
    simp [Settled, hmem, hr, fresh]
  · have hmem : (initialPage physbase i).physAddrOfPage ∉ reserved physbase n := by
      intro hin
      obtain ⟨j,hj,he⟩ := List.mem_map.mp hin
      have hj' := List.mem_range.mp hj
      have hnat := congrArg BitVec.toNat he
      rw [initial_address physbase j (by omega) (by omega),
        initial_address physbase i (by omega) (by omega)] at hnat
      omega
    have hc : (initialPage physbase i).referenceCount = 0 := rfl
    simp [Settled, hmem, hr, fresh, hc]

theorem run_sound (physbase : Word) (n : ℕ) (hn : n*4096 ≤ 2^31) (hb : physbase.toNat+n*4096 ≤ 2^64)
    (hz : 0 < physbase.toNat) {ops : List Op} (hp : Permitted ops (fresh physbase n)) :
    Balanced (addresses (initializeFreeList physbase n)) (reserved physbase n)
      (run ops (fresh physbase n)) ∧ (addresses (initializeFreeList physbase n)).Nodup := by
  have hd := ordered_nodup (initialize_ordered hn hb)
  have h0 : (0 : Word) ∉ addresses (initializeFreeList physbase n) := by
    rw [initialize_addresses]
    intro hm
    obtain ⟨i,hi,he⟩ := List.mem_map.mp hm
    have hi' := List.mem_range.mp hi
    have hnat := congrArg BitVec.toNat he
    rw [initial_address physbase i (by omega) (by omega)] at hnat
    simp at hnat
    omega
  exact ⟨run_balanced hd h0 _ hp (fresh_balanced hn hb),hd⟩

theorem next_frame (hd : fs.Nodup) (hl : Balanced fs rs l) (hf : (physMemAlloc l.pages).2 ≠ 0) :
    (physMemAlloc l.pages).2 ∉ rs ∧ (.returned (physMemAlloc l.pages).2 ∈ l.history →
      releases l.history (physMemAlloc l.pages).2 =
        1+retains l.history (physMemAlloc l.pages).2) := by
  obtain ⟨⟨p,hpf,hu,_⟩,_⟩ := pageOf_alloc (hl.layout ▸ hd) hf
  have hpa := pageOf_address _ _ _ hpf
  obtain ⟨hr,_,hs⟩ := settled_idle (hl.settled _ p hpf) hu
  rw [hpa] at hr hs
  exact ⟨hr,hs⟩

theorem released_allocatable (hd : fs.Nodup) (hl : Balanced fs rs l) {g : Word} (hg : g ≠ 0)
    (hret : .returned g ∈ l.history) (hrel : releases l.history g = 1+retains l.history g) :
    ∃ k, (physMemAlloc (allocs k l.pages)).2 = g := by
  have hmem : g ∈ addresses l.pages := by
    rcases hl.known g hret with h | h
    · exact absurd h hg
    · exact hl.layout ▸ h
  obtain ⟨p,hpm,hpa⟩ := List.mem_map.mp hmem
  have hs := hl.settled g p (hpa ▸ pageOf_some (hl.layout ▸ hd) hpm)
  have hu : p.isFreePage = false := by
    by_contra hu
    have hr : p.physAddrOfPage ∉ rs := fun hr => (settled_reserved hs hr).2 (hpa ▸ hret)
    have hc := settled_busy hs hr (by simpa using hu)
    rw [hpa] at hc
    omega
  obtain ⟨us,vs,he⟩ := List.append_of_mem hpm
  rw [he, ← hpa]
  exact unused_allocatable us vs hu

def booted (physStart : Word) : Ledger := ⟨defineFreeList physStart 0x5000000,[]⟩

def bootReserved (physStart : Word) : List Word :=
  reserved (physStart+0x1000) (booted physStart).pages.length

/-- The allocator never hands out a reserved frame, never hands a frame out
again while a reference to it is outstanding, and hands it out again once
none is. The history decides what is outstanding; the array is only asked for
the next frame. The boot code gives the end of the memory, which bounds the
array wherever it starts. -/
theorem frames_not_double_allocated (physStart : Word)
    (hstart : physStart.toNat+0x1000 ≤ 0x5000000) (ops : List Op)
    (hp : Permitted ops (booted physStart)) :
    let l := run ops (booted physStart)
    let f := (physMemAlloc l.pages).2
    (f ≠ 0 → f ∉ bootReserved physStart ∧
      (.returned f ∈ l.history → releases l.history f = 1+retains l.history f)) ∧
    ∀ g, g ≠ 0 → .returned g ∈ l.history → releases l.history g = 1+retains l.history g →
      ∃ k, (physMemAlloc (allocs k l.pages)).2 = g := by
  obtain ⟨hb,hdef⟩ := define_eq (show _ ≤ (0x5000000 : Word).toNat from hstart)
  have hfresh : booted physStart = fresh (physStart+0x1000)
      ((0x5000000-(physStart.toNat+0x1000))/4096) := by rw [booted, hdef]; rfl
  have hlen : (booted physStart).pages.length = (0x5000000-(physStart.toNat+0x1000))/4096 := by
    simp [hfresh, fresh, initialize_eq]
  rw [bootReserved, hlen]
  rw [hfresh] at hp ⊢
  obtain ⟨hl,hd⟩ := run_sound _ _ (by omega) (by omega) (by omega) hp
  exact ⟨next_frame hd hl,fun g => released_allocatable hd hl⟩

/-- A frame retained once and released twice: the run is permitted, so the
theorem says that the frame can be returned again. -/
theorem frames_not_double_allocated_run :
    Permitted [.alloc, .increment 0x4FFE000, .decrement 0x4FFE000, .free 0x4FFE000]
      (booted 0x4FFD000) ∧
    ∃ k, (physMemAlloc (allocs k (run [.alloc, .increment 0x4FFE000, .decrement 0x4FFE000,
      .free 0x4FFE000] (booted 0x4FFD000)).pages)).2 = 0x4FFE000 := by
  have hp : Permitted [.alloc, .increment 0x4FFE000, .decrement 0x4FFE000, .free 0x4FFE000]
      (booted 0x4FFD000) := by
    refine ⟨trivial,⟨⟨?_,?_,?_⟩,?_⟩,⟨⟨?_,?_,?_⟩,?_⟩,⟨?_,?_,?_⟩,trivial⟩ <;> decide
  exact ⟨hp,(frames_not_double_allocated 0x4FFD000 (by decide) _ hp).2 0x4FFE000 (by decide)
    (by decide) (by decide)⟩

end PreemptiveOS.FrameLedger
