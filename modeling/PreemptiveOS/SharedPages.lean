import PreemptiveOS.CopyFaults

/-!
# Pages that several processes share

A run is a list of processes that fault on a shared page one after the other.
Whoever faults while others have the page gets a copy; the last one keeps the
frame.
-/

set_option autoImplicit false

namespace PreemptiveOS.SharedPages
open ByteMemory PhysMmgr TableForest VirtMmgr PageTree PageFlags PageRecords FreshFrames Ownership
open DataFrames KernelObjects PageFaults FilePages CopyFaults
open ExecArguments (userFrame userByte)
open Supply (evenFrames evenFrames_ok evenFrames_mem evenFrames_free rootFrame
  blank_coherent)

variable {m m' : Mem} {e r v a : Word} {s : Machine} {p : Page} {pages : List Page}

def Maps (m : Mem) (cr3 v f : Word) : Prop :=
  ∃ e ∈ leaf m cr3 v, e &&& present = present ∧ e &&& addressMask = f

instance (m : Mem) (cr3 v f : Word) : Decidable (Maps m cr3 v f) := by
  unfold Maps
  infer_instance

def sharers (m : Mem) (roots : List Word) (v f : Word) : ℕ :=
  roots.countP (fun y => Maps m y v f)

variable {cr3 f g : Word}

theorem maps_unique (h : Maps m cr3 v f) (h' : Maps m cr3 v g) : f = g := by
  obtain ⟨e,he,_,rfl⟩ := h
  obtain ⟨e',he',_,rfl⟩ := h'
  rw [Option.some.inj (he.symm.trans he')]

theorem maps_congr (f : Word) (h : leaf m' cr3 v = leaf m cr3 v) :
    Maps m' cr3 v f ↔ Maps m cr3 v f := by
  rw [Maps, Maps, h]

variable {k : Word}

theorem maps_retarget (hk : k &&& addressMask = k)
    (h : leaf m cr3 v = some (retarget e k (userFlags.setWidth 64))) : Maps m cr3 v k := by
  refine ⟨_,h,?_,retarget_address _ _ _ hk (by decide)⟩
  rw [retarget_bits _ _ _ hk (by decide)]
  exact BitFields.set_inside _ (by decide)

variable {l : List Word}

theorem countP_flip {p q : Word → Bool} (hn : l.Nodup) (hr : r ∈ l) (hp : p r = true)
    (hq : q r = false) (h : ∀ y ∈ l, y ≠ r → q y = p y) : l.countP p = l.countP q+1 := by
  have hperm := List.perm_cons_erase hr
  have hrest : (l.erase r).countP p = (l.erase r).countP q := by
    apply List.countP_congr
    intro y hy
    obtain ⟨hne,hy⟩ := hn.mem_erase_iff.mp hy
    rw [h y hy hne]
  rw [hperm.countP_eq p, hperm.countP_eq q, List.countP_cons_of_pos hp,
    List.countP_cons_of_neg (by rw [hq]; exact Bool.false_ne_true), hrest]

theorem countP_one_iff {p : Word → Bool} (hn : l.Nodup) (hr : r ∈ l) (hp : p r = true) :
    l.countP p = 1 ↔ ∀ y ∈ l, p y = true → y = r := by
  rw [(List.perm_cons_erase hr).countP_eq p, List.countP_cons_of_pos hp, Nat.add_eq_right,
    List.countP_eq_zero]
  constructor
  · intro h y hy hpy
    by_contra hne
    exact h y (hn.mem_erase_iff.mpr ⟨hne,hy⟩) hpy
  · intro h y hy hpy
    obtain ⟨hne,hy⟩ := hn.mem_erase_iff.mp hy
    exact hne (h y hy hpy)

structure Sharing (kernel : ℕ → Prop) (margin : ℕ) (roots : List Word) (v f : Word) (s₀ : Machine)
    (done : List Word) (s : Machine) : Prop where
  coherent : Coherent kernel margin roots s
  among : ∀ r ∈ done, r ∈ roots
  record : ∃ p, pageOf s.pages f = some p ∧ p.isFreePage = true ∧
    p.referenceCount.toNat = sharers s.mem roots v f
  used : ∀ y ∈ roots, ∃ g, Maps s.mem y v g ∧ ¬ Unused s.pages g
  waiting : ∀ y ∈ roots, y ∉ done → Maps s.mem y v f ∧
    ∀ q j, q++[j] <+: upperPath v → pathEntry s.mem y q j = pathEntry s₀.mem y q j
  own : ∀ r ∈ done, ∀ g, Maps s.mem r v g → ∀ y ∈ roots, y ≠ r → ¬ Maps s.mem y v g

section
variable {kernel : ℕ → Prop} {margin : ℕ} {roots : List Word} {v f : Word} {s₀ s : Machine}
  {done : List Word} (h : Sharing kernel margin roots v f s₀ done s) (hn : roots.Nodup)
  {clear : Mem → ℕ → Mem} (hclear : Clears clear margin) (hv : User v) (hva : Aligned v)
  (r : Word) (hr : r ∈ roots) (hdone : r ∉ done)
include h hn hr hdone

/-- A process that is about to fault is the only one left exactly if all the others
have faulted. -/
theorem alone_iff : sharers s.mem roots v f = 1 ↔ ∀ y ∈ roots, y ≠ r → y ∈ done := by
  have hmaps := (h.waiting r hr hdone).1
  rw [sharers, countP_one_iff hn hr (by simpa using hmaps)]
  constructor
  · intro honly y hy hne
    by_contra hnot
    exact hne (honly y hy (by simpa using (h.waiting y hy hnot).1))
  · intro hall y hy hmapped
    by_contra hne
    exact h.own y (hall y hy hne) f (by simpa using hmapped) r hr (fun he => hne he.symm) hmaps

omit hn hdone in
include hv in
/-- The invariant after a fault, from what it does to the process, the records and
the frames in use. -/
theorem sharing_next {s' : Machine} (hq : Quiet kernel margin roots s (fun u => u = frameOf r) s')
    (hg : Maps s'.mem r v g)
    (hrecord : ∃ p, pageOf s'.pages f = some p ∧ p.isFreePage = true ∧
      p.referenceCount.toNat = sharers s'.mem roots v f)
    (hunused : ∀ b, Unused s'.pages b → Unused s.pages b) (hgused : ¬ Unused s'.pages g)
    (hfresh : ∀ y ∈ roots, y ≠ r → ¬ Maps s.mem y v g) :
    Sharing kernel margin roots v f s₀ (done++[r]) s' := by
  have hothers := quiet_others h.coherent r hr hq
  have hsame : ∀ y ∈ roots, y ≠ r → ∀ b, Maps s'.mem y v b ↔ Maps s.mem y v b :=
    fun y hy hne b => maps_congr b ((hothers y hy hne).1 v)
  constructor
  case coherent => exact quiet_coherent h.coherent hq
  case among =>
    intro x hx
    rcases List.mem_append.mp hx with hx | hx
    · exact h.among x hx
    · rw [List.mem_singleton.mp hx]
      exact hr
  case record => exact hrecord
  case used =>
    intro y hy
    by_cases he : y = r
    · rw [he]
      exact ⟨g,hg,hgused⟩
    · obtain ⟨b,hb,hbused⟩ := h.used y hy
      exact ⟨b,(hsame y hy he b).mpr hb,fun hu => hbused (hunused b hu)⟩
  case waiting =>
    intro y hy hnot
    have he : y ≠ r := fun he => hnot (by simp [he])
    obtain ⟨hmaps,hpath⟩ := h.waiting y hy (fun hd => hnot (by simp [hd]))
    refine ⟨(hsame y hy he f).mpr hmaps,?_⟩
    intro q j hpre
    rw [quiet_upper h.coherent r hr hq y hy he v hv q j hpre, hpath q j hpre]
  case own =>
    intro x hx b hb y hy hne hyb
    by_cases hxr : x = r
    · subst hxr
      rw [maps_unique hb hg] at hyb
      exact hfresh y hy hne ((hsame y hy hne g).mp hyb)
    · have hxd : x ∈ done := by simpa [hxr] using hx
      have hxb := (hsame x (h.among x hxd) hxr b).mp hb
      by_cases hyr : y = r
      · rw [hyr] at hyb
        rw [maps_unique hyb hg] at hxb
        exact hfresh x (h.among x hxd) hxr hxb
      · exact h.own x hxd b hxb y hy hne ((hsame y hy hyr b).mp hyb)

include hv hva hclear

theorem sharing_alone (hone : sharers s.mem roots v f = 1) (hfree : 1 ≤ freeCount s.pages) :
    ∃ s', copyOnWriteFault clear s r v = some s' ∧
      Sharing kernel margin roots v f s₀ (done++[r]) s' ∧
      Quiet kernel margin roots s (fun u => u = frameOf r) s' ∧
      freeCount s.pages = freeCount s'.pages+1 ∧
      Permitted s'.mem r v (userFlags.setWidth 64) := by
  obtain ⟨p,hp,hused,hcount⟩ := h.record
  obtain ⟨e,hleaf,he,hframe⟩ := (h.waiting r hr hdone).1
  rw [hone] at hcount
  have hframes := h.coherent.forest.frames
  obtain ⟨s',hs',hq,hnew,hperm,hpages⟩ := cow_alone h.coherent hclear r v e hr hv hva hleaf p
    (hframe ▸ hp) hused he (BitVec.eq_of_toNat_eq hcount) hfree
  have hmaps : Maps s'.mem r v f := by
    refine ⟨_,hnew,?_,?_⟩
    · rw [BitVec.or_comm]
      exact BitFields.set_inside _ he
    · rw [BitFields.set_outside _ (by decide), hframe]
  have hlater := later_alloc hframes
  have honly : ∀ y ∈ roots, y ≠ r → ¬ Maps s.mem y v f := by
    have hdones := (alone_iff h hn r hr hdone).mp hone
    exact fun y hy hne hm => h.own y (hdones y hy hne) f hm r hr (fun hry => hne hry.symm)
      (h.waiting r hr hdone).1
  have hsharers : sharers s'.mem roots v f = sharers s.mem roots v f := by
    apply List.countP_congr
    intro y hy
    by_cases hyr : y = r
    · rw [hyr]
      simpa using iff_of_true hmaps (h.waiting r hr hdone).1
    · simpa using maps_congr f ((quiet_others h.coherent r hr hq y hy hyr).1 v)
  refine ⟨s',hs',sharing_next h hv r hr hq hmaps ⟨p,?_,hused,?_⟩ ?_ ?_ honly,hq,?_,hperm⟩
  · rw [hpages]
    exact hlater.counted f p hp hused (by intro hz; rw [hz] at hcount; cases hcount)
  · rw [hcount, hsharers, hone]
  · intro b hb
    rw [hpages] at hb
    exact later_unused _ _ hframes hlater b hb
  · intro hu
    rw [hpages] at hu
    exact used_not_unused hframes hp hused (later_unused _ _ hframes hlater f hu)
  · rw [hpages]
    exact freeCount_alloc (alloc_supplied ⟨hframes,rfl,hfree⟩).2

theorem sharing_copied (hmany : 1 < sharers s.mem roots v f) (hfree : 2 ≤ freeCount s.pages) :
    ∃ s', copyOnWriteFault clear s r v = some s' ∧
      Sharing kernel margin roots v f s₀ (done++[r]) s' ∧
      Quiet kernel margin roots s (fun u => u = frameOf r) s' ∧
      freeCount s.pages = freeCount s'.pages+2 ∧
      (Permitted s'.mem r v (userFlags.setWidth 64) ↔ UpperGranted s.mem r v) := by
  obtain ⟨p,hp,hused,hcount⟩ := h.record
  obtain ⟨e,hleaf,he,hframe⟩ := (h.waiting r hr hdone).1
  rw [← hcount] at hmany
  have hframes := h.coherent.forest.frames
  obtain ⟨s',hs',hq,hnew,hperm,hpages,_⟩ := cow_copied h.coherent hclear r v e hr hv hva hleaf p
    (hframe ▸ hp) hused hmany hfree
  -- the two frames that are taken
  obtain ⟨hsup,ha⟩ := alloc_supplied ⟨hframes,rfl,hfree⟩
  obtain ⟨hsup₂,ha₂⟩ := alloc_supplied ⟨hsup.1,rfl,hsup.2.2⟩
  have hlater₁ := later_alloc hframes
  have hlater : Later s.pages (alloc (alloc s).1).1.pages :=
    later_trans hlater₁ (later_alloc hsup.1)
  have hk : Unused (alloc s).1.pages (alloc (alloc s).1).2 := alloc_unused (alloc s).1.pages ha₂
  have hwin := unused_window _ hsup.1 _ hk
  have hmask := aligned_masked _ hwin.1 (lt_trans hwin.2 (by decide))
  have hkeep := (FaultLeaves.fresh_decrement margin (alloc (alloc s).1).1 p).unused
  have hmaps := maps_retarget hmask hnew
  have hunused : Unused s.pages (alloc (alloc s).1).2 := later_unused _ _ hframes hlater₁ _ hk
  have hfresh : ∀ y ∈ roots, ¬ Maps s.mem y v (alloc (alloc s).1).2 := by
    intro y hy hm
    obtain ⟨g,hg,hgused⟩ := h.used y hy
    rw [maps_unique hg hm] at hgused
    exact hgused hunused
  have hnot : ¬ Maps s'.mem r v f := by
    intro hm
    rw [maps_unique hm hmaps] at hframe
    exact hfresh r hr ⟨e,hleaf,he,hframe⟩
  have hsharers : sharers s.mem roots v f = sharers s'.mem roots v f+1 := by
    apply countP_flip hn hr
    · simpa using (h.waiting r hr hdone).1
    · simpa using hnot
    · intro y hy hne
      simpa using maps_congr f ((quiet_others h.coherent r hr hq y hy hne).1 v)
  have hrecord : pageOf s'.pages f = some { p with referenceCount := p.referenceCount-1 } := by
    have hkept := hlater.counted f p hp hused (by rintro hz; rw [hz] at hmany; cases hmany)
    rw [hpages, pageOf_decrement, if_pos (pageOf_address _ _ p hp).symm, hkept]
    rfl
  refine ⟨s',hs',sharing_next h hv r hr hq hmaps ⟨_,hrecord,hused,?_⟩ ?_ ?_
    (fun y hy _ => hfresh y hy),hq,?_,hperm⟩
  · rw [hsharers] at hcount
    show (p.referenceCount-1).toNat = _
    rw [BitVec.toNat_sub_of_le hmany.le, hcount]
    rfl
  · intro b hb
    rw [hpages] at hb
    exact later_unused _ _ hframes hlater b (hkeep b hb)
  · intro hu
    rw [hpages] at hu
    exact alloc_taken hsup.1 ha₂ (hkeep _ hu)
  · have hfirst := freeCount_alloc ha
    have hsecond := freeCount_alloc ha₂
    rw [hpages, freeCount_decrement, hfirst]
    exact congrArg (·+1) hsecond

theorem fault_step (hfree : 2 ≤ freeCount s.pages) :
    ∃ s', copyOnWriteFault clear s r v = some s' ∧
      Sharing kernel margin roots v f s₀ (done++[r]) s' ∧
      Quiet kernel margin roots s (fun u => u = frameOf r) s' ∧
      freeCount s.pages ≤ freeCount s'.pages+2 ∧
      (Permitted s'.mem r v (userFlags.setWidth 64) ↔
        ((∃ y ∈ roots, y ≠ r ∧ y ∉ done) → UpperGranted s₀.mem r v)) := by
  have hpos : 0 < sharers s.mem roots v f :=
    List.countP_pos_iff.mpr ⟨r,hr,by simpa using (h.waiting r hr hdone).1⟩
  by_cases hone : sharers s.mem roots v f = 1
  · obtain ⟨s',hs',hnext,hq,hcount,hperm⟩ := sharing_alone h hn hclear hv hva r hr hdone hone
      (by omega)
    refine ⟨s',hs',hnext,hq,by omega,iff_of_true hperm ?_⟩
    rintro ⟨y,hy,hne,hnot⟩
    exact absurd ((alone_iff h hn r hr hdone).mp hone y hy hne) hnot
  · obtain ⟨s',hs',hnext,hq,hcount,hperm⟩ := sharing_copied h hn hclear hv hva r hr hdone
      (by omega) hfree
    have hother : ∃ y ∈ roots, y ≠ r ∧ y ∉ done := by
      by_contra hall
      push Not at hall
      exact hone ((alone_iff h hn r hr hdone).mpr hall)
    have hsame := upperGranted_congr (h.waiting r hr hdone).2
    refine ⟨s',hs',hnext,hq,by omega,?_⟩
    rw [hperm, hsame]
    exact ⟨fun hg _ => hg,fun hg => hg hother⟩

end

def faults (clear : Mem → ℕ → Mem) (v : Word) : List Word → Machine → Option Machine
  | [], s => some s
  | r::rs, s => (copyOnWriteFault clear s r v).bind (faults clear v rs)

theorem faults_append (clear : Mem → ℕ → Mem) (v : Word) (rs rs' : List Word) (s : Machine) :
    faults clear v (rs++rs') s = (faults clear v rs s).bind (faults clear v rs') := by
  induction rs generalizing s with
  | nil => rfl
  | cons r rs ih =>
    rw [List.cons_append, faults, faults, Option.bind_assoc]
    congr 1
    funext s₁
    exact ih s₁

structure Settled (roots : List Word) (v f : Word) (done : List Word) (s : Machine) : Prop where
  count : ∃ p, pageOf s.pages f = some p ∧ p.referenceCount.toNat = sharers s.mem roots v f
  own : ∀ r ∈ done, ∃ g, Maps s.mem r v g ∧ ∀ y ∈ roots, y ≠ r → ¬ Maps s.mem y v g
  writable : ∀ r ∈ done, Permitted s.mem r v (userFlags.setWidth 64)

def UpperWritable (roots : List Word) (v : Word) (order : List Word) (m : Mem) : Prop :=
  ∀ done r rest, order = done++r::rest → (∃ y ∈ roots, y ≠ r ∧ y ∉ done) → UpperGranted m r v

theorem not_before {order done rest : List Word} (horder : order.Nodup)
    (hsplit : order = done++r::rest) : r ∉ done := by
  rw [hsplit, List.nodup_append] at horder
  exact fun hmem => horder.2.2 r hmem r List.mem_cons_self rfl

section
variable {kernel : ℕ → Prop} {margin : ℕ} {roots : List Word} {v f : Word} {s : Machine}
  (h : Sharing kernel margin roots v f s [] s) (hn : roots.Nodup) {clear : Mem → ℕ → Mem}
  (hclear : Clears clear margin) (hv : User v) (hva : Aligned v) (order : List Word)
  (horder : order.Nodup) (hsub : ∀ r ∈ order, r ∈ roots)
  (hfree : 2*order.length ≤ freeCount s.pages)
include h hn hclear hv hva horder hsub hfree

theorem faults_sharing (done rest : List Word) (hsplit : order = done++rest) :
    ∃ s₁, faults clear v done s = some s₁ ∧ Sharing kernel margin roots v f s done s₁ ∧
      2*rest.length ≤ freeCount s₁.pages ∧
      (UpperWritable roots v order s.mem →
        ∀ x ∈ done, Permitted s₁.mem x v (userFlags.setWidth 64)) := by
  induction done using List.reverseRecOn generalizing rest with
  | nil =>
    rw [hsplit] at hfree
    exact ⟨s,rfl,h,hfree,fun _ x hx => absurd hx (List.not_mem_nil)⟩
  | append_singleton done r ih =>
    rw [List.append_assoc, List.singleton_append] at hsplit
    obtain ⟨s₁,hs₁,h₁,hfree₁,hwritable⟩ := ih (r::rest) hsplit
    have hdone := not_before horder hsplit
    have hr : r ∈ roots := hsub r (by simp [hsplit])
    rw [List.length_cons] at hfree₁
    obtain ⟨s₂,hs₂,h₂,hq,hcount,hperm⟩ := fault_step h₁ hn hclear hv hva r hr hdone (by omega)
    refine ⟨s₂,?_,h₂,by omega,?_⟩
    · rw [faults_append, hs₁, Option.bind_some, faults, hs₂]
      rfl
    · intro hupper x hx
      by_cases hxr : x = r
      · rw [hxr]
        exact hperm.mpr (hupper done r rest hsplit)
      · have hxd : x ∈ done := by simpa [hxr] using hx
        exact (quiet_permitted h₁.coherent r hr hq x (h₁.among x hxd) hxr v hv).mpr
          (hwritable hupper x hxd)

end

variable {roots : List Word} {margin : ℕ} {kernel : ℕ → Prop}

theorem sharing_start (h : Coherent kernel margin roots s) (hp : pageOf s.pages f = some p)
    (hused : p.isFreePage = true) (hcount : p.referenceCount.toNat = roots.length)
    (hmaps : ∀ y ∈ roots, Maps s.mem y v f) : Sharing kernel margin roots v f s [] s := by
  have hall : sharers s.mem roots v f = roots.length := by
    rw [sharers, List.countP_eq_length]
    exact fun y hy => by simpa using hmaps y hy
  constructor
  case coherent => exact h
  case among => exact fun r hr => absurd hr List.not_mem_nil
  case record => exact ⟨p,hp,hused,hcount.trans hall.symm⟩
  case used => exact fun y hy => ⟨f,hmaps y hy,used_not_unused h.forest.frames hp hused⟩
  case waiting => exact fun y hy _ => ⟨hmaps y hy,fun q j _ => rfl⟩
  case own => exact fun r hr => absurd hr List.not_mem_nil

/-- Whatever the order of the faults, the count and the frames are right at every moment
and no process notices the fault of another; the page is writable for all those that have
faulted exactly if the upper levels of those that got a copy were. -/
theorem cow_any_order_iff (kernel : ℕ → Prop) (roots : List Word) (v f : Word) (s : Machine)
    (p : Page) (h : Coherent kernel 0 roots s) (hn : roots.Nodup) (hv : User v) (hva : Aligned v)
    (hp : pageOf s.pages f = some p) (hused : p.isFreePage = true)
    (hcount : p.referenceCount.toNat = roots.length) (hmaps : ∀ y ∈ roots, Maps s.mem y v f)
    (order : List Word) (horder : order.Nodup) (hsub : ∀ r ∈ order, r ∈ roots)
    (hfree : 2*order.length ≤ freeCount s.pages) :
    (∀ done rest, order = done++rest →
      ∃ s₁, faults clearTableExactly v done s = some s₁ ∧ Settled roots v f done s₁ ∧
        ∀ r rest', rest = r::rest' → ∃ s₂, copyOnWriteFault clearTableExactly s₁ r v = some s₂ ∧
          ∀ y ∈ roots, y ≠ r → ∀ w, leaf s₂.mem y w = leaf s₁.mem y w) ↔
      UpperWritable roots v order s.mem := by
  have hstart := sharing_start h hp hused hcount hmaps
  have hrun := faults_sharing hstart hn clears_exactly hv hva order horder hsub hfree
  have hnew : ∀ done r rest, order = done++r::rest → r ∈ roots ∧ r ∉ done :=
    fun done r rest hsplit => ⟨hsub r (by simp [hsplit]),not_before horder hsplit⟩
  constructor
  · intro hall done r rest hsplit hother
    obtain ⟨s₁,hs₁,h₁,hfree₁,_⟩ := hrun done (r::rest) hsplit
    obtain ⟨hr,hdone⟩ := hnew done r rest hsplit
    rw [List.length_cons] at hfree₁
    obtain ⟨s₂,hs₂,_,_,_,hperm⟩ := fault_step h₁ hn clears_exactly hv hva r hr hdone (by omega)
    obtain ⟨s₃,hs₃,hsettled,_⟩ := hall (done++[r]) rest (by rw [hsplit, List.append_assoc]; rfl)
    rw [faults_append, hs₁, Option.bind_some, faults, hs₂] at hs₃
    rw [Option.some.inj hs₃] at hperm
    exact hperm.mp (hsettled.writable r (by simp)) hother
  · intro hupper done rest hsplit
    obtain ⟨s₁,hs₁,h₁,hfree₁,hwritable⟩ := hrun done rest hsplit
    refine ⟨s₁,hs₁,?_,?_⟩
    · constructor
      case count =>
        obtain ⟨q,hq,_,hnum⟩ := h₁.record
        exact ⟨q,hq,hnum⟩
      case own =>
        intro r hr
        obtain ⟨g,hg,_⟩ := h₁.used r (h₁.among r hr)
        exact ⟨g,hg,h₁.own r hr g hg⟩
      case writable => exact hwritable hupper
    · rintro r rest' rfl
      obtain ⟨hr,hdone⟩ := hnew done r rest' hsplit
      rw [List.length_cons] at hfree₁
      obtain ⟨s₂,hs₂,_,hq,_⟩ := fault_step h₁ hn clears_exactly hv hva r hr hdone (by omega)
      exact ⟨s₂,hs₂,fun y hy hne => (quiet_others h₁.coherent r hr hq y hy hne).1⟩

def twoSpaces : Machine :=
  ⟨fun _ => 0,⟨0x6000,2,true⟩::⟨0x7000,2,true⟩::evenFrames 20,0x8000,0x8000,0⟩

def layOut (clear : Mem → ℕ → Mem) (flags : BitVec 32) (s : Machine) (r : Word) : Machine :=
  mapVirtualAddressToPhysicalAddress clear
    (mapVirtualAddressToPhysicalAddress clear s 0x401000 0x7000 flags r false) 0x400000 0x6000 5 r
    false

def laidOut (clear : Mem → ℕ → Mem) (flags : BitVec 32) : Machine :=
  layOut clear flags (layOut clear flags twoSpaces 0x4000) 0x5000

theorem twoSpaces_frames : FramesOk twoSpaces.pages := by
  have heven := evenFrames_ok 20 (by decide)
  have hmem := fun a => evenFrames_mem 20 (by decide) a
  constructor
  case ordered =>
    simp only [twoSpaces, addresses, List.map_cons, List.pairwise_cons, List.mem_cons]
    refine ⟨?_,?_,heven.ordered⟩
    · rintro a (rfl | ha)
      · decide
      · obtain ⟨i,_,hi⟩ := hmem a ha
        rw [hi]
        exact Nat.lt_add_right _ (by decide)
    · intro a ha
      obtain ⟨i,_,hi⟩ := hmem a ha
      rw [hi]
      exact Nat.lt_add_right _ (by decide)
  case aligned =>
    simp only [twoSpaces, addresses, List.map_cons, List.mem_cons]
    rintro a (rfl | rfl | ha)
    · decide
    · decide
    · exact heven.aligned a ha
  case window =>
    simp only [twoSpaces, addresses, List.map_cons, List.mem_cons]
    rintro a (rfl | rfl | ha)
    · decide
    · decide
    · exact heven.window a ha

theorem twoSpaces_coherent (margin : ℕ) : Coherent rootFrame margin [0x4000,0x5000] twoSpaces := by
  apply blank_coherent
  · exact twoSpaces_frames
  · simp only [List.mem_cons, List.not_mem_nil, or_false]
    rintro y (rfl | rfl)
    · decide
    · decide
  · rintro a ⟨p,hp,rfl,hfree⟩
    simp only [List.mem_cons] at hp
    rcases hp with rfl | rfl | hp
    · cases hfree
    · cases hfree
    · obtain ⟨i,_,hi⟩ := evenFrames_mem 20 (by decide) _ (List.mem_map_of_mem hp)
      omega

section
variable {kernel : ℕ → Prop} {margin : ℕ} {roots : List Word} {s : Machine}
  (h : Coherent kernel margin roots s) {clear : Mem → ℕ → Mem} (hclear : Clears clear margin)
  (flags : BitVec 32) (hpr : flags.setWidth 64 &&& present = present)
  (hm : flags.setWidth 64 &&& addressMask = 0) (r : Word) (hr : r ∈ roots) (n : ℕ)
  (hfree : n+6 ≤ freeCount s.pages)
include h hclear hpr hm hr hfree

theorem layOut_step (hblank : ∀ q j, q++[j] <+: upperPath 0x400000 → pathEntry s.mem r q j = 0) :
    Quiet kernel margin roots s (fun u => u = frameOf r) (layOut clear flags s r) ∧
    Maps (layOut clear flags s r).mem r 0x400000 0x6000 ∧
    (UpperGranted (layOut clear flags s r).mem r 0x400000 ↔
      flags.setWidth 64 &&& userFlags.setWidth 64 = userFlags.setWidth 64) ∧
    Later s.pages (layOut clear flags s r).pages ∧ n ≤ freeCount (layOut clear flags s r).pages := by
  obtain ⟨hf₁,hok₁,hfree₁⟩ := map_supplied clear (n+3) s s 0x401000 0x7000 flags r false
    ⟨h.forest.frames,rfl,hfree⟩
  have hq₁ := map_quiet h hclear hr (by decide) hpr hm hok₁
  have hmap₁ := map_owned h hclear 0x7000 hr (by decide) (by decide) (by decide) hpr hm hok₁
  have hlater₁ := keeps_map clear s 0x401000 0x7000 flags r false h.forest.frames
  rw [layOut]
  generalize mapVirtualAddressToPhysicalAddress clear s 0x401000 0x7000 flags r false = s₁
    at *
  have h₁ := quiet_coherent h hq₁
  obtain ⟨_,hok₂,hfree₂⟩ := map_supplied clear n s₁ s₁ 0x400000 0x6000 5 r false
    ⟨hf₁,rfl,hfree₁⟩
  have hq₂ := map_quiet h₁ hclear hr (by decide) (by decide) (by decide) hok₂
  have hmap₂ := map_owned h₁ hclear 0x6000 hr
    (by decide) (by decide) (by decide) (by decide) (by decide) hok₂
  have hlater₂ := keeps_map clear s₁ 0x400000 0x6000 5 r false hf₁
  generalize mapVirtualAddressToPhysicalAddress clear s₁ 0x400000 0x6000 5 r false = s₂
    at *
  have hfirst : ∀ q j, q++[j] <+: upperPath 0x400000 → ∀ need, need &&& addressMask = 0 →
      pathEntry s₁.mem r q j &&& need = flags.setWidth 64 &&& need := by
    intro q j hpre need hneed
    have hpath : q++[j] <+: fullPath 0x401000 :=
      (show q++[j] <+: upperPath 0x401000 from hpre).trans (List.prefix_append _ _)
    have habsent : ¬ (q.length < 3 ∧ (0 : Word) &&& present = present) :=
      fun hp => absurd hp.2 (by decide)
    rw [map_path hmap₁ (by decide) hpath hneed, hblank q j hpre, toAbsent, if_neg habsent]
    exact congrArg (· &&& need) BitVec.zero_or
  have hsecond : ∀ q j, q++[j] <+: upperPath 0x400000 →
      pathEntry s₂.mem r q j &&& userFlags.setWidth 64 =
        flags.setWidth 64 &&& userFlags.setWidth 64 := by
    intro q j hpre
    have hlen := hpre.length_le
    simp only [List.length_append, upperPath, List.length_cons, List.length_nil] at hlen
    rw [map_path hmap₂ (by decide) (hpre.trans (List.prefix_append _ _)) (by decide), toAbsent,
      if_pos ⟨by omega,(hfirst q j hpre present (by decide)).trans hpr⟩,
      hfirst q j hpre _ (by decide)]
  refine ⟨quiet_trans hq₁ hq₂,⟨_,hmap₂.leaf rfl,?_,?_⟩,?_,later_trans hlater₁ hlater₂,hfree₂⟩
  · rw [retarget_bits _ _ _ (by decide) (by decide)]
    exact BitFields.set_inside _ (by decide)
  · exact retarget_address _ _ _ (by decide) (by decide)
  · constructor
    · intro hg
      rw [← hsecond [] (getIndexOfPml4 0x400000) (by simp [upperPath])]
      exact hg [] _ (by simp [upperPath])
    · intro hg q j hpre
      rw [hsecond q j hpre, hg]

end

theorem twoSpaces_path (q : List (Fin 512)) (j : Fin 512) : pathEntry twoSpaces.mem r q j = 0 := by
  rw [pathEntry, entryAt]
  cases descend child (tables twoSpaces.mem) (frameOf r) q with
  | none => rfl
  | some t => exact blank_tables t j

theorem laidOut_shared {clear : Mem → ℕ → Mem} (hclear : Clears clear margin) (flags : BitVec 32)
    (hpr : flags.setWidth 64 &&& present = present) (hm : flags.setWidth 64 &&& addressMask = 0) :
    Coherent rootFrame margin [0x4000,0x5000] (laidOut clear flags) ∧
    (∀ y ∈ ([0x4000,0x5000] : List Word), Maps (laidOut clear flags).mem y 0x400000 0x6000 ∧
      (UpperGranted (laidOut clear flags).mem y 0x400000 ↔
        flags.setWidth 64 &&& userFlags.setWidth 64 = userFlags.setWidth 64)) ∧
    pageOf (laidOut clear flags).pages 0x6000 = some ⟨0x6000,2,true⟩ ∧
    8 ≤ freeCount (laidOut clear flags).pages := by
  have hfirst : (0x4000 : Word) ∈ ([0x4000,0x5000] : List Word) := by decide
  have hsecond : (0x5000 : Word) ∈ ([0x4000,0x5000] : List Word) := by decide
  have hne : (0x5000 : Word) ≠ 0x4000 := by decide
  have hfree : freeCount twoSpaces.pages = 20 := by decide
  have h₀ := twoSpaces_coherent margin
  obtain ⟨hq₁,hmaps₁,hupper₁,hlater₁,hfree₁⟩ := layOut_step h₀ hclear flags hpr hm 0x4000 hfirst 14
    hfree.ge (fun q j _ => twoSpaces_path q j)
  have h₁ := quiet_coherent h₀ hq₁
  have hpath := quiet_upper h₀ 0x4000 hfirst hq₁ 0x5000 hsecond hne 0x400000 (by decide)
  rw [laidOut]
  generalize layOut clear flags twoSpaces 0x4000 = s₁ at *
  obtain ⟨hq₂,hmaps₂,hupper₂,hlater₂,hfree₂⟩ := layOut_step h₁ hclear flags hpr hm 0x5000 hsecond 8
    hfree₁ (fun q j hpre => (hpath q j hpre).trans (twoSpaces_path q j))
  have hkept := quiet_others h₁ 0x5000 hsecond hq₂ 0x4000 hfirst hne.symm
  have hpath₂ := quiet_upper h₁ 0x5000 hsecond hq₂ 0x4000 hfirst hne.symm 0x400000 (by decide)
  refine ⟨quiet_coherent h₁ hq₂,?_,?_,hfree₂⟩
  · simp only [List.mem_cons, List.not_mem_nil, or_false]
    rintro y (rfl | rfl)
    · exact ⟨(maps_congr _ (hkept.1 _)).mpr hmaps₁,
        (upperGranted_congr hpath₂).trans hupper₁⟩
    · exact ⟨hmaps₂,hupper₂⟩
  · exact (later_trans hlater₁ hlater₂).counted 0x6000 _ rfl rfl (by decide)

/-- The second space faults before the first one; their upper levels are writable. -/
theorem cow_any_order_iff_pair :
    UpperWritable [0x4000,0x5000] 0x400000 [0x5000,0x4000] (laidOut clearTableExactly 7).mem ∧
    ∀ done rest, ([0x5000,0x4000] : List Word) = done++rest → ∃ s₁,
      faults clearTableExactly 0x400000 done (laidOut clearTableExactly 7) = some s₁ ∧
      Settled [0x4000,0x5000] 0x400000 0x6000 done s₁ ∧
      ∀ r rest', rest = r::rest' → ∃ s₂,
        copyOnWriteFault clearTableExactly s₁ r 0x400000 = some s₂ ∧
        ∀ y ∈ ([0x4000,0x5000] : List Word), y ≠ r → ∀ w, leaf s₂.mem y w = leaf s₁.mem y w := by
  obtain ⟨hco,hmaps,hrecord,hfree⟩ := laidOut_shared clears_exactly 7 (by decide) (by decide)
  have hupper : UpperWritable [0x4000,0x5000] 0x400000 [0x5000,0x4000]
      (laidOut clearTableExactly 7).mem := by
    intro done r rest hsplit _
    have hr : r ∈ ([0x5000,0x4000] : List Word) := by
      rw [hsplit]
      simp
    exact (hmaps r (by simpa [or_comm] using hr)).2.mpr (by decide)
  refine ⟨hupper,?_⟩
  exact (cow_any_order_iff rootFrame [0x4000,0x5000] 0x400000 0x6000 (laidOut clearTableExactly 7) _
    hco (by decide) (by decide) (by decide) hrecord rfl rfl (fun y hy => (hmaps y hy).1)
    [0x5000,0x4000] (by decide) (by simp) (le_trans (by decide) hfree)).mpr hupper

/-- Two spaces as `fork` lays them out: the first one faults and gets a copy that it
cannot write. -/
theorem cow_copy_not_writable :
    Coherent rootFrame 0 [0x4000,0x5000] (laidOut clearTableExactly 5) ∧
    (∀ y ∈ ([0x4000,0x5000] : List Word),
      Maps (laidOut clearTableExactly 5).mem y 0x400000 0x6000) ∧
    pageOf (laidOut clearTableExactly 5).pages 0x6000 = some ⟨0x6000,2,true⟩ ∧
    ∃ s', faults clearTableExactly 0x400000 [0x4000] (laidOut clearTableExactly 5) = some s' ∧
      ¬ Permitted s'.mem 0x4000 0x400000 (userFlags.setWidth 64) := by
  obtain ⟨hco,hmaps,hrecord,hfree⟩ := laidOut_shared clears_exactly 5 (by decide) (by decide)
  refine ⟨hco,fun y hy => (hmaps y hy).1,hrecord,?_⟩
  have hstart := sharing_start hco hrecord rfl rfl (fun y hy => (hmaps y hy).1)
  obtain ⟨s',hs',_,_,_,hperm⟩ := fault_step hstart (by decide) clears_exactly (by decide) (by decide)
    0x4000 (by decide) (by decide) (le_trans (by decide) hfree)
  refine ⟨s',?_,?_⟩
  · rw [faults, hs']
    rfl
  · rw [hperm]
    intro hupper
    exact absurd ((hmaps 0x4000 (by decide)).2.mp (hupper ⟨0x5000,by decide⟩)) (by decide)

def usedCount (pages : List Page) : ℕ := pages.countP (fun p => p.isFreePage)

theorem usedCount_free (pages : List Page) : usedCount pages+freeCount pages = pages.length := by
  rw [usedCount, freeCount]
  simpa using (List.length_eq_countP_add_countP (fun p : Page => p.isFreePage) (l := pages)).symm

theorem usedCount_alloc (pages : List Page) :
    usedCount (physMemAlloc pages).1+(freeCount pages-1) = usedCount pages+freeCount pages := by
  have hlen : (physMemAlloc pages).1.length = pages.length := by
    have haddr := congrArg List.length (addresses_alloc pages)
    simpa [addresses] using haddr
  rw [← freeCount_allocated, usedCount_free, usedCount_free, hlen]

theorem usedCount_decrement (q : Page) (pages : List Page) :
    usedCount (decrementReferenceCountOfPage q pages) = usedCount pages := by
  have hbefore := usedCount_free pages
  have hafter := usedCount_free (decrementReferenceCountOfPage q pages)
  rw [freeCount_decrement, decrementReferenceCountOfPage, List.length_map] at hafter
  rw [decrementReferenceCountOfPage]
  omega

theorem used_steady : Steady (fun s s' => usedCount s.pages ≤ usedCount s'.pages) := by
  constructor
  case same => exact fun s s' hp _ => (congrArg usedCount hp).ge
  case trans => exact fun s s₁ s₂ => le_trans
  case alloc =>
    intro s
    have halloc := usedCount_alloc s.pages
    show usedCount s.pages ≤ usedCount (physMemAlloc s.pages).1
    omega

structure Thrifty (s : Machine) (cr3 v : Word) (count : BitVec 32) (s' : Machine) : Prop where
  contents : 1 < count → ∀ i < 4096, userByte s'.mem cr3 (v+BitVec.ofNat 64 i) =
    userByte s.mem cr3 (v+BitVec.ofNat 64 i)
  copied : 1 < count → usedCount s'.pages = usedCount s.pages+1
  kept : count = 1 → usedCount s'.pages = usedCount s.pages

/-- The look-up of the count takes a frame that is never given back, so that a copy costs two
frames, and a fault without a copy costs nothing only if there is no frame to take. -/
theorem cow_thrifty_iff (s : Machine) (cr3 v : Word) (p : Page) (hf : FramesOk s.pages)
    (hva : Aligned v) (hp : pageOf s.pages (walkPml4 s.mem cr3 v) = some p)
    (hused : p.isFreePage = true) (hcount : p.referenceCount ≠ 0)
    (hfree : 1 < p.referenceCount → 2 ≤ freeCount s.pages) :
    (∃ s', doCopyOnWriteFault s cr3 v = some s' ∧ Thrifty s cr3 v p.referenceCount s') ↔
      p.referenceCount = 1 ∧ freeCount s.pages = 0 := by
  have hfound := lookUp_record clearTable hf hp hused hcount
  have hlook : usedCount (lookUp clearTable s (walkPml4 s.mem cr3 v)).1.pages+(freeCount s.pages-1) =
      usedCount s.pages+freeCount s.pages := usedCount_alloc s.pages
  have hleft : freeCount (lookUp clearTable s (walkPml4 s.mem cr3 v)).1.pages = freeCount s.pages-1 :=
    freeCount_allocated s.pages
  rw [← copyOnWriteFault_memset, copyOnWriteFault, hfound]
  generalize (lookUp clearTable s (walkPml4 s.mem cr3 v)).1 = s₁ at *
  by_cases hone : p.referenceCount = 1
  · have hpages := (changeFlags_rest s₁ v cr3 (userFlags.setWidth 64)).1
    rw [if_pos hone]
    constructor
    · rintro ⟨s',hs',ht⟩
      have hkept := ht.kept hone
      rw [← Option.some.inj hs', setPml4, hpages] at hkept
      exact ⟨hone,by omega⟩
    · rintro ⟨_,hnone⟩
      refine ⟨_,rfl,?_⟩
      constructor
      case contents => exact fun hmany => absurd hmany (by rw [hone]; decide)
      case copied => exact fun hmany => absurd hmany (by rw [hone]; decide)
      case kept =>
        intro _
        rw [setPml4, hpages]
        omega
  · have hmany : 1 < p.referenceCount := by
      have hz : p.referenceCount.toNat ≠ 0 := fun hz => hcount (BitVec.eq_of_toNat_eq hz)
      have ho : p.referenceCount.toNat ≠ 1 := fun ho => hone (BitVec.eq_of_toNat_eq ho)
      rw [BitVec.lt_def]
      show 1 < p.referenceCount.toNat
      omega
    have htwo := hfree hmany
    rw [if_neg hone, if_pos hmany, copyShared, if_pos hva]
    refine iff_of_false ?_ (fun hc => hone hc.1)
    rintro ⟨s',hs',ht⟩
    have hcopied := ht.copied hmany
    rw [← Option.some.inj hs'] at hcopied
    dsimp only at hcopied
    rw [usedCount_decrement] at hcopied
    have hmap := steady_map used_steady clearTable { (alloc s₁).1 with
      mem := copyBytes s₁.mem (kernelAddr (alloc s₁).2) (kernelAddr (walkPml4 s₁.mem cr3 v)) 4095 }
      v (alloc s₁).2 userFlags cr3 false
    have hsecond : usedCount (alloc s₁).1.pages+(freeCount s₁.pages-1) =
      usedCount s₁.pages+freeCount s₁.pages := usedCount_alloc s₁.pages
    dsimp only at hmap
    omega

theorem clearTable_byte (m : Mem) (hk : Aligned k) {x : ℕ} (hx : x/4096 ≠ frameOf k)
    (hnext : x ≠ 4096*(frameOf k+1)) : clearTable m (kernelAddr k) x = m x := by
  have hpos : 0 < kernelAddr k := by
    rw [kernelAddr_eq]
    exact Nat.add_pos_left (by decide) _
  rw [clearTable_eq m hpos, kernelAddr_aligned k hk, poke, if_neg (by omega), fill,
    if_neg (by omega)]

theorem maps_byte (h : Maps m cr3 v f) (hva : Aligned v) {i : ℕ} (hi : i < 4096) :
    userByte m cr3 (v+BitVec.ofNat 64 i) = some (m (kernelAddr f+i)) := by
  obtain ⟨e,hleaf,hpresent,rfl⟩ := h
  have hlt := v.isLt
  have hnat : (v+BitVec.ofNat 64 i).toNat = v.toNat+i := by
    rw [BitVec.toNat_add, BitVec.toNat_ofNat]
    unfold Aligned at hva
    omega
  rw [leaf_byte hleaf hpresent (by rw [hnat]; unfold Aligned at hva; omega), hnat]
  congr 3
  unfold Aligned at hva
  omega

/-- The page after a fault that copies: two frames are gone, and its last byte is what the
new frame held there. -/
theorem cow_copied_page (h : Coherent kernel 1 roots s) (hr : r ∈ roots) (hv : User v)
    (hva : Aligned v) (hmaps : Maps s.mem r v f) (hp : pageOf s.pages f = some p)
    (hused : p.isFreePage = true) (hmany : 1 < p.referenceCount) (hfree : 2 ≤ freeCount s.pages) :
    ∃ s', doCopyOnWriteFault s r v = some s' ∧
      usedCount s'.pages = usedCount s.pages+2 ∧
      (∀ i < 4095, kernelAddr f+i ≠ 4096*(frameOf (alloc s).2+1) →
        userByte s'.mem r (v+BitVec.ofNat 64 i) = userByte s.mem r (v+BitVec.ofNat 64 i)) ∧
      userByte s'.mem r (v+BitVec.ofNat 64 4095) =
        some (s.mem (kernelAddr (alloc (alloc s).1).2+4095)) := by
  have hframes := h.forest.frames
  obtain ⟨e,hleaf,he,rfl⟩ := hmaps
  obtain ⟨s',hs',_,hnew,_,hpages,hbytes⟩ := cow_copied h clears_memset r v e hr hv hva hleaf p hp
    hused hmany hfree
  obtain ⟨hsup,ha⟩ := alloc_supplied ⟨hframes,rfl,hfree⟩
  obtain ⟨_,ha₂⟩ := alloc_supplied ⟨hsup.1,rfl,hsup.2.2⟩
  have hk : Unused (alloc s).1.pages (alloc (alloc s).1).2 := alloc_unused (alloc s).1.pages ha₂
  have hwin := unused_window _ hsup.1 _ hk
  have hmask := aligned_masked _ hwin.1 (lt_trans hwin.2 (by decide))
  have hal := alloc_aligned hframes
  have hbelow := alloc_below s hframes ha _ hk
  have hmaps := maps_retarget hmask hnew
  refine ⟨s',hs',?_,?_,?_⟩
  · have hfirst : usedCount (alloc s).1.pages+(freeCount s.pages-1) =
      usedCount s.pages+freeCount s.pages := usedCount_alloc s.pages
    have hsecond : usedCount (alloc (alloc s).1).1.pages+(freeCount (alloc s).1.pages-1) =
      usedCount (alloc s).1.pages+freeCount (alloc s).1.pages := usedCount_alloc (alloc s).1.pages
    have hleft := hsup.2.2
    rw [hpages, usedCount_decrement]
    omega
  · intro i hi hnext
    have hother : frameOf (e &&& addressMask) ≠ frameOf (alloc s).2 :=
      used_frame hframes hp hused (alloc_unused s.pages ha)
    rw [maps_byte hmaps hva (by omega), hbytes i (by omega), if_pos hi,
      maps_byte ⟨e,hleaf,he,rfl⟩ hva (by omega)]
    refine congrArg some (clearTable_byte s.mem hal ?_ hnext)
    rw [kernelAddr_aligned _ (masked_aligned e)]
    omega
  · rw [maps_byte hmaps hva (by decide), hbytes 4095 (by decide), if_neg (by decide)]
    apply congrArg some
    apply clearTable_byte s.mem hal
    · rw [kernelAddr_aligned _ hwin.1]
      omega
    · rw [kernelAddr_aligned _ hwin.1]
      omega

def lastSharer : Machine := { laidOut clearTableExactly 5 with pages := [⟨0x6000,1,true⟩] }

theorem cow_thrifty_iff_lastSharer : ∃ s', doCopyOnWriteFault lastSharer 0x4000 0x400000 = some s' ∧
    Thrifty lastSharer 0x4000 0x400000 1 s' := by
  obtain ⟨hco,hmaps,_⟩ := laidOut_shared clears_exactly 5 (by decide) (by decide)
  obtain ⟨e,hleaf,_,he⟩ := (hmaps 0x4000 (by decide)).1
  have hwalk := walk_leaf hco 0x4000 0x400000 e (by decide) hleaf
  rw [he] at hwalk
  rw [lastSharer]
  generalize laidOut clearTableExactly 5 = s at *
  refine (cow_thrifty_iff _ 0x4000 0x400000 ⟨0x6000,1,true⟩ ?_ (by decide) ?_ rfl
    (by decide) (fun hmany => absurd hmany (by decide))).mpr ⟨rfl,rfl⟩
  · constructor <;> simp [addresses]
  · rw [hwalk]
    rfl

def nextFrame (s : Machine) : Word := (alloc (alloc s).1).2

def withStale (s : Machine) (f : Word) : Machine :=
  { s with mem := poke s.mem (kernelAddr (nextFrame s)+4095) (s.mem (kernelAddr f+4095)+1) }

theorem poke_frame (m : Mem) (hk : Aligned k) (i : ℕ) (hi : i < 4096) (b : Byte) :
    WritesFrame (frameOf k) m (poke m (kernelAddr k+i) b) := by
  intro x hx
  rw [kernelAddr_aligned k hk, poke, if_neg (by omega)]

theorem poke_differs (m : Mem) {a b : ℕ} (h : b ≠ a) :
    some (poke m a (m b+1) a) ≠ some (poke m a (m b+1) b) := by
  rw [poke, if_pos rfl, poke, if_neg h]
  simp

theorem stale_byte_copied {kernel : ℕ → Prop} {roots : List Word} {s : Machine}
    (h : Coherent kernel 1 roots s) (r v f : Word) (p : Page) (hr : r ∈ roots) (hv : User v)
    (hva : Aligned v) (hmaps : Maps s.mem r v f) (hp : pageOf s.pages f = some p)
    (hused : p.isFreePage = true) (hmany : 1 < p.referenceCount) (hfree : 2 ≤ freeCount s.pages) :
    Maps (withStale s f).mem r v f ∧ pageOf (withStale s f).pages f = some p ∧
    ∃ s', doCopyOnWriteFault (withStale s f) r v = some s' ∧
      usedCount s'.pages = usedCount (withStale s f).pages+2 ∧
      userByte s'.mem r (v+BitVec.ofNat 64 4095) ≠
        userByte (withStale s f).mem r (v+BitVec.ofNat 64 4095) := by
  have hframes := h.forest.frames
  obtain ⟨hsup,_⟩ := alloc_supplied ⟨hframes,rfl,hfree⟩
  obtain ⟨_,ha₂⟩ := alloc_supplied ⟨hsup.1,rfl,hsup.2.2⟩
  have hk : Unused (alloc s).1.pages (nextFrame s) := alloc_unused (alloc s).1.pages ha₂
  have hun := later_unused _ _ hframes (later_alloc hframes) _ hk
  have hw := poke_frame s.mem (unused_window _ hframes _ hun).1 4095 (by decide)
    (s.mem (kernelAddr f+4095)+1)
  have hq : Quiet kernel 1 roots s (fun _ => False) (withStale s f) :=
    quiet_agree h (fun u hu j => writesFrame_tables hw
      (fun he => h.forest.outside _ hun 0 (Nat.zero_le _) (he ▸ hu)) j)
  have hmaps' := (maps_congr f (quiet_leaf h hq r (Or.inr ⟨hr,id⟩) v)).mpr hmaps
  obtain ⟨s',hs',hcount,_,hlast⟩ := cow_copied_page (quiet_coherent h hq) hr hv hva hmaps' hp
    hused hmany hfree
  refine ⟨hmaps',hp,s',hs',hcount,?_⟩
  have hne : kernelAddr f+4095 ≠ kernelAddr (nextFrame s)+4095 := by
    intro he
    apply used_frame hframes hp hused hun
    rw [frameOf, frameOf, Nat.add_right_cancel he]
  have hnext : (alloc (alloc (withStale s f)).1).2 = nextFrame s := rfl
  have hmem : (withStale s f).mem =
    poke s.mem (kernelAddr (nextFrame s)+4095) (s.mem (kernelAddr f+4095)+1) := rfl
  rw [hlast, hnext, maps_byte hmaps' hva (by decide), hmem]
  exact poke_differs s.mem hne

def staleSpaces : Machine := withStale (laidOut clearTable 5) 0x6000

/-- A fault that copies: two frames more are used and the last byte of the page is lost. -/
theorem cow_copy_loses_byte : Maps staleSpaces.mem 0x4000 0x400000 0x6000 ∧
    pageOf staleSpaces.pages 0x6000 = some ⟨0x6000,2,true⟩ ∧
    ∃ s', doCopyOnWriteFault staleSpaces 0x4000 0x400000 = some s' ∧
      usedCount s'.pages = usedCount staleSpaces.pages+2 ∧
      userByte s'.mem 0x4000 (0x400000+BitVec.ofNat 64 4095) ≠
        userByte staleSpaces.mem 0x4000 (0x400000+BitVec.ofNat 64 4095) := by
  obtain ⟨hco,hmaps,hrecord,hfree⟩ := laidOut_shared clears_memset 5 (by decide) (by decide)
  rw [staleSpaces]
  exact stale_byte_copied hco 0x4000 0x400000 0x6000 _ (by decide) (by decide) (by decide)
    (hmaps 0x4000 (by decide)).1 hrecord rfl (by decide) (le_trans (by decide) hfree)

end PreemptiveOS.SharedPages
