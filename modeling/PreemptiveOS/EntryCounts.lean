import PreemptiveOS.CellCounts
import PreemptiveOS.FaultLeaves
import PreemptiveOS.ExecLeaves

/-!
# Reference counts and last-level entries

For a list of live roots, the last-level entries that map a frame are counted
over all user pages of all roots. The invariant says that every frame with such
an entry is in use and that its reference count is their number. It is kept by
work that only takes frames, by giving a page a new frame, by a fork, by an
exec and by forgetting a root, each under a condition on what was mapped
before. A demand fault gives the page a frame with one reference. A
copy-on-write fault on a shared page takes one reference from the shared frame,
and on a page with the only reference it changes flags alone.
-/

set_option autoImplicit false

namespace PreemptiveOS.EntryCounts
open ByteMemory PhysMmgr VirtMmgr PageTree PageFlags PageRecords FreshFrames Ownership Vmas
open KernelObjects Fork PageFaults FaultLeaves ExecLeaves CellCounts

def pageAddr (n : Fin (2^36)) : Word := BitVec.ofNat 64 (4096*n)

def pageIndex (v : Word) : Fin (2^36) := ⟨pageNumber v,Nat.mod_lt _ (by decide)⟩

theorem pageNumber_addr (n : Fin (2^36)) : pageNumber (pageAddr n) = n := by
  have hn := n.isLt
  rw [pageNumber, pageAddr, BitVec.toNat_ofNat]
  omega

theorem pageIndex_page (v : Word) : pageNumber (pageAddr (pageIndex v)) = pageNumber v :=
  pageNumber_addr _

def entryFrame (m : Mem) (r : Word) (n : Fin (2^36)) : Word :=
  if User (pageAddr n) ∧ pte m r (pageAddr n) &&& present = present then frameAt m r (pageAddr n)
  else 0

def entries (m : Mem) (roots : List Word) (a : Word) : ℕ := total (entryFrame m) roots a

def AllPresent (m : Mem) (r : Word) : Prop :=
  ∀ v, User v → frameAt m r v ≠ 0 → pte m r v &&& present = present

def Idle (pages : List Page) : Prop :=
  ∀ a p, pageOf pages a = some p → p.isFreePage = false → p.referenceCount = 0

def Counted (pages : List Page) (a : Word) (n : ℕ) : Prop :=
  ∃ p, pageOf pages a = some p ∧ p.isFreePage = true ∧ p.referenceCount.toNat = n

structure Tallied (kernel : ℕ → Prop) (roots : List Word) (s : Machine) : Prop where
  coherent : Coherent kernel 1 roots s
  distinct : roots.Nodup
  idle : Idle s.pages
  present : ∀ r ∈ roots, AllPresent s.mem r
  counted : ∀ a, a ≠ 0 → 0 < entries s.mem roots a → Counted s.pages a (entries s.mem roots a)

variable {m : Mem} {a r : Word}

theorem entryFrame_iff (h : AllPresent m r) (n : Fin (2^36)) (ha : a ≠ 0) :
    entryFrame m r n = a ↔ User (pageAddr n) ∧ frameAt m r (pageAddr n) = a := by
  rw [entryFrame]
  constructor
  · intro he
    split_ifs at he with hc
    · exact ⟨hc.1,he⟩
    · exact absurd he.symm ha
  · rintro ⟨hu,rfl⟩
    rw [if_pos ⟨hu,h _ hu ha⟩]

variable {v : Word}

theorem entryFrame_page (h : AllPresent m r) (hv : User v) (ha : a ≠ 0) :
    entryFrame m r (pageIndex v) = a ↔ frameAt m r v = a := by
  have hpage := pageIndex_page v
  rw [entryFrame_iff h _ ha, frameAt, frameAt, pte_same_page m r hpage]
  exact ⟨fun hc => hc.2,fun hc => ⟨user_page hpage hv,hc⟩⟩

variable {roots : List Word}

theorem entries_pos (hr : r ∈ roots) (h : AllPresent m r) (hv : User v) (hne : frameAt m r v ≠ 0) :
    0 < entries m roots (frameAt m r v) :=
  (total_pos_iff _ _).mpr ⟨r,hr,pageIndex v,(entryFrame_page h hv hne).mpr rfl⟩

variable {m' : Mem}

theorem entryFrame_same (h : AllPresent m r) (h' : AllPresent m' r)
    (hsame : ∀ w, User w → frameAt m' r w = frameAt m r w) (n : Fin (2^36)) (ha : a ≠ 0) :
    entryFrame m' r n = a ↔ entryFrame m r n = a := by
  rw [entryFrame_iff h' n ha, entryFrame_iff h n ha]
  exact and_congr_right (fun hu => by rw [hsame _ hu])

theorem frameAt_leaf {w : Word} (h : leaf m' r w = leaf m r w) :
    frameAt m' r w = frameAt m r w ∧ pte m' r w = pte m r w := by
  rw [frameAt, frameAt, pte, pte, h]
  exact ⟨rfl,rfl⟩

theorem allPresent_leaf (h : AllPresent m r) (hsame : ∀ w, User w → leaf m' r w = leaf m r w) :
    AllPresent m' r := by
  intro w hw hne
  obtain ⟨hframe,hpte⟩ := frameAt_leaf (hsame w hw)
  rw [hframe] at hne
  rw [hpte]
  exact h w hw hne

variable {f : Word}

theorem flagged_leaves (h : AllPresent m r) (hf : f &&& addressMask = 0) {flagged : Word → Prop}
    [DecidablePred flagged]
    (hleaf : ∀ w, User w → leaf m' r w =
      if flagged w then (leaf m r w).map (fun e => e ||| f) else leaf m r w) :
    AllPresent m' r ∧ ∀ w, User w → frameAt m' r w = frameAt m r w := by
  have hentry : ∀ w, User w → frameAt m' r w = frameAt m r w ∧
      (pte m r w &&& present = present → pte m' r w &&& present = present) := by
    intro w hw
    simp only [frameAt, pte, hleaf w hw]
    split_ifs
    · cases leaf m r w with
      | none => exact ⟨rfl,id⟩
      | some e =>
        refine ⟨BitFields.set_outside e hf,fun he => ?_⟩
        show (e ||| f) &&& present = present
        rw [BitVec.or_comm]
        exact BitFields.set_inside f he
    · exact ⟨rfl,id⟩
  refine ⟨?_,fun w hw => (hentry w hw).1⟩
  intro w hw hne
  exact (hentry w hw).2 (h w hw ((hentry w hw).1 ▸ hne))

section
variable {pages pages' : List Page} (hl : Later pages pages')
include hl

theorem idle_later (h : Idle pages) : Idle pages' := by
  intro a q hq hfree
  have hmem : a ∈ addresses pages' := by
    rw [← pageOf_address pages' a q hq]
    exact List.mem_map.mpr ⟨q,pageOf_mem pages' a q hq,rfl⟩
  rw [hl.addresses] at hmem
  obtain ⟨p,hp⟩ : ∃ p, pageOf pages a = some p := by
    rw [← Option.isSome_iff_exists, pageOf, List.find?_isSome]
    obtain ⟨p,hp,he⟩ := List.mem_map.mp hmem
    exact ⟨p,hp,decide_eq_true he⟩
  cases hu : p.isFreePage with
  | true =>
    obtain ⟨q',hq',hused⟩ := hl.used a p hp hu
    rw [hq] at hq'
    rw [← Option.some.inj hq', hfree] at hused
    cases hused
  | false =>
    rcases hl.unused a p hp hu (h a p hp hu) with hsame | htaken
    · rw [hq] at hsame
      rw [Option.some.inj hsame]
      exact h a p hp hu
    · rw [hq] at htaken
      rw [Option.some.inj htaken] at hfree
      cases hfree

theorem counted_later {n : ℕ} (hn : 0 < n) (h : Counted pages a n) : Counted pages' a n := by
  obtain ⟨p,hp,hused,hcount⟩ := h
  refine ⟨p,hl.counted a p hp hused ?_,hused,hcount⟩
  rintro hz
  rw [hz] at hcount
  exact hn.ne hcount

theorem taken_counted (hf : FramesOk pages) (hidle : Idle pages) (hunused : Unused pages a)
    (htaken : ¬ Unused pages' a) : Counted pages' a 1 := by
  obtain ⟨p,hp,hfree⟩ := pageOf_unused pages hf a hunused
  have hz := hidle a p hp hfree
  rcases hl.unused a p hp hfree hz with hsame | hnow
  · exact absurd ⟨p,pageOf_mem _ _ _ hsame,pageOf_address _ _ _ hsame,hfree⟩ htaken
  · refine ⟨taken p,hnow,rfl,?_⟩
    rw [taken, hz]
    rfl

end

section
variable {kernel : ℕ → Prop} {roots : List Word} {s s' : Machine} (h : Tallied kernel roots s)
include h

theorem unused_entries (hu : Unused s.pages a) : entries s.mem roots a = 0 := by
  have hf := h.coherent.forest.frames
  have hne : a ≠ 0 := by
    rintro rfl
    exact absurd (hf.window 0 (unused_address hu)).1 (by decide)
  by_contra hpos
  obtain ⟨p,hp,hused,_⟩ := h.counted a hne (Nat.pos_of_ne_zero hpos)
  obtain ⟨q,hq,hfree⟩ := pageOf_unused _ hf a hu
  rw [hp] at hq
  rw [← Option.some.inj hq, hused] at hfree
  cases hfree

theorem tallied_same (hco : Coherent kernel 1 roots s') (hl : Later s.pages s'.pages)
    (hpresent : ∀ r ∈ roots, AllPresent s'.mem r)
    (hsame : ∀ r ∈ roots, ∀ w, User w → frameAt s'.mem r w = frameAt s.mem r w) :
    Tallied kernel roots s' := by
  have hentries : ∀ a, a ≠ 0 → entries s'.mem roots a = entries s.mem roots a := fun a ha =>
    total_congr _ _ a (fun r hr n =>
      entryFrame_same (h.present r hr) (hpresent r hr) (hsame r hr) n ha)
  constructor
  case coherent => exact hco
  case distinct => exact h.distinct
  case idle => exact idle_later hl h.idle
  case present => exact hpresent
  case counted =>
    intro a ha hpos
    rw [hentries a ha] at hpos ⊢
    exact counted_later hl hpos (h.counted a ha hpos)

theorem tallied_work (hw : Work 1 s s') (hok : s'.shortages = s.shortages) :
    Tallied kernel roots s' := by
  have hf := h.coherent.forest.frames
  obtain ⟨hco,hleaf⟩ := fresh_leaf h.coherent s' (hw.fresh hf hok)
  apply tallied_same h hco (hw.later hf)
  · exact fun r hr => allPresent_leaf (h.present r hr) (fun w _ => hleaf r hr w)
  · exact fun r hr w _ => (frameAt_leaf (hleaf r hr w)).1

section
variable {r v p f : Word} (hr : r ∈ roots) (hv : User v)
  (hmap : Remapped kernel roots r v p f s s') (hp : p &&& addressMask = p)
  (hf : f &&& addressMask = 0)
include hmap hp hf

omit h in
theorem remapped_frame (w : Word) (hw : User w) : frameAt s'.mem r w =
    if pageNumber w = pageNumber v then p else frameAt s.mem r w := by
  rw [frameAt, hmap.own w hw]
  split_ifs
  · exact retarget_address _ p f hp hf
  · rfl

variable (hpresent : f &&& present = present)
include hpresent

theorem remapped_present (y : Word) (hy : y ∈ roots) : AllPresent s'.mem y := by
  by_cases hyr : y = r
  · subst hyr
    intro w hw hne
    rw [hmap.own w hw]
    rw [remapped_frame hmap hp hf w hw] at hne
    split_ifs at hne ⊢ with hpage
    · rw [retarget_bits _ p f hp (by decide)]
      exact BitFields.set_inside _ hpresent
    · exact h.present y hy w hw hne
  · exact allPresent_leaf (h.present y hy) (hmap.others y hy hyr)

include hr hv

theorem remapped_entries (a : Word) (ha : a ≠ 0) :
    entries s'.mem roots a+(if frameAt s.mem r v = a then 1 else 0) =
      entries s.mem roots a+(if p = a then 1 else 0) := by
  have hpres := remapped_present h hmap hp hf hpresent
  have hframe := remapped_frame hmap hp hf
  have hmain := total_rewrite (entryFrame s.mem) (entryFrame s'.mem) a h.distinct hr
    (pageIndex v) ?_ ?_
  · have hold := entryFrame_page (h.present r hr) hv ha
    have hnew := entryFrame_page (hpres r hr) hv ha
    rw [hframe v hv, if_pos rfl] at hnew
    simp only [hold, hnew] at hmain
    exact hmain
  · intro y hy hyr n
    exact entryFrame_same (h.present y hy) (hpres y hy)
      (fun w hw => (frameAt_leaf (hmap.others y hy hyr w hw)).1) n ha
  · intro n hn
    rw [entryFrame, entryFrame]
    by_cases hu : User (pageAddr n)
    · have hpage : pageNumber (pageAddr n) ≠ pageNumber v := by
        intro he
        apply hn
        apply Fin.ext
        rw [← pageNumber_addr n, he]
        rfl
      have hown := hmap.own _ hu
      rw [if_neg hpage] at hown
      rw [frameAt, frameAt, hown]
    · simp only [hu, false_and, if_false]

end

variable {r v p f : Word} (hr : r ∈ roots) (hv : User v)
  (hmap : Remapped kernel roots r v p f s s') (hf : f &&& addressMask = 0)
  (hpresent : f &&& present = present) (hunused : Unused s.pages p)
include hr hv hmap hf hpresent hunused

omit hr hv hmap hf hpresent in
theorem unused_masked : p &&& addressMask = p := by
  have hwin := unused_window _ h.coherent.forest.frames p hunused
  exact aligned_masked p hwin.1 (by omega)

/-- A frame that the page did not have is counted right: the new one has one entry, and
the others have as many as before. -/
theorem remapped_counted {pages : List Page} (hl : Later s.pages pages)
    (htaken : ¬ Unused pages p) (a : Word) (ha : a ≠ 0) (hva : frameAt s.mem r v ≠ a)
    (hpos : 0 < entries s'.mem roots a) : Counted pages a (entries s'.mem roots a) := by
  have he := remapped_entries h hr hv hmap (unused_masked h hunused) hf hpresent a ha
  rw [if_neg hva] at he
  by_cases hpa : p = a
  · subst hpa
    rw [if_pos rfl, unused_entries h hunused] at he
    rw [show entries s'.mem roots p = 1 by omega]
    exact taken_counted hl h.coherent.forest.frames h.idle hunused htaken
  · rw [if_neg hpa] at he
    rw [show entries s'.mem roots a = entries s.mem roots a by omega] at hpos ⊢
    exact counted_later hl hpos (h.counted a ha hpos)

/-- A page gets a new frame. Whatever it had before must not be mapped elsewhere. -/
theorem tallied_demand (hl : Later s.pages s'.pages) (htaken : ¬ Unused s'.pages p)
    (hold : frameAt s.mem r v = 0 ∨ entries s.mem roots (frameAt s.mem r v) = 1) :
    Tallied kernel roots s' := by
  have hmask := unused_masked h hunused
  constructor
  case coherent => exact hmap.coherent
  case distinct => exact h.distinct
  case idle => exact idle_later hl h.idle
  case present => exact remapped_present h hmap hmask hf hpresent
  case counted =>
    intro a ha hpos
    apply remapped_counted h hr hv hmap hf hpresent hunused hl htaken a ha _ hpos
    rintro rfl
    have he := remapped_entries h hr hv hmap hmask hf hpresent _ ha
    have hsingle := hold.resolve_left ha
    rw [if_pos rfl, if_neg] at he
    · omega
    · intro hpa
      rw [← hpa, unused_entries h hunused] at hsingle
      cases hsingle

/-- A page that shares its frame gets a frame of its own, and the record of the
shared one loses a reference. -/
theorem tallied_copy {pages : List Page} {page : Page}
    (hpages : s'.pages = decrementReferenceCountOfPage page pages) (hl : Later s.pages pages)
    (htaken : ¬ Unused pages p) (hpage : page.physAddrOfPage = frameAt s.mem r v)
    (hmany : 1 < entries s.mem roots (frameAt s.mem r v)) : Tallied kernel roots s' := by
  have hmask := unused_masked h hunused
  have hne : frameAt s.mem r v ≠ p := by
    intro he
    rw [he, unused_entries h hunused] at hmany
    omega
  have hrecord : ∀ a, pageOf s'.pages a = if a = frameAt s.mem r v then
      (pageOf pages a).map (fun q => { q with referenceCount := q.referenceCount-1 })
      else pageOf pages a := by
    intro a
    rw [hpages, pageOf_decrement, hpage]
  constructor
  case coherent => exact hmap.coherent
  case distinct => exact h.distinct
  case idle =>
    intro a q hq hfree
    rw [hrecord] at hq
    split_ifs at hq with ha
    · obtain ⟨q₀,hq₀,rfl⟩ := Option.map_eq_some_iff.mp hq
      have hnz : a ≠ 0 := by
        rintro rfl
        have hmem : (0 : Word) ∈ addresses s.pages := by
          rw [← hl.addresses, ← pageOf_address pages 0 q₀ hq₀]
          exact List.mem_map.mpr ⟨q₀,pageOf_mem pages 0 q₀ hq₀,rfl⟩
        exact absurd (h.coherent.forest.frames.window 0 hmem).1 (by decide)
      have hpos : 0 < entries s.mem roots a := by
        rw [ha]
        omega
      obtain ⟨q₁,hq₁,hused,_⟩ := counted_later hl hpos (h.counted a hnz hpos)
      rw [hq₀] at hq₁
      have hfree' : q₀.isFreePage = false := hfree
      rw [Option.some.inj hq₁, hused] at hfree'
      cases hfree'
    · exact idle_later hl h.idle a q hq hfree
  case present => exact remapped_present h hmap hmask hf hpresent
  case counted =>
    intro a ha hpos
    by_cases hva : frameAt s.mem r v = a
    · have he := remapped_entries h hr hv hmap hmask hf hpresent a ha
      rw [if_pos hva, if_neg (fun hpa => hne (hva.trans hpa.symm))] at he
      rw [hva] at hmany
      obtain ⟨q,hq,hused,hn⟩ := counted_later hl (by omega) (h.counted a ha (by omega))
      refine ⟨{ q with referenceCount := q.referenceCount-1 },?_,hused,?_⟩
      · rw [hrecord, if_pos hva.symm, hq, Option.map_some]
      · have hle : (1 : BitVec 32) ≤ q.referenceCount := by
          rw [BitVec.le_def, hn]
          show 1 ≤ _
          omega
        show (q.referenceCount-1).toNat = _
        rw [BitVec.toNat_sub_of_le hle, hn]
        show _-1 = _
        omega
    · have hsame : pageOf s'.pages a = pageOf pages a := by
        rw [hrecord, if_neg (fun hav => hva hav.symm)]
      simp only [Counted, hsame]
      exact remapped_counted h hr hv hmap hf hpresent hunused hl htaken a ha hva hpos

end

def Unshared (m : Mem) (roots : List Word) (r : Word) : Prop :=
  ∀ y ∈ roots, y ≠ r → ∀ n n', entryFrame m r n ≠ 0 → entryFrame m y n' ≠ entryFrame m r n

variable {s : Machine} {kernel : ℕ → Prop}

theorem tallied_perm {roots' : List Word} (h : Tallied kernel roots s) (hp : roots.Perm roots') :
    Tallied kernel roots' s := by
  have hentries : ∀ a, entries s.mem roots' a = entries s.mem roots a :=
    fun _ => (hp.symm.map _).sum_eq
  constructor
  case coherent => exact coherent_subset h.coherent (fun y hy => hp.mem_iff.mpr hy)
  case distinct => exact hp.nodup_iff.mp h.distinct
  case idle => exact h.idle
  case present => exact fun r hr => h.present r (hp.mem_iff.mpr hr)
  case counted =>
    intro a ha hpos
    rw [hentries] at hpos ⊢
    exact h.counted a ha hpos

theorem tallied_drop (h : Tallied kernel (r::roots) s) (halone : Unshared s.mem (r::roots) r) :
    Tallied kernel roots s := by
  obtain ⟨hnew,hd⟩ := List.nodup_cons.mp h.distinct
  constructor
  case coherent => exact coherent_subset h.coherent (fun y hy => List.mem_cons_of_mem _ hy)
  case distinct => exact hd
  case idle => exact h.idle
  case present => exact fun y hy => h.present y (List.mem_cons_of_mem _ hy)
  case counted =>
    intro a ha hpos
    obtain ⟨y,hy,n',hn'⟩ := (total_pos_iff _ _).mp hpos
    have hnone : uses (entryFrame s.mem r) a = 0 := by
      by_contra hne
      obtain ⟨n,hn⟩ := (uses_pos_iff).mp (Nat.pos_of_ne_zero hne)
      have hyr : y ≠ r := fun he => hnew (he ▸ hy)
      exact halone y (List.mem_cons_of_mem _ hy) hyr n n' (hn.trans_ne ha) (hn'.trans hn.symm)
    have hsame : entries s.mem (r::roots) a = entries s.mem roots a := by
      rw [entries, total_cons, hnone, Nat.zero_add]
      rfl
    rw [← hsame] at hpos ⊢
    exact h.counted a ha hpos

variable {frames : Option ArgumentFrames} {b : Word}

section
variable {kernel : ℕ → Prop} {roots : List Word} {s s' : Machine} {c : Word}

theorem flagged_frame (ha : a &&& addressMask = a) (hf : f &&& addressMask = 0) :
    (a ||| f) &&& addressMask = a := by
  rw [BitFields.set_outside a hf, ha]

def argumentFrame (frames : Option ArgumentFrames) (w : Word) : Word :=
  match frames with
  | none => 0
  | some a =>
    if pageNumber w = pageNumber (stackStart-2*4096) then a.pointers
    else if pageNumber w = pageNumber stackStart then a.strings
    else 0

theorem newPte_frame
    (hmask : ∀ a ∈ frames, a.strings &&& addressMask = a.strings ∧
      a.pointers &&& addressMask = a.pointers) (w : Word) :
    newPte frames w &&& addressMask = argumentFrame frames w ∧
    (argumentFrame frames w ≠ 0 → newPte frames w &&& present = present) := by
  cases frames with
  | none => exact ⟨show (0 : Word) &&& addressMask = 0 by decide,fun hne => absurd rfl hne⟩
  | some a =>
    obtain ⟨hs,hp⟩ := hmask a rfl
    simp only [newPte, argumentFrame]
    split_ifs
    · exact ⟨flagged_frame hp (by decide),
        fun _ => BitFields.set_inside _ (by decide)⟩
    · exact ⟨flagged_frame hs (by decide),
        fun _ => BitFields.set_inside _ (by decide)⟩
    · exact ⟨rfl,fun hne => absurd rfl hne⟩

theorem argumentFrame_uses {a : ArgumentFrames} (hne : a.strings ≠ a.pointers) (hb : b ≠ 0)
    {row : Fin (2^36) → Word}
    (hrow : ∀ n, row n = b ↔ User (pageAddr n) ∧ argumentFrame (some a) (pageAddr n) = b) :
    uses row b = if b = a.strings ∨ b = a.pointers then 1 else 0 := by
  have hat : ∀ v, User v → (∀ n : Fin (2^36), argumentFrame (some a) (pageAddr n) = b ↔
      pageNumber (pageAddr n) = pageNumber v) → uses row b = 1 := by
    intro v hv hframe
    apply uses_listed row b [pageIndex v] (List.nodup_singleton _)
    intro n
    rw [hrow n, hframe n, List.mem_singleton, pageNumber_addr]
    constructor
    · rintro rfl
      exact ⟨user_page (pageIndex_page v) hv,rfl⟩
    · exact fun hn => Fin.ext hn.2
  by_cases hp : b = a.pointers
  · rw [if_pos (Or.inr hp)]
    apply hat (stackStart-2*4096) (by decide)
    intro n
    simp only [argumentFrame]
    split_ifs with h₁ h₂
    · exact iff_of_true hp.symm h₁
    · exact iff_of_false (fun he => hne (he.trans hp)) h₁
    · exact iff_of_false (fun he => hb he.symm) h₁
  · by_cases hs : b = a.strings
    · rw [if_pos (Or.inl hs)]
      apply hat stackStart (by decide)
      intro n
      simp only [argumentFrame]
      split_ifs with h₁ h₂
      · have hother : pageNumber (pageAddr n) ≠ pageNumber stackStart := by
          rw [h₁]
          decide
        exact iff_of_false (fun he => hp he.symm) hother
      · exact iff_of_true hs.symm h₂
      · exact iff_of_false (fun he => hb he.symm) h₂
    · rw [if_neg (by rintro (he | he); exacts [hs he,hp he])]
      by_contra hpos
      obtain ⟨n,hn⟩ := (uses_pos_iff).mp (Nat.pos_of_ne_zero hpos)
      have hframe := ((hrow n).mp hn).2
      simp only [argumentFrame] at hframe
      split_ifs at hframe
      · exact hp hframe.symm
      · exact hs hframe.symm
      · exact hb hframe.symm

theorem executed_row (hf : FramesOk s.pages) (hx : Executed kernel roots c frames s s') :
    AllPresent s'.mem c ∧ ∀ b, b ≠ 0 → ∀ n, entryFrame s'.mem c n = b ↔
      User (pageAddr n) ∧ argumentFrame frames (pageAddr n) = b := by
  have hmasked : ∀ b, TakenFrame s s' b → b &&& addressMask = b := by
    intro b hb
    have hwin := unused_window _ hf b hb.1
    exact aligned_masked b hwin.1 (by omega)
  have hpte := newPte_frame (fun a ha =>
    ⟨hmasked _ (hx.taken a ha).1,hmasked _ (hx.taken a ha).2.1⟩)
  have hframe : ∀ w, User w → frameAt s'.mem c w = argumentFrame frames w := by
    intro w hw
    rw [frameAt, hx.own w hw]
    exact (hpte w).1
  have hnew : AllPresent s'.mem c := by
    intro w hw hne
    rw [hframe w hw] at hne
    rw [hx.own w hw]
    exact (hpte w).2 hne
  refine ⟨hnew,fun b hb n => ?_⟩
  rw [entryFrame_iff hnew n hb]
  exact and_congr_right (fun hu => by rw [hframe _ hu])

theorem executed_uses (hf : FramesOk s.pages) (hx : Executed kernel roots c frames s s')
    (hb : b ≠ 0) :
    uses (entryFrame s'.mem c) b = 0 ∨
    uses (entryFrame s'.mem c) b = 1 ∧ TakenFrame s s' b := by
  have hrow := (executed_row hf hx).2 b hb
  cases frames with
  | none =>
    left
    by_contra hne
    obtain ⟨n,hn⟩ := (uses_pos_iff).mp (Nat.pos_of_ne_zero hne)
    exact hb (((hrow n).mp hn).2).symm
  | some a =>
    obtain ⟨hstrings,hpointers,hne⟩ := hx.taken a rfl
    have huses := argumentFrame_uses hne hb hrow
    split_ifs at huses with hc
    · right
      refine ⟨huses,?_⟩
      rcases hc with rfl | rfl
      · exact hstrings
      · exact hpointers
    · exact Or.inl huses

theorem tallied_exec (h : Tallied kernel roots s) (hx : Executed kernel roots c frames s s') :
    Tallied kernel (c::roots) s' := by
  have hframes := h.coherent.forest.frames
  have hpresent : ∀ r ∈ c::roots, AllPresent s'.mem r := by
    intro r hr
    rcases List.mem_cons.mp hr with rfl | hr
    · exact (executed_row hframes hx).1
    · exact allPresent_leaf (h.present r hr) (fun w _ => hx.others r hr w)
  have hrest : ∀ a, a ≠ 0 → total (entryFrame s'.mem) roots a = entries s.mem roots a :=
    fun a ha => total_congr _ _ a (fun r hr n => entryFrame_same
      (h.present r hr) (hpresent r (List.mem_cons_of_mem _ hr))
      (fun w _ => (frameAt_leaf (hx.others r hr w)).1) n ha)
  constructor
  case coherent => exact hx.coherent
  case distinct => exact List.nodup_cons.mpr ⟨hx.new,h.distinct⟩
  case idle => exact idle_later hx.later h.idle
  case present => exact hpresent
  case counted =>
    intro b hb hpos
    rw [entries, total_cons, hrest b hb] at hpos ⊢
    rcases executed_uses hframes hx hb with hz | ⟨hone,htaken⟩
    · rw [hz, Nat.zero_add] at hpos ⊢
      exact counted_later hx.later hpos (h.counted b hb hpos)
    · rw [hone, unused_entries h htaken.1]
      exact taken_counted hx.later hframes h.idle htaken.1 htaken.2

end

section
variable {files : KernelPtr → FileData} {s' : Machine} {mm : MmStruct} {vma : Vma}

theorem demand_keeps (hf : FramesOk s.pages) (hva : Aligned v)
    (hround : pageRoundUp v = v) (hd : Delivered files mm vma v)
    (hs' : vmaFault files s mm vma v = some s') : s' = s ∨ Keeps (alloc s).1 s' := by
  unfold vmaFault at hs'
  cases hfault : vma.fault with
  | doFileFault =>
    rw [hfault] at hs'
    obtain ⟨m',rfl,_⟩ := file_result hva hround hd (alloc_aligned hf) hs'
    exact Or.inr (keeps_trans _ _ _ (keeps_map clearTable (alloc s).1 v (alloc s).2 (vmaFlags vma)
      mm.cr3 false) (keeps_same _ _ rfl))
  | doAnonFault =>
    rw [hfault] at hs'
    dsimp only [doAnonFault] at hs'
    rw [hround, if_pos hva] at hs'
    split_ifs at hs'
    · exact Or.inl (Option.some.inj hs').symm
    · have hflags : Keeps (alloc s).1 (changeFlagsInParentPageTables (alloc s).1 v mm.cr3
          ((vmaFlags vma).setWidth 64)) := keeps_same _ _ (changeFlags_rest _ _ _ _).1
      obtain rfl := Option.some.inj hs'
      exact Or.inr (keeps_trans _ _ _ (keeps_trans _ _ _ hflags (keeps_map clearTable _ v (alloc s).2
        (vmaFlags vma) mm.cr3 false)) (keeps_same _ _ rfl))

variable (h : Tallied kernel roots s)
include h

theorem tallied_demandFault (hr : mm.cr3 ∈ roots) (hv : User v) (hva : Aligned v)
    (hround : pageRoundUp v = v) (hd : Delivered files mm vma v)
    (hold : frameAt s.mem mm.cr3 v = 0 ∨ entries s.mem roots (frameAt s.mem mm.cr3 v) = 1)
    (hs' : vmaFault files s mm vma v = some s') (hok : s'.shortages = s.shortages) :
    Tallied kernel roots s' := by
  have hf := h.coherent.forest.frames
  have hfl := vmaFlags_present vma
  rcases demand_remapped h.coherent hr hv hva hround hd hs' hok with rfl | ⟨ha,hmap⟩
  · exact h
  rcases demand_keeps hf hva hround hd hs' with rfl | hkeep
  · exact h
  have hf₁ := framesOk_congr (addresses_alloc s.pages) hf
  have hl : Later s.pages s'.pages :=
    later_trans (later_alloc hf) (hkeep hf₁)
  apply tallied_demand h hr hv hmap hfl.2 hfl.1 (alloc_unused s.pages ha) hl _ hold
  exact fun hu => alloc_taken hf ha (later_unused _ _ hf₁ (hkeep hf₁) _ hu)

theorem found_record (hr : r ∈ roots) (hv : User v)
    (hcount : (findPageFromVirt s v r).2.referenceCount ≠ 0) :
    frameAt s.mem r v ≠ 0 ∧ (findPageFromVirt s v r).2.physAddrOfPage = frameAt s.mem r v ∧
    (findPageFromVirt s v r).2.referenceCount.toNat = entries s.mem roots (frameAt s.mem r v) := by
  have hf := h.coherent.forest.frames
  have hlater := (work_page s (walkPml4 s.mem r v)).later hf
  have hwalk := walk_mapped s.mem v (h.coherent.window r hr).1
  simp only [findPageFromVirt, getPageFromPhysAddr] at hcount ⊢
  cases hq : pageOf (zeroedObject s).1.pages (walkPml4 s.mem r v) with
  | none =>
    rw [hq] at hcount
    exact absurd rfl hcount
  | some q =>
    have hmem : walkPml4 s.mem r v ∈ addresses s.pages := by
      rw [← hlater.addresses, ← pageOf_address _ _ q hq]
      exact List.mem_map.mpr ⟨q,pageOf_mem _ _ q hq,rfl⟩
    have hwin := hf.window _ hmem
    have hne : frameAt s.mem r v ≠ 0 := by
      intro hz
      rcases hwalk.1.mpr hz with he | he
      · rw [he] at hwin
        exact absurd hwin.2 (by decide)
      · rw [he] at hwin
        exact absurd hwin.1 (by decide)
    rw [hwalk.2 hne] at hq
    have hpos := entries_pos hr (h.present r hr) hv hne
    obtain ⟨q',hq',_,hn⟩ := counted_later hlater hpos (h.counted _ hne hpos)
    have hqq : q = q' := Option.some.inj (hq.symm.trans hq')
    refine ⟨hne,pageOf_address _ _ q hq,?_⟩
    rw [hqq]
    exact hn

theorem tallied_cow (hr : r ∈ roots) (hv : User v) (hs' : doCopyOnWriteFault s r v = some s')
    (hok : s'.shortages = s.shortages) : Tallied kernel roots s' := by
  have hf := h.coherent.forest.frames
  have hfound := found_record h hr hv
  have hwork := work_page s (walkPml4 s.mem r v)
  change Work 1 s (findPageFromVirt s v r).1 at hwork
  have hcases := cow_cases h.coherent hr hv hs' hok
  generalize findPageFromVirt s v r = found at *
  rcases hcases with ⟨_,hpages,hco,hleaf⟩ | ⟨hmany,ha,hcopy,hmap⟩ | ⟨rfl,_,_⟩
  · -- the only reference: flags in one entry
    have hflags := fun y hy => flagged_leaves (h.present y hy) (by decide) (hleaf y hy)
    apply tallied_same h hco (by rw [hpages]; exact hwork.later hf)
    · exact fun y hy => (hflags y hy).1
    · exact fun y hy => (hflags y hy).2
  · have hnz : found.2.referenceCount ≠ 0 := by
      rintro hz
      rw [hz] at hmany
      exact absurd hmany (by decide)
    obtain ⟨_,haddr,hn⟩ := hfound hnz
    have hlater := hwork.later hf
    have hf₁ := framesOk_congr hlater.addresses hf
    have hf₂ := framesOk_congr (addresses_alloc found.1.pages) hf₁
    rw [copySharedPage] at hcopy
    dsimp only at hcopy
    split_ifs at hcopy with hva
    have hkeep := keeps_map clearTable { (alloc found.1).1 with
      mem := copyBytes found.1.mem (kernelAddr (alloc found.1).2)
        (kernelAddr (walkPml4 found.1.mem r v)) 4095 } v (alloc found.1).2 userFlags r false hf₂
    generalize mapVirtualAddressToPhysicalAddress clearTable { (alloc found.1).1 with
      mem := copyBytes found.1.mem (kernelAddr (alloc found.1).2)
        (kernelAddr (walkPml4 found.1.mem r v)) 4095 } v (alloc found.1).2 userFlags r false = s₁
      at *
    have hmany' : 1 < found.2.referenceCount.toNat := hmany
    apply tallied_copy h hr hv hmap (by decide) (by decide)
      (later_unused _ _ hf hlater _ (alloc_unused found.1.pages ha))
      (by rw [← Option.some.inj hcopy]) (later_trans hlater (later_trans (later_alloc hf₁) hkeep))
    · exact fun hu => alloc_taken hf₁ ha (later_unused _ _ hf₂ hkeep _ hu)
    · exact haddr
    · omega
  · exact tallied_work h hwork hok

theorem tallied_fault {atNull : Word} {p : Process} (hr : p.mm.cr3 ∈ roots)
    {errorCode : BitVec 32} {address : Word} (hv : User address) (ha : 4096 ≤ address.toNat)
    (hdemand : ∀ vma, findVma p.mm.vma address = some vma →
      ¬ (isPresent errorCode ∧ isWrite errorCode) →
      Delivered files p.mm vma (pageRoundUp address) ∧
      (frameAt s.mem p.mm.cr3 address = 0 ∨
        entries s.mem roots (frameAt s.mem p.mm.cr3 address) = 1)) {x : Handled}
    (hx : doPageFault files atNull s p errorCode address = some x)
    (hok : x.machine.shortages = s.shortages) :
    Tallied kernel roots x.machine ∧ x.process.mm.cr3 = p.mm.cr3 := by
  obtain ⟨hal,hround,hpage⟩ := pageRoundUp_page ha
  have hv' := user_page hpage hv
  obtain ⟨hcr3,hm | hcow | ⟨vma,hfind,hread,hs'⟩⟩ := doPageFault_cases hx
  · rw [hm]
    exact ⟨h,hcr3⟩
  · exact ⟨tallied_cow h hr hv' hcow hok,hcr3⟩
  · obtain ⟨hd,hold⟩ := hdemand vma hfind hread
    have hsame : frameAt s.mem p.mm.cr3 (pageRoundUp address) =
        frameAt s.mem p.mm.cr3 address := by
      rw [frameAt, frameAt, pte_same_page s.mem p.mm.cr3 hpage]
    rw [← hsame] at hold
    exact ⟨tallied_demandFault h hr hv' hal hround hd hold hs' hok,hcr3⟩

end

end PreemptiveOS.EntryCounts
