import PreemptiveOS.PageRecords

/-!
# Mapping into a forest of page tables

A domain names the roots and the table paths a result is about. On it no
table is reached in two ways, and no unused frame, nor any frame that
clearing a new table there could touch, holds a reached table. One upper
level of a mapping keeps this and adds at most one empty table; a whole
mapping is three such levels and one last-level entry.
-/

set_option autoImplicit false

namespace PreemptiveOS.PageTree
open ByteMemory PhysMmgr TableForest VirtMmgr

abbrev Domain := ℕ → List (Fin 512) → Prop

structure Forest (dom : Domain) (margin : ℕ) (s : Machine) : Prop where
  separate : Separate child (tables s.mem) dom
  frames : FramesOk s.pages
  outside : ∀ a, Unused s.pages a → ∀ d ≤ margin,
    ¬ Reached child (tables s.mem) dom (frameOf a+d)

def Kept (o o' : Option Word) : Prop := o' = o ∨ o = none ∧ o' = some 0

theorem kept_trans (a b c : Option Word) (h : Kept a b) (h' : Kept b c) : Kept a c := by
  rcases h with rfl | ⟨rfl,rfl⟩
  · exact h'
  · rcases h' with rfl | ⟨h',_⟩
    · exact Or.inr ⟨rfl,rfl⟩
    · simp at h'

variable {a b : Option Word}

theorem kept_getD (h : Kept a b) : b.getD 0 = a.getD 0 := by
  rcases h with rfl | ⟨rfl,rfl⟩
  · rfl
  · rfl

theorem kept_refl (a : Option Word) : Kept a a := Or.inl rfl

def Linked (flags : Word) (o o' : Option Word) : Prop :=
  (∃ e, o = some e ∧ child e ≠ none ∧ o' = some e) ∨
  o.bind child = none ∧ ∃ a, a &&& addressMask = a ∧ o' = some (retarget (o.getD 0) a flags)

theorem kept_child (h : Kept a b) : b.bind child = a.bind child := by
  rcases h with rfl | ⟨rfl,rfl⟩
  · rfl
  · exact child_absent (by decide)

variable {flags : Word}

theorem linked_carry {c d : Option Word} (hab : Kept a b) (hbc : Linked flags b c)
    (hcd : Kept c d) : Linked flags a d := by
  rcases hbc with ⟨e,rfl,hch,rfl⟩ | ⟨habs,x,hx,rfl⟩
  · left
    rcases hab with hab | ⟨_,hab⟩
    · rcases hcd with rfl | ⟨h,_⟩
      · exact ⟨e,hab.symm,hch,rfl⟩
      · simp at h
    · obtain rfl := Option.some.inj hab
      exact absurd (child_absent (by decide)) hch
  · right
    rcases hcd with rfl | ⟨h,_⟩
    · exact ⟨(kept_child hab).symm.trans habs,x,hx,by rw [kept_getD hab]⟩
    · simp at h

structure Ensured (dom : Domain) (margin : ℕ) (r : ℕ) (q : List (Fin 512)) (i : Fin 512)
    (t flags : Word) (s s' : Machine) : Prop where
  forest : Forest dom margin s'
  next : descend child (tables s'.mem) r (q++[i]) = some (frameOf (tableOf s'.mem t i))
  others : ∀ r' p' j, dom r' p' → r' ≠ r →
    entryAt child (tables s'.mem) r' p' j = entryAt child (tables s.mem) r' p' j
  kept : ∀ p' j, dom r p' → ¬ (p' = q ∧ j = i) →
    Kept (entryAt child (tables s.mem) r p' j) (entryAt child (tables s'.mem) r p' j)
  linked : Linked flags (entryAt child (tables s.mem) r q i)
    (entryAt child (tables s'.mem) r q i)

structure Levels (clear : Mem → ℕ → Mem) (dom : Domain) (margin : ℕ) (v flags cr3 : Word)
    (s s₁ s₂ s₃ : Machine) (t₁ t₂ t₃ : Word) : Prop where
  made : s₁ = ensureTable clear s cr3 (getIndexOfPml4 v) flags ∧
    s₂ = ensureTable clear s₁ t₁ (getIndexOfPdpt v) flags ∧
    s₃ = ensureTable clear s₂ t₂ (getIndexOfPdt v) flags
  shortages : s₁.shortages = s.shortages ∧ s₂.shortages = s₁.shortages ∧
    s₃.shortages = s₂.shortages
  aligned : Aligned t₁ ∧ Aligned t₂ ∧ Aligned t₃
  pdpt : descend child (tables s₁.mem) (frameOf cr3) [getIndexOfPml4 v] = some (frameOf t₁)
  pdt : descend child (tables s₂.mem) (frameOf cr3) [getIndexOfPml4 v,getIndexOfPdpt v] =
    some (frameOf t₂)
  pt : descend child (tables s₃.mem) (frameOf cr3) (upperPath v) = some (frameOf t₃)
  first : Ensured dom margin (frameOf cr3) [] (getIndexOfPml4 v) cr3 flags s s₁
  second : Ensured dom margin (frameOf cr3) [getIndexOfPml4 v] (getIndexOfPdpt v) t₁ flags s₁ s₂
  third : Ensured dom margin (frameOf cr3) [getIndexOfPml4 v,getIndexOfPdpt v] (getIndexOfPdt v)
    t₂ flags s₂ s₃

def touchedPath (isReference : Bool) (v : Word) : List (Fin 512) :=
  if isReference then upperPath v else upperPath v++[getIndexOfPt v]

theorem touched_page (isReference : Bool) (v w : Word)
    (h : upperPath w++[getIndexOfPt w] <+: touchedPath isReference v) :
    pageNumber w = pageNumber v := by
  have hlen := h.length_le
  cases isReference with
  | true => simp [touchedPath, upperPath] at hlen
  | false =>
    have heq : upperPath w++[getIndexOfPt w] = upperPath v++[getIndexOfPt v] :=
      h.eq_of_length (by simp [touchedPath, upperPath])
    obtain ⟨hu,hl⟩ := List.append_inj' heq (by simp)
    exact (same_page_iff w v).mp ⟨hu,List.singleton_inj.mp hl⟩

structure Mapped (dom : Domain) (margin : ℕ) (isReference : Bool) (v physAddr flags cr3 : Word)
    (s s' : Machine) : Prop where
  forest : Forest dom margin s'
  others : ∀ r p j, dom r p → r ≠ frameOf cr3 →
    entryAt child (tables s'.mem) r p j = entryAt child (tables s.mem) r p j
  kept : ∀ p j, dom (frameOf cr3) p → ¬ p++[j] <+: touchedPath isReference v →
    Kept (entryAt child (tables s.mem) (frameOf cr3) p j)
      (entryAt child (tables s'.mem) (frameOf cr3) p j)
  leaf : isReference = false →
    leaf s'.mem cr3 v = some (retarget ((leaf s.mem cr3 v).getD 0) physAddr flags)
  upper : ∀ q i, q++[i] <+: upperPath v →
    Linked flags (entryAt child (tables s.mem) (frameOf cr3) q i)
      (entryAt child (tables s'.mem) (frameOf cr3) q i)

theorem alloc_pages (s : Machine) : (alloc s).1.pages = (physMemAlloc s.pages).1 := rfl

theorem alloc_frame (s : Machine) : (alloc s).2 = (physMemAlloc s.pages).2 := rfl

theorem unused_window (pages : List Page) (hk : FramesOk pages) (a : Word) (ha : Unused pages a) :
    Aligned a ∧ a.toNat < 2^31 :=
  ⟨hk.aligned a (unused_address ha),(hk.window a (unused_address ha)).2⟩

variable {i : Fin 512} {s : Machine} {t : Word}

theorem ensure_present (clear : Mem → ℕ → Mem) (flags : Word)
    (h : entry s.mem t i &&& present = present) : ensureTable clear s t i flags = s := if_pos h

theorem ensure_tables (clear : Mem → ℕ → Mem) (flags : Word) (ht : Aligned t)
    (h : ¬ entry s.mem t i &&& present = present) :
    tables (ensureTable clear s t i flags).mem =
      put (tables (clear s.mem (kernelAddr (alloc s).2))) (frameOf t) i
        (retarget (tables (clear s.mem (kernelAddr (alloc s).2)) (frameOf t) i)
          (alloc s).2 flags) := by
  rw [ensureTable, if_neg h]
  dsimp only
  rw [tables_setEntry _ t i _ ht, entry_eq _ i ht]

theorem ensure_pages (clear : Mem → ℕ → Mem) (flags : Word)
    (h : ¬ entry s.mem t i &&& present = present) :
    (ensureTable clear s t i flags).pages = (physMemAlloc s.pages).1 := by
  rw [ensureTable, if_neg h]
  rfl

theorem ensure_shortages (clear : Mem → ℕ → Mem) (s : Machine) (t : Word) (i : Fin 512)
    (flags : Word) :
    s.shortages ≤ (ensureTable clear s t i flags).shortages ∧
    ((ensureTable clear s t i flags).shortages = s.shortages →
      ¬ entry s.mem t i &&& present = present → (alloc s).2 ≠ 0) := by
  by_cases h : entry s.mem t i &&& present = present
  · rw [ensure_present clear flags h]
    simp [h]
  · rw [ensureTable, if_neg h]
    simp only [alloc]
    split_ifs with hz
    · constructor <;> omega
    · exact ⟨le_rfl,fun _ _ => hz⟩

theorem shortages_steady : PageRecords.Steady (fun s s' => s.shortages ≤ s'.shortages) := by
  constructor
  case same => exact fun s s' _ h => h.ge
  case trans => exact fun s s₁ s₂ h h' => h.trans h'
  case alloc =>
    intro s
    simp only [alloc]
    split_ifs <;> omega

theorem map_shortages (clear : Mem → ℕ → Mem) (s : Machine) (v p : Word) (flags : BitVec 32)
    (cr3 : Word) (b : Bool) :
    s.shortages ≤ (mapVirtualAddressToPhysicalAddress clear s v p flags cr3 b).shortages :=
  PageRecords.steady_map shortages_steady clear s v p flags cr3 b

def Supplied (n : ℕ) (s₀ s : Machine) : Prop :=
  FramesOk s.pages ∧ s.shortages = s₀.shortages ∧ n ≤ freeCount s.pages

variable {s₀ : Machine} {n : ℕ}

theorem alloc_supplied (h : Supplied (n+1) s₀ s) : Supplied n s₀ (alloc s).1 ∧ (alloc s).2 ≠ 0 := by
  obtain ⟨hf,hsh,hn⟩ := h
  have ha : (physMemAlloc s.pages).2 ≠ 0 := by
    intro hz
    have h0 := alloc_zero (fun p hp h0 => by
      have := (hf.window p.physAddrOfPage (List.mem_map.mpr ⟨p,hp,rfl⟩)).1
      simp [h0] at this) hz
    omega
  have hc := freeCount_alloc ha
  refine ⟨⟨framesOk_congr (addresses_alloc s.pages) hf,?_,?_⟩,ha⟩
  · simp only [alloc, if_neg ha, hsh]
  · rw [alloc_pages]
    omega

theorem ensure_supplied (clear : Mem → ℕ → Mem) (h : Supplied (n+1) s₀ s) :
    Supplied n s₀ (ensureTable clear s t i flags) := by
  by_cases hp : entry s.mem t i &&& present = present
  · rw [ensure_present clear flags hp]
    exact ⟨h.1,h.2.1,Nat.le_of_succ_le h.2.2⟩
  · rw [ensureTable, if_neg hp]
    exact (alloc_supplied h).1

theorem map_supplied (clear : Mem → ℕ → Mem) (n : ℕ) (s₀ s : Machine) (v p : Word)
    (flags : BitVec 32) (cr3 : Word) (b : Bool) (h : Supplied (n+3) s₀ s) :
    Supplied n s₀ (mapVirtualAddressToPhysicalAddress clear s v p flags cr3 b) := by
  have hless : Supplied n s₀ s := ⟨h.1,h.2.1,by have := h.2.2; omega⟩
  unfold mapVirtualAddressToPhysicalAddress
  split_ifs
  · exact hless
  · exact hless
  all_goals
    exact ensure_supplied clear (ensure_supplied clear (ensure_supplied clear h))

variable {q : List (Fin 512)} {s₃ : Machine} {cr3 f p v : Word} {r : ℕ}

section
variable {dom : Domain} (hc : PrefixClosed dom) {clear : Mem → ℕ → Mem} {margin : ℕ}
  (hclear : Clears clear margin) {s : Machine} (hs : Forest dom margin s)

include hclear hs in
theorem cleared_agree {a : Word} (ha : Unused s.pages a) :
    (∀ j, tables (clear s.mem (kernelAddr a)) (frameOf a) j = 0) ∧
    ∀ u, Reached child (tables s.mem) dom u →
      ∀ j, tables (clear s.mem (kernelAddr a)) u j = tables s.mem u j := by
  rw [kernelAddr_aligned a (unused_window s.pages hs.frames a ha).1]
  constructor
  · exact hclear.zero s.mem (frameOf a) (frameOf_pos a)
  · intro u hu
    apply hclear.apart s.mem (frameOf a) u (frameOf_pos a)
    by_contra hin
    apply hs.outside a ha (u-frameOf a) (by omega)
    rwa [show frameOf a+(u-frameOf a) = u by omega]

section
variable (hq : dom r (q++[i])) (ht : Aligned t)
  (hr : descend child (tables s.mem) r q = some (frameOf t)) (hp : flags &&& present = present)
  (hm : flags &&& addressMask = 0) (habs : ¬ entry s.mem t i &&& present = present)
  (ha : (alloc s).2 ≠ 0)
include hc hclear hs hq ht hr hp hm habs ha

/-- The store behind an upper level that had to be made: a store that looks as
before from the domain, with the cleared frame linked below `t`. -/
theorem ensure_store :
    ∃ σ : ℕ → Fin 512 → Word,
      tables (ensureTable clear s t i flags).mem =
        put σ (frameOf t) i (retarget (tables s.mem (frameOf t) i) (alloc s).2 flags) ∧
      (∀ r' p', dom r' p' → descend child σ r' p' = descend child (tables s.mem) r' p') ∧
      (∀ r' p', dom r' p' → ∀ j, entryAt child σ r' p' j = entryAt child (tables s.mem) r' p' j) ∧
      (∀ j, σ (frameOf (alloc s).2) j = 0) ∧ child (σ (frameOf t) i) = none ∧
      ¬ Reached child σ dom (frameOf (alloc s).2) ∧
      child (retarget (tables s.mem (frameOf t) i) (alloc s).2 flags) =
        some (frameOf (alloc s).2) := by
  have hu : Unused s.pages (alloc s).2 := alloc_unused s.pages ha
  obtain ⟨hal,hwin⟩ := unused_window s.pages hs.frames _ hu
  have hmask := aligned_masked (alloc s).2 hal (by omega)
  obtain ⟨hzero,hagree⟩ := cleared_agree hclear hs hu
  have htr : Reached child (tables s.mem) dom (frameOf t) := ⟨r,q,hc r q [i] hq,hr⟩
  have hσ := ensure_tables clear flags ht habs
  rw [hagree _ htr] at hσ
  rw [entry_eq s.mem i ht] at habs
  -- the cleared store agrees with the old one on everything that is reached
  have hd := descend_agree child (tables s.mem) _ dom hc hagree
  refine ⟨_,hσ,hd,entryAt_agree child (tables s.mem) _ dom hc hagree,hzero,?_,?_,?_⟩
  · rw [hagree _ htr]
    exact child_absent habs
  · rw [reached_of_same child _ _ dom hd]
    simpa using hs.outside _ hu 0 (Nat.zero_le _)
  · exact retarget_child _ _ _ hmask hm hp

theorem ensure_linked :
    Ensured dom margin r q i t flags s (ensureTable clear s t i flags) := by
  have hu : Unused s.pages (alloc s).2 := alloc_unused s.pages ha
  obtain ⟨hal,hwin⟩ := unused_window s.pages hs.frames _ hu
  have hmask := aligned_masked (alloc s).2 hal (by omega)
  obtain ⟨σ₁,hσ,hd,he,hzero,hnone,hnr,hchild⟩ := ensure_store hc hclear hs hq ht hr hp hm habs ha
  have hpg := ensure_pages clear flags habs
  have hdq : dom r q := hc r q [i] hq
  rw [entry_eq s.mem i ht] at habs
  generalize hn : frameOf (alloc s).2 = n at hzero hnr hchild
  have hsep : Separate child σ₁ dom := separate_of_same child hd hs.separate
  have hrt : descend child σ₁ r q = some (frameOf t) := (hd r q hdq).trans hr
  have hempty : ∀ j, child (σ₁ n j) = none := by
    intro j
    rw [hzero j]
    exact child_absent (by decide)
  have hl := descend_link child σ₁ dom hc hsep r q _ n i _ hq hrt hnone hchild hnr hempty
  have hle := entryAt_link child σ₁ dom hc hsep r q _ n i _ hq hrt hnone hchild hnr hempty
  have hrl := reached_link child σ₁ dom hc hsep r q _ n i _ hq hrt hnone hchild hnr hempty
  have hsl := separate_link child σ₁ dom hc hsep r q _ n i _ hq hrt hnone hchild hnr hempty
  rw [← hσ] at hl hle hrl hsl
  constructor
  case forest =>
    constructor
    · exact hsl
    · rw [hpg]
      exact framesOk_congr (addresses_alloc s.pages) hs.frames
    · intro b hb d hdm hreach
      rw [hpg] at hb
      obtain ⟨hbu,hlt⟩ := unused_alloc s.pages hs.frames ha b hb
      obtain ⟨hba,hbw⟩ := unused_window s.pages hs.frames b hbu
      have hfr := frameOf_lt hal hba hbw hlt
      rcases hrl _ hreach with hx | hx
      · omega
      · exact hs.outside b hbu d hdm ((reached_of_same child _ σ₁ dom hd _).mp hx)
  case next =>
    rw [hl r (q++[i]) hq, if_pos ⟨rfl,rfl⟩, tableOf_eq _ i ht, hσ, put_same,
      retarget_address _ _ _ hmask hm, hn]
  case others =>
    intro r' p' j hdp hne
    rw [hle r' p' hdp j, if_neg (fun h => hne h.1), if_neg (fun h => hne h.1), he r' p' hdp j]
  case kept =>
    intro p' j hdp hne
    rw [hle r p' hdp j, if_neg (fun h : r = r ∧ p' = q ∧ j = i => hne h.2)]
    split_ifs with hpq
    · right
      refine ⟨?_,by rw [hzero j]⟩
      rw [← he r p' hdp j, hpq.2, entryAt, descend_snoc, hrt]
      simp [hnone]
    · left
      rw [he r p' hdp j]
  case linked =>
    right
    refine ⟨?_,_,hmask,?_⟩
    · rw [entryAt, hr]
      exact child_absent habs
    · rw [hle r q hdq i, if_neg (by simp), if_pos ⟨rfl,rfl,rfl⟩, entryAt, hr]
      rfl

end

include hc hclear hs in
theorem ensure_ensured (r : ℕ) (q : List (Fin 512)) (i : Fin 512) (t flags : Word)
    (hq : dom r (q++[i])) (ht : Aligned t) (hr : descend child (tables s.mem) r q = some (frameOf t))
    (hp : flags &&& present = present) (hm : flags &&& addressMask = 0)
    (hok : (ensureTable clear s t i flags).shortages = s.shortages) :
    Ensured dom margin r q i t flags s (ensureTable clear s t i flags) := by
  by_cases h : entry s.mem t i &&& present = present
  · rw [ensure_present clear flags h]
    constructor
    case forest => exact hs
    case next =>
      rw [descend_snoc, hr, tableOf_eq s.mem i ht]
      rw [entry_eq s.mem i ht] at h
      exact child_present h
    case others => exact fun _ _ _ _ _ => rfl
    case kept => exact fun _ _ _ _ => Or.inl rfl
    case linked =>
      rw [entry_eq s.mem i ht] at h
      left
      exact ⟨_,by rw [entryAt, hr]; rfl,by rw [child_present h]; simp,by rw [entryAt, hr]; rfl⟩
  · exact ensure_linked hc hclear hs hq ht hr hp hm h ((ensure_shortages clear s t i flags).2 hok h)

include hc hs in
theorem setLeaf_forest (r : ℕ) (q : List (Fin 512)) (i : Fin 512) (t physAddr flags : Word)
    (hq : dom r q) (hlast : ¬ dom r (q++[i])) (ht : Aligned t)
    (hr : descend child (tables s.mem) r q = some (frameOf t)) :
    Forest dom margin (setLeaf s t i physAddr flags) ∧
    ∀ r' p' j, dom r' p' → entryAt child (tables (setLeaf s t i physAddr flags).mem) r' p' j =
      if r' = r ∧ p' = q ∧ j = i then
        some (retarget ((entryAt child (tables s.mem) r q i).getD 0) physAddr flags)
      else entryAt child (tables s.mem) r' p' j := by
  have hσ : tables (setLeaf s t i physAddr flags).mem = put (tables s.mem) (frameOf t) i
      (retarget (tables s.mem (frameOf t) i) physAddr flags) := by
    rw [setLeaf, tables_setEntry _ t i _ ht, entry_eq _ i ht]
  have hd := descend_rewrite child (tables s.mem) dom hc hs.separate r q (frameOf t) i
    (retarget (tables s.mem (frameOf t) i) physAddr flags) hq hr (Or.inl hlast)
  have he := entryAt_rewrite child (tables s.mem) dom hc hs.separate r q (frameOf t) i
    (retarget (tables s.mem (frameOf t) i) physAddr flags) hq hr (Or.inl hlast)
  rw [← hσ] at hd he
  constructor
  · constructor
    · exact separate_of_same child hd hs.separate
    · exact hs.frames
    · intro a ha d hm
      rw [reached_of_same child _ _ dom hd]
      exact hs.outside a ha d hm
  · intro r' p' j hp'
    rw [he r' p' hp' j]
    simp [entryAt, hr]

include hc in
theorem ensured_mapped (p : Word) {t₁ t₂ : Word} {s₁ s₂ : Machine}
    (e₁ : Ensured dom margin (frameOf cr3) [] (getIndexOfPml4 v) cr3 f s s₁)
    (e₂ : Ensured dom margin (frameOf cr3) [getIndexOfPml4 v] (getIndexOfPdpt v) t₁ f s₁ s₂)
    (e₃ : Ensured dom margin (frameOf cr3) [getIndexOfPml4 v,getIndexOfPdpt v] (getIndexOfPdt v)
      t₂ f s₂ s₃) (hd : dom (frameOf cr3) (upperPath v)) :
    Mapped dom margin true v p f cr3 s s₃ := by
  constructor
  case forest => exact e₃.forest
  case others =>
    intro r q j hq hne
    rw [e₃.others r q j hq hne, e₂.others r q j hq hne, e₁.others r q j hq hne]
  case kept =>
    intro q j hq hoff
    apply kept_trans _ _ _ (e₁.kept q j hq _)
    · apply kept_trans _ _ _ (e₂.kept q j hq _) (e₃.kept q j hq _)
      · rintro ⟨rfl,rfl⟩
        exact hoff ⟨[getIndexOfPdt v],rfl⟩
      · rintro ⟨rfl,rfl⟩
        exact hoff (List.prefix_refl _)
    · rintro ⟨rfl,rfl⟩
      exact hoff ⟨[getIndexOfPdpt v,getIndexOfPdt v],rfl⟩
  case leaf => simp
  case upper =>
    intro q i hpre
    have hq := closed_above hc hpre hd
    match q, hpre with
    | [], hpre =>
      obtain rfl : i = getIndexOfPml4 v := by simpa [upperPath] using hpre
      apply linked_carry (kept_refl _) e₁.linked
      exact kept_trans _ _ _ (e₂.kept _ _ hq (by simp)) (e₃.kept _ _ hq (by simp))
    | [a], hpre =>
      obtain ⟨rfl,rfl⟩ : a = getIndexOfPml4 v ∧ i = getIndexOfPdpt v := by
        simpa [upperPath] using hpre
      exact linked_carry (e₁.kept _ _ hq (by simp)) e₂.linked (e₃.kept _ _ hq (by simp))
    | [a,b], hpre =>
      obtain ⟨rfl,rfl,rfl⟩ : a = getIndexOfPml4 v ∧ b = getIndexOfPdpt v ∧ i = getIndexOfPdt v := by
        simpa [upperPath] using hpre
      exact linked_carry (kept_trans _ _ _ (e₁.kept _ _ hq (by simp))
        (e₂.kept _ _ hq (by simp))) e₃.linked (kept_refl _)
    | a::b::c::q, hpre =>
      have hlen := hpre.length_le
      simp only [List.length_append, List.length_cons, upperPath, List.length_nil] at hlen
      omega

include hc in
theorem setLeaf_mapped (h : Mapped dom margin true v p f cr3 s s₃) (ht : Aligned t)
    (hr : descend child (tables s₃.mem) (frameOf cr3) (upperPath v) = some (frameOf t))
    (hd : dom (frameOf cr3) (upperPath v)) (hlast : ∀ j, ¬ dom (frameOf cr3) (upperPath v++[j])) :
    Mapped dom margin false v p f cr3 s (setLeaf s₃ t (getIndexOfPt v) p f) := by
  obtain ⟨hforest,hent⟩ := setLeaf_forest hc h.forest (frameOf cr3) (upperPath v)
    (getIndexOfPt v) t p f hd (hlast _) ht hr
  have hshort : ∀ q i, q++[i] <+: upperPath v → ¬ (q = upperPath v ∧ i = getIndexOfPt v) := by
    rintro q i hpre ⟨rfl,-⟩
    have hlen := hpre.length_le
    simp at hlen
  constructor
  case forest => exact hforest
  case others =>
    intro r q j hq hne
    rw [hent r q j hq, if_neg (fun h => hne h.1), h.others r q j hq hne]
  case kept =>
    intro q j hq hoff
    rw [hent _ q j hq, if_neg]
    · exact h.kept q j hq (fun hpre => hoff (hpre.trans (List.prefix_append _ _)))
    · rintro ⟨-,rfl,rfl⟩
      exact hoff (List.prefix_refl _)
  case leaf =>
    intro _
    have hk := h.kept (upperPath v) (getIndexOfPt v) hd (fun hpre => hshort _ _ hpre ⟨rfl,rfl⟩)
    rw [VirtMmgr.leaf, hent _ _ _ hd, if_pos ⟨rfl,rfl,rfl⟩, kept_getD hk]
    rfl
  case upper =>
    intro q i hpre
    have hq := closed_above hc hpre hd
    rw [hent _ q i hq, if_neg (fun h => hshort q i hpre h.2)]
    exact h.upper q i hpre

include hc hclear hs in
theorem map_levels {flags : BitVec 32} (hcr3 : Aligned cr3) (hv : Aligned v) (hp : Aligned p)
    (hd : dom (frameOf cr3) (upperPath v)) (hpr : flags.setWidth 64 &&& present = present)
    (hm : flags.setWidth 64 &&& addressMask = 0) {b : Bool}
    (hok : (mapVirtualAddressToPhysicalAddress clear s v p flags cr3 b).shortages = s.shortages) :
    ∃ s₁ s₂ s₃ t₁ t₂ t₃,
      Levels clear dom margin v (flags.setWidth 64) cr3 s s₁ s₂ s₃ t₁ t₂ t₃ ∧
      mapVirtualAddressToPhysicalAddress clear s v p flags cr3 b = setPml4
        (if b then s₃ else setLeaf s₃ t₃ (getIndexOfPt v) p (flags.setWidth 64)) cr3 := by
  rw [mapVirtualAddressToPhysicalAddress, if_neg (not_not.mpr ((aligned_iff v).mpr hv)),
    if_neg (not_not.mpr ((aligned_iff p).mpr hp))] at hok ⊢
  dsimp only at hok ⊢
  generalize flags.setWidth 64 = f at *
  generalize hs₁ : ensureTable clear s cr3 (getIndexOfPml4 v) f = s₁ at *
  generalize ht₁ : tableOf s₁.mem cr3 (getIndexOfPml4 v) = t₁ at *
  generalize hs₂ : ensureTable clear s₁ t₁ (getIndexOfPdpt v) f = s₂ at *
  generalize ht₂ : tableOf s₂.mem t₁ (getIndexOfPdpt v) = t₂ at *
  generalize hs₃ : ensureTable clear s₂ t₂ (getIndexOfPdt v) f = s₃ at *
  have hle₁ := (ensure_shortages clear s cr3 (getIndexOfPml4 v) f).1
  have hle₂ := (ensure_shortages clear s₁ t₁ (getIndexOfPdpt v) f).1
  have hle₃ := (ensure_shortages clear s₂ t₂ (getIndexOfPdt v) f).1
  rw [(PageRecords.last_records b s₃ p f cr3 _).2] at hok
  rw [hs₁] at hle₁
  rw [hs₂] at hle₂
  rw [hs₃] at hle₃
  have hal₁ : Aligned t₁ := ht₁ ▸ tableOf_aligned _ _ _
  have hal₂ : Aligned t₂ := ht₂ ▸ tableOf_aligned _ _ _
  have e₁ := ensure_ensured hc hclear hs (frameOf cr3) [] (getIndexOfPml4 v) cr3 f
    (hc _ [_] [_,_] hd) hcr3 rfl hpr hm (by rw [hs₁]; omega)
  rw [hs₁] at e₁
  have hn₁ : descend child (tables s₁.mem) (frameOf cr3) [getIndexOfPml4 v] = some (frameOf t₁) :=
    ht₁ ▸ e₁.next
  have e₂ := ensure_ensured hc hclear e₁.forest (frameOf cr3) [_] (getIndexOfPdpt v) t₁ f
    (hc _ [_,_] [_] hd) hal₁ hn₁ hpr hm (by rw [hs₂]; omega)
  rw [hs₂] at e₂
  have hn₂ : descend child (tables s₂.mem) (frameOf cr3) [getIndexOfPml4 v,getIndexOfPdpt v] =
      some (frameOf t₂) := ht₂ ▸ e₂.next
  have e₃ := ensure_ensured hc hclear e₂.forest (frameOf cr3) [_,_] (getIndexOfPdt v) t₂ f hd
    hal₂ hn₂ hpr hm (by rw [hs₃]; omega)
  rw [hs₃] at e₃
  refine ⟨s₁,s₂,s₃,t₁,t₂,_,?_,rfl⟩
  constructor
  case made => exact ⟨hs₁.symm,hs₂.symm,hs₃.symm⟩
  case shortages => exact ⟨by omega,by omega,by omega⟩
  case aligned => exact ⟨hal₁,hal₂,tableOf_aligned _ _ _⟩
  case pdpt => exact hn₁
  case pdt => exact hn₂
  case pt => exact e₃.next
  case first => exact e₁
  case second => exact e₂
  case third => exact e₃

include hc hclear hs in
theorem map_mapped {flags : BitVec 32} (hcr3 : Aligned cr3) (hv : Aligned v) (hp : Aligned p)
    (hd : dom (frameOf cr3) (upperPath v)) (hlast : ∀ j, ¬ dom (frameOf cr3) (upperPath v++[j]))
    (hpr : flags.setWidth 64 &&& present = present) (hm : flags.setWidth 64 &&& addressMask = 0)
    {b : Bool}
    (hok : (mapVirtualAddressToPhysicalAddress clear s v p flags cr3 b).shortages = s.shortages) :
    Mapped dom margin b v p (flags.setWidth 64) cr3 s
      (mapVirtualAddressToPhysicalAddress clear s v p flags cr3 b) := by
  obtain ⟨s₁,s₂,s₃,t₁,t₂,t₃,h,hmap⟩ := map_levels hc hclear hs hcr3 hv hp hd hpr hm hok
  have hup := ensured_mapped hc p h.first h.second h.third hd
  rw [hmap]
  cases b with
  | true =>
    obtain ⟨⟨hsep,hfr,hout⟩,hothers,hkept,hleaf,hupper⟩ := hup
    exact ⟨⟨hsep,hfr,hout⟩,hothers,hkept,hleaf,hupper⟩
  | false =>
    obtain ⟨⟨hsep,hfr,hout⟩,hothers,hkept,hleaf,hupper⟩ :=
      setLeaf_mapped hc hup h.aligned.2.2 h.pt hd hlast
    exact ⟨⟨hsep,hfr,hout⟩,hothers,hkept,hleaf,hupper⟩

end

theorem low_flags_masked (h : f.toNat < 4096) : f &&& addressMask = 0 := by
  apply BitVec.eq_of_getLsbD_eq
  intro i hi
  rw [BitVec.getLsbD_and, addressMask_getLsbD hi]
  by_cases hin : 12 ≤ i ∧ i < 52
  · have hle : 2^12 ≤ 2^i := Nat.pow_le_pow_right (by decide) hin.1
    have hbit : f.getLsbD i = false := Nat.testBit_lt_two_pow (lt_of_lt_of_le h hle)
    simp [hbit]
  · simp [hin]

theorem widened_present {flags : BitVec 32} (h : flags &&& 1 = 1) :
    flags.setWidth 64 &&& present = present := by
  have hw := congrArg (BitVec.setWidth 64) h
  rw [BitVec.setWidth_and] at hw
  exact hw

def treeAt (cr3 : Word) : Domain := fun r p => r = frameOf cr3 ∧ p.length ≤ 3

theorem treeAt_closed (cr3 : Word) : PrefixClosed (treeAt cr3) := by
  rintro r p q ⟨hr,hl⟩
  rw [List.length_append] at hl
  exact ⟨hr,by omega⟩

def Unmapped (w : Word) : Prop := w = -1 ∨ w = 0

theorem kept_walk {m m' : Mem} (hcr3 : Aligned cr3) (h : Kept (leaf m cr3 v) (leaf m' cr3 v)) :
    walkPml4 m' cr3 v = walkPml4 m cr3 v ∨
      Unmapped (walkPml4 m cr3 v) ∧ Unmapped (walkPml4 m' cr3 v) := by
  rw [walk_eq m v hcr3, walk_eq m' v hcr3]
  rcases h with h | ⟨h,h'⟩
  · left
    rw [h]
  · right
    rw [h, h']
    exact ⟨Or.inl rfl,Or.inr (by simp)⟩

/-- Mapping a page makes the walk of that page return the mapped frame and
changes the walk of no other page, except that an unmapped one may go from
`-1` to `0`. The tables below the root lie in distinct frames, unused frames
hold none of them, three of those are left, and a new table is cleared
exactly. -/
theorem map_then_walk (s : Machine) (cr3 v p : Word) (flags : BitVec 32) (hcr3 : Aligned cr3)
    (htree : Separate child (tables s.mem) (treeAt cr3)) (hframes : FramesOk s.pages)
    (hout : ∀ a, Unused s.pages a → ¬ Reached child (tables s.mem) (treeAt cr3) (frameOf a))
    (hfree : 3 ≤ freeCount s.pages) (hv : v &&& 4095 = 0) (hp : p &&& 4095 = 0)
    (hp52 : p.toNat < 2^52) (hpr : flags &&& 1 = 1) (hlow : flags.toNat < 4096) :
    let s' := mapVirtualAddressToPhysicalAddress clearTableExactly s v p flags cr3 false
    walkPml4 s'.mem cr3 v = p ∧
    ∀ w, pageNumber w ≠ pageNumber v →
      walkPml4 s'.mem cr3 w = walkPml4 s.mem cr3 w ∨
        Unmapped (walkPml4 s.mem cr3 w) ∧ Unmapped (walkPml4 s'.mem cr3 w) := by
  have hforest : Forest (treeAt cr3) 0 s := by
    refine ⟨htree,hframes,?_⟩
    intro a ha d hd
    obtain rfl : d = 0 := by omega
    exact hout a ha
  have hmask : flags.setWidth 64 &&& addressMask = 0 :=
    low_flags_masked (by rw [BitVec.toNat_setWidth]; omega)
  have hlen : ∀ w, (upperPath w).length = 3 := fun _ => rfl
  have hmap := map_mapped (treeAt_closed cr3) clears_exactly hforest hcr3
    ((aligned_iff v).mp hv) ((aligned_iff p).mp hp) ⟨rfl,(hlen v).le⟩
    (fun j h => by simpa [hlen] using h.2) (widened_present hpr) hmask
    (map_supplied clearTableExactly 0 s s v p flags cr3 false ⟨hframes,rfl,hfree⟩).2.1
  constructor
  · rw [walk_eq _ v hcr3, hmap.leaf rfl]
    exact retarget_address _ _ _ (aligned_masked p ((aligned_iff p).mp hp) hp52) hmask
  · intro w hw
    apply kept_walk hcr3
    apply hmap.kept (upperPath w) (getIndexOfPt w) ⟨rfl,(hlen w).le⟩
    exact fun hpre => hw (touched_page false v w hpre)

def blank : Machine :=
  ⟨fun _ => 0,[⟨0x1000,0,false⟩,⟨0x2000,0,false⟩,⟨0x3000,0,false⟩],0x4000,0x4000,0⟩

theorem blank_tables (k : ℕ) (i : Fin 512) : tables blank.mem k i = 0 := by
  have hz : ∀ a, load (fun _ => 0) a = 0 := by
    intro a
    simp only [load]
    decide
  exact hz _

theorem blank_descend {p : List (Fin 512)} {t : ℕ}
    (h : descend child (tables blank.mem) r p = some t) : p = [] ∧ t = r := by
  cases p with
  | nil => exact ⟨rfl,(Option.some.inj h).symm⟩
  | cons i p =>
    rw [descend, blank_tables, child_absent (by decide)] at h
    simp at h

theorem blank_frames : FramesOk blank.pages := by
  constructor <;> simp [blank, addresses]

theorem map_then_walk_blank :
    walkPml4 (mapVirtualAddressToPhysicalAddress clearTableExactly blank 0x400000 0x9000 7
      0x4000 false).mem 0x4000 0x400000 = 0x9000 := by
  refine (map_then_walk blank 0x4000 0x400000 0x9000 7 (by decide) ?_ blank_frames ?_ (by decide)
    (by decide) (by decide) (by decide) (by decide) (by decide)).1
  · rintro r p r' p' t ⟨hr,_⟩ ⟨hr',_⟩ ht ht'
    exact ⟨hr.trans hr'.symm,(blank_descend ht).1.trans (blank_descend ht').1.symm⟩
  · rintro a ha ⟨r,p,⟨hr,_⟩,ht⟩
    have hra := (blank_descend ht).2
    rw [hr, frameOf_eq, frameOf_eq] at hra
    have hmem := unused_address ha
    simp only [blank, addresses, List.map_cons, List.map_nil, List.mem_cons, List.not_mem_nil,
      or_false] at hmem
    rcases hmem with rfl | rfl | rfl <;> simp at hra

end PreemptiveOS.PageTree
