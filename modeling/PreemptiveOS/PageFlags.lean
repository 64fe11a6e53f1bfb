import PreemptiveOS.PageTree

/-!
# Changing flags along a path

The flag change of `virt_mmgr.c` walks from the root and adds the flags to
every present entry it passes, then to the last-level entry whether present
or not. It is a recursion over the four indices of the address. No entry
gains or loses a child, so every table is reached as before.
-/

set_option autoImplicit false

namespace PreemptiveOS.PageFlags
open ByteMemory PhysMmgr TableForest VirtMmgr PageTree

def orPath (flags : Word) : Mem → Word → List (Fin 512) → Mem
  | m, _, [] => m
  | m, t, [i] => orEntry m t i flags
  | m, t, i::j::is =>
    if entry m t i &&& present ≠ present then m
    else orPath flags (orEntry m t i flags) (tableOf (orEntry m t i flags) t i) (j::is)

def fullPath (v : Word) : List (Fin 512) := upperPath v++[getIndexOfPt v]

theorem changeFlags_mem (s : Machine) (v cr3 flags : Word) :
    (changeFlagsInParentPageTables s v cr3 flags).mem = orPath flags s.mem cr3 (fullPath v) := by
  unfold changeFlagsInParentPageTables fullPath upperPath
  simp only [List.cons_append, List.nil_append, orPath]
  split_ifs <;> rfl

theorem changeFlags_rest (s : Machine) (v cr3 flags : Word) :
    (changeFlagsInParentPageTables s v cr3 flags).pages = s.pages ∧
    (changeFlagsInParentPageTables s v cr3 flags).pml4 = s.pml4 ∧
    (changeFlagsInParentPageTables s v cr3 flags).shortages = s.shortages := by
  unfold changeFlagsInParentPageTables
  dsimp only
  split_ifs <;> exact ⟨rfl,rfl,rfl⟩

def flagged (flags : Word) (last : Prop) [Decidable last] (e : Word) : Word :=
  if e &&& present = present ∨ last then e ||| flags else e

theorem or_child {e flags : Word} (hm : flags &&& addressMask = 0)
    (h : e &&& present = present) : child (e ||| flags) = child e := by
  have hp : (e ||| flags) &&& present = present := by
    rw [BitVec.or_comm]
    exact BitFields.set_inside flags h
  rw [child_present hp, child_present h, BitFields.set_outside e hm]

def OnPath (q is p : List (Fin 512)) (j : Fin 512) : Prop :=
  q.length ≤ p.length ∧ p++[j] <+: q++is

instance (q is p : List (Fin 512)) (j : Fin 512) : Decidable (OnPath q is p j) :=
  inferInstanceAs (Decidable (_ ∧ _))

theorem onPath_nil (q p : List (Fin 512)) (j : Fin 512) : ¬ OnPath q [] p j := by
  rintro ⟨hl,hp⟩
  have hlen := hp.length_le
  simp only [List.length_append, List.length_singleton, List.append_nil] at hlen
  omega

theorem onPath_cons (q is p : List (Fin 512)) (i j : Fin 512) :
    OnPath q (i::is) p j ↔ (p = q ∧ j = i) ∨ OnPath (q++[i]) is p j := by
  have happ : q++i::is = (q++[i])++is := by simp
  constructor
  · rintro ⟨hl,hp⟩
    by_cases heq : p.length = q.length
    · left
      have hpq : p <+: q++i::is := (List.prefix_append p [j]).trans hp
      have hpe : p = q :=
        (List.prefix_of_prefix_length_le hpq (List.prefix_append q _) heq.le).eq_of_length heq
      subst hpe
      rw [List.prefix_append_right_inj, List.cons_prefix_cons] at hp
      exact ⟨rfl,hp.1⟩
    · right
      rw [happ] at hp
      exact ⟨by simp only [List.length_append, List.length_singleton]; omega,hp⟩
  · rintro (⟨rfl,rfl⟩ | ⟨hl,hp⟩)
    · exact ⟨le_rfl,by simp⟩
    · rw [← happ] at hp
      simp only [List.length_append, List.length_singleton] at hl
      exact ⟨by omega,hp⟩

variable {j : Fin 512} {p q : List (Fin 512)}

theorem onPath_below {σ : ℕ → Fin 512 → Word} {r : ℕ} {is : List (Fin 512)} (h : OnPath q is p j)
    (hnone : descend child σ r q = none) : descend child σ r p = none := by
  obtain ⟨w,rfl⟩ := List.prefix_of_prefix_length_le (List.prefix_append q is)
    ((List.prefix_append p [j]).trans h.2) h.1
  rw [descend_append, hnone]
  rfl

section
variable {dom : Domain} (hc : PrefixClosed dom) (flags : Word) (hm : flags &&& addressMask = 0)
  (r : ℕ)

include hc in
theorem orEntry_entries {m : Mem} (hsep : Separate child (tables m) dom) {i : Fin 512} {t : Word}
    (hq : dom r q) (ht : Aligned t) (hr : descend child (tables m) r q = some (frameOf t))
    (hkeep : ¬ dom r (q++[i]) ∨
      child (tables m (frameOf t) i ||| flags) = child (tables m (frameOf t) i)) :
    (∀ r' p', dom r' p' →
      descend child (tables (orEntry m t i flags)) r' p' = descend child (tables m) r' p') ∧
    ∀ r' p' j, dom r' p' → entryAt child (tables (orEntry m t i flags)) r' p' j =
      if r' = r ∧ p' = q ∧ j = i then (entryAt child (tables m) r q i).map (fun e => e ||| flags)
      else entryAt child (tables m) r' p' j := by
  have hσ : tables (orEntry m t i flags) =
      put (tables m) (frameOf t) i (tables m (frameOf t) i ||| flags) := by
    rw [orEntry, tables_setEntry m t i _ ht, entry_eq m i ht]
  rw [hσ]
  constructor
  · exact descend_rewrite child (tables m) dom hc hsep r q (frameOf t) i _ hq hr hkeep
  · intro r' p' j hp'
    rw [entryAt_rewrite child (tables m) dom hc hsep r q (frameOf t) i _ hq hr hkeep r' p' hp' j]
    simp [entryAt, hr]

include hc hm in
theorem orPath_entries (is : List (Fin 512)) (m : Mem) (hsep : Separate child (tables m) dom)
    (q : List (Fin 512)) (t : Word) (hne : is ≠ []) (hq : dom r (q++is.dropLast))
    (hlast : ¬ dom r (q++is)) (ht : Aligned t)
    (hr : descend child (tables m) r q = some (frameOf t)) :
    (∀ r' p', dom r' p' →
      descend child (tables (orPath flags m t is)) r' p' = descend child (tables m) r' p') ∧
    ∀ r' p' j, dom r' p' → entryAt child (tables (orPath flags m t is)) r' p' j =
      if r' = r ∧ OnPath q is p' j then (entryAt child (tables m) r' p' j).map
        (flagged flags (p'.length+1 = (q++is).length))
      else entryAt child (tables m) r' p' j := by
  induction is generalizing m q t with
  | nil => exact absurd rfl hne
  | cons i is ih =>
    have hdq : dom r q := hc r q _ hq
    cases is with
    | nil =>
      obtain ⟨hd,he⟩ := orEntry_entries hc flags r hsep hdq ht hr (Or.inl hlast)
      refine ⟨hd,?_⟩
      intro r' p' j hp'
      rw [orPath, he r' p' j hp']
      simp only [onPath_cons, onPath_nil, or_false]
      split_ifs with h
      · obtain ⟨rfl,rfl,rfl⟩ := h
        congr 1
        funext e
        exact (if_pos (Or.inr (by simp))).symm
      · rfl
    | cons i' is =>
      rw [orPath]
      have hdi : dom r (q++[i]) := by
        apply hc r _ ((i'::is).dropLast)
        simpa using hq
      have happ : q++i::i'::is = (q++[i])++i'::is := by simp
      by_cases hpr : entry m t i &&& present = present
      · rw [if_neg (not_not.mpr hpr)]
        rw [entry_eq m i ht] at hpr
        obtain ⟨hd,he⟩ := orEntry_entries hc flags r hsep hdq ht hr (Or.inr (or_child hm hpr))
        have hnext : descend child (tables (orEntry m t i flags)) r (q++[i]) =
            some (frameOf (tableOf (orEntry m t i flags) t i)) := by
          rw [hd r _ hdi, descend_snoc, hr, tableOf_eq _ i ht, orEntry,
            tables_setEntry m t i _ ht, put_same, entry_eq m i ht,
            BitFields.set_outside _ hm]
          exact child_present hpr
        obtain ⟨hd',he'⟩ := ih _ (separate_of_same child hd hsep) (q++[i]) _ (by simp)
          (by simpa using hq) (by simpa using hlast) (tableOf_aligned _ _ _) hnext
        constructor
        · intro r' p' hp'
          rw [hd' r' p' hp', hd r' p' hp']
        · intro r' p' j hp'
          have hcons := onPath_cons q (i'::is) p' i j
          rw [he' r' p' j hp', he r' p' j hp']
          by_cases hhere : r' = r ∧ p' = q ∧ j = i
          · obtain ⟨rfl,rfl,rfl⟩ := hhere
            have hoff : ¬ OnPath (p'++[j]) (i'::is) p' j := fun h => by simpa using h.1
            have hon : OnPath p' (j::i'::is) p' j := hcons.mpr (Or.inl ⟨rfl,rfl⟩)
            simp [hoff, hon, entryAt, hr, flagged, hpr]
          · simp only [if_neg hhere]
            by_cases hon : r' = r ∧ OnPath (q++[i]) (i'::is) p' j
            · rw [if_pos hon, if_pos ⟨hon.1,hcons.mpr (Or.inr hon.2)⟩, happ]
            · rw [if_neg hon, if_neg]
              rintro ⟨rfl,h⟩
              rcases hcons.mp h with h | h
              · exact hhere ⟨rfl,h⟩
              · exact hon ⟨rfl,h⟩
      · rw [if_pos hpr]
        rw [entry_eq m i ht] at hpr
        refine ⟨fun _ _ _ => rfl,?_⟩
        intro r' p' j hp'
        split_ifs with h
        · obtain ⟨rfl,hon⟩ := h
          rcases (onPath_cons _ _ _ _ _).mp hon with ⟨rfl,rfl⟩ | hon
          · simp [entryAt, hr, flagged, hpr]
          · rw [entryAt, onPath_below hon]
            · rfl
            · rw [descend_snoc, hr]
              exact child_absent hpr
        · rfl

end

section
variable {dom : Domain} (hc : PrefixClosed dom) {margin : ℕ} {s : Machine}
  (hs : Forest dom margin s) (v cr3 flags : Word) (hm : flags &&& addressMask = 0)
  (hcr3 : Aligned cr3) (hd : dom (frameOf cr3) (upperPath v))
  (hlast : ∀ j, ¬ dom (frameOf cr3) (upperPath v++[j]))
include hc hs hm hcr3 hd hlast

/-- A flag change keeps the forest and rewrites exactly the entries on the
path of the address. -/
theorem changeFlags_entries :
    Forest dom margin (changeFlagsInParentPageTables s v cr3 flags) ∧
    ∀ r p j, dom r p →
      entryAt child (tables (changeFlagsInParentPageTables s v cr3 flags).mem) r p j =
        if r = frameOf cr3 ∧ p++[j] <+: fullPath v then
          (entryAt child (tables s.mem) r p j).map (flagged flags (p.length+1 = 4))
        else entryAt child (tables s.mem) r p j := by
  obtain ⟨hdesc,hent⟩ := orPath_entries hc flags hm (frameOf cr3) (fullPath v) s.mem hs.separate []
    cr3 (by simp [fullPath]) (by simpa [fullPath] using hd) (hlast _) hcr3 rfl
  rw [← changeFlags_mem] at hdesc hent
  constructor
  · constructor
    · exact separate_of_same child hdesc hs.separate
    · rw [(changeFlags_rest s v cr3 flags).1]
      exact hs.frames
    · rw [(changeFlags_rest s v cr3 flags).1]
      intro a ha d hdm
      rw [reached_of_same child _ _ dom hdesc]
      exact hs.outside a ha d hdm
  · intro r p j hp
    have hon : OnPath [] (fullPath v) p j ↔ p++[j] <+: fullPath v := by simp [OnPath]
    rw [hent r p j hp]
    simp only [hon]
    rfl

theorem changeFlags_leaf :
    leaf (changeFlagsInParentPageTables s v cr3 flags).mem cr3 v =
      (leaf s.mem cr3 v).map (fun e => e ||| flags) := by
  have h := (changeFlags_entries hc hs v cr3 flags hm hcr3 hd hlast).2 _ _ (getIndexOfPt v) hd
  rw [if_pos ⟨rfl,List.prefix_refl _⟩] at h
  rw [leaf, h, leaf]
  congr 1
  funext e
  exact if_pos (Or.inr rfl)

end
def PageMapped (m : Mem) (cr3 v : Word) : Prop := ∃ e ∈ leaf m cr3 v, e &&& present = present

def treeEntry (m : Mem) (cr3 : Word) (p : List (Fin 512)) (j : Fin 512) : Option Word :=
  entryAt child (tables m) (frameOf cr3) p j

structure OnlyMapped (m m' : Mem) (cr3 v : Word) : Prop where
  unmapped : ¬ PageMapped m cr3 v → ∀ p j, p.length ≤ 3 → treeEntry m' cr3 p j = treeEntry m cr3 p j
  mapped : PageMapped m cr3 v → ∀ p j, p.length ≤ 3 → ¬ p++[j] <+: fullPath v →
    treeEntry m' cr3 p j = treeEntry m cr3 p j
  addresses : PageMapped m cr3 v → ∀ p j, p.length ≤ 3 →
    (treeEntry m' cr3 p j).map (· &&& addressMask) = (treeEntry m cr3 p j).map (· &&& addressMask)
  absent : ∀ w, ¬ PageMapped m cr3 w → ¬ PageMapped m' cr3 w

def AlreadySet (m : Mem) (cr3 v flags : Word) : Prop :=
  ∀ q j, q++[j] <+: fullPath v → ∀ e ∈ treeEntry m cr3 q j,
    e &&& present = present ∨ q.length+1 = 4 → e ||| flags = e

variable {w : Word}

section
variable (s : Machine) (v cr3 flags : Word) (hcr3 : Aligned cr3)
  (htree : Separate child (tables s.mem) (treeAt cr3)) (hm : flags &&& addressMask = 0)
include hcr3 htree hm

theorem changeFlags_tree (p : List (Fin 512)) (j : Fin 512) (hp : p.length ≤ 3) :
    treeEntry (changeFlagsInParentPageTables s v cr3 flags).mem cr3 p j =
      if p++[j] <+: fullPath v then (treeEntry s.mem cr3 p j).map (flagged flags (p.length+1 = 4))
      else treeEntry s.mem cr3 p j := by
  have hlast : ¬ treeAt cr3 (frameOf cr3) (fullPath v) :=
    fun h => absurd h.2 (by simp [fullPath, upperPath])
  have hent := (orPath_entries (treeAt_closed cr3) flags hm (frameOf cr3) (fullPath v) s.mem htree []
    cr3 (by simp [fullPath]) ⟨rfl,by simp [fullPath, upperPath]⟩ hlast hcr3 rfl).2 (frameOf cr3) p j
    ⟨rfl,hp⟩
  have hon : OnPath [] (fullPath v) p j ↔ p++[j] <+: fullPath v := by simp [OnPath]
  rw [treeEntry, changeFlags_mem, hent]
  simp only [hon, true_and]
  rfl

theorem changeFlags_set (h : AlreadySet s.mem cr3 v flags) (p : List (Fin 512)) (j : Fin 512)
    (hp : p.length ≤ 3) :
    treeEntry (changeFlagsInParentPageTables s v cr3 flags).mem cr3 p j =
      treeEntry s.mem cr3 p j := by
  rw [changeFlags_tree s v cr3 flags hcr3 htree hm p j hp]
  split_ifs with hpath
  · cases hentry : treeEntry s.mem cr3 p j with
    | none => rfl
    | some e =>
      rw [Option.map_some, flagged]
      split_ifs with hcase
      · rw [h p j hpath e hentry hcase]
      · rfl
  · rfl

theorem changeFlags_addresses (j : Fin 512) (hp : p.length ≤ 3) :
    (treeEntry (changeFlagsInParentPageTables s v cr3 flags).mem cr3 p j).map (· &&& addressMask) =
      (treeEntry s.mem cr3 p j).map (· &&& addressMask) := by
  rw [changeFlags_tree s v cr3 flags hcr3 htree hm p j hp]
  split_ifs with hpath
  · cases treeEntry s.mem cr3 p j with
    | none => rfl
    | some e =>
      rw [Option.map_some, Option.map_some, Option.map_some, flagged]
      split_ifs
      · rw [BitFields.set_outside e hm]
      · rfl
  · rfl

theorem changeFlags_other (hne : fullPath w ≠ fullPath v) :
    leaf (changeFlagsInParentPageTables s v cr3 flags).mem cr3 w = leaf s.mem cr3 w := by
  have hpath : ¬ upperPath w++[getIndexOfPt w] <+: fullPath v :=
    fun h => hne (h.eq_of_length rfl)
  have hentry := changeFlags_tree s v cr3 flags hcr3 htree hm (upperPath w) (getIndexOfPt w) le_rfl
  rwa [if_neg hpath] at hentry

end

theorem leaf_path (m : Mem) (cr3 : Word) {v : Word} (h : fullPath w = fullPath v) :
    leaf m cr3 w = leaf m cr3 v := by
  obtain ⟨hupper,hlast⟩ := List.append_inj' h rfl
  rw [leaf, leaf, hupper, (List.cons.inj hlast).1]

/-- The flags of a page are changed as they should be exactly if the page is
mapped or there is nothing to change. -/
theorem change_flags_only_mapped_iff (s : Machine) (v cr3 flags : Word) (hcr3 : Aligned cr3)
    (htree : Separate child (tables s.mem) (treeAt cr3)) (hlow : flags.toNat < 4096) :
    OnlyMapped s.mem (changeFlagsInParentPageTables s v cr3 flags).mem cr3 v ↔
      PageMapped s.mem cr3 v ∨ AlreadySet s.mem cr3 v flags := by
  have hm := low_flags_masked hlow
  constructor
  · intro h
    by_cases hmapped : PageMapped s.mem cr3 v
    · exact Or.inl hmapped
    · right
      intro q j hpath e he hcase
      have hlen := hpath.length_le
      simp only [List.length_append, fullPath, upperPath, List.length_cons, List.length_nil] at hlen
      have hsame := h.unmapped hmapped q j (by omega)
      rw [changeFlags_tree s v cr3 flags hcr3 htree hm q j (by omega), if_pos hpath,
        show treeEntry s.mem cr3 q j = some e from he, Option.map_some, flagged,
        if_pos hcase] at hsame
      exact Option.some.inj hsame
  · intro h
    constructor
    case unmapped =>
      intro hmapped p j hp
      exact changeFlags_set s v cr3 flags hcr3 htree hm (h.resolve_left hmapped) p j hp
    case mapped =>
      intro _ p j hp hpath
      rw [changeFlags_tree s v cr3 flags hcr3 htree hm p j hp, if_neg hpath]
    case addresses => exact fun _ p j hp => changeFlags_addresses s v cr3 flags hcr3 htree hm j hp
    case absent =>
      rintro w hw ⟨e,he,hpresent⟩
      by_cases hsame : fullPath w = fullPath v
      · -- the page itself: mapped before, or with nothing to change
        rcases h with hmapped | hset
        · rw [PageMapped, leaf_path s.mem cr3 hsame] at hw
          exact hw hmapped
        · have hkeep := changeFlags_set s v cr3 flags hcr3 htree hm hset (upperPath w)
            (getIndexOfPt w) le_rfl
          exact hw ⟨e,hkeep.symm.trans he,hpresent⟩
      · rw [changeFlags_other s v cr3 flags hcr3 htree hm hsame] at he
        exact hw ⟨e,he,hpresent⟩

def openPath (e : Word) : Machine :=
  { blank with
    mem := setEntry (setEntry (setEntry (setEntry blank.mem 0x4000 0 0x1001) 0x1000 0 0x2001)
      0x2000 0 0x3001) 0x3000 0 e }

variable {e : Word}

theorem openPath_tables (u : ℕ) (j : Fin 512) : tables (openPath e).mem u j =
    if u = frameOf 0x3000 ∧ j = 0 then e
    else if u = frameOf 0x2000 ∧ j = 0 then 0x3001
    else if u = frameOf 0x1000 ∧ j = 0 then 0x2001
    else if u = frameOf 0x4000 ∧ j = 0 then 0x1001 else 0 := by
  rw [openPath, tables_setEntry _ _ _ _ (by decide), tables_setEntry _ _ _ _ (by decide),
    tables_setEntry _ _ _ _ (by decide), tables_setEntry _ _ _ _ (by decide)]
  simp only [put, blank_tables]

def pathDepth (t : ℕ) : ℕ :=
  if t = frameOf 0x4000 then 0 else if t = frameOf 0x1000 then 1
  else if t = frameOf 0x2000 then 2 else if t = frameOf 0x3000 then 3 else 4

section
variable (he : ∀ t, child e = some t → pathDepth t = 4)
include he

theorem openPath_child {u t : ℕ} (h : child (tables (openPath e).mem u j) = some t) :
    j = 0 ∧ pathDepth t = pathDepth u+1 := by
  rw [openPath_tables] at h
  split_ifs at h with h₃ h₂ h₁ h₀
  · rw [he t h, h₃.1]
    exact ⟨h₃.2,by decide⟩
  · rw [child_present (by decide)] at h
    rw [h₂.1, ← Option.some.inj h]
    exact ⟨h₂.2,by decide⟩
  · rw [child_present (by decide)] at h
    rw [h₁.1, ← Option.some.inj h]
    exact ⟨h₁.2,by decide⟩
  · rw [child_present (by decide)] at h
    rw [h₀.1, ← Option.some.inj h]
    exact ⟨h₀.2,by decide⟩
  · rw [child_absent (by decide)] at h
    cases h

theorem openPath_descend (t : ℕ)
    (h : descend child (tables (openPath e).mem) (frameOf 0x4000) p = some t) :
    p = List.replicate (pathDepth t) 0 := by
  induction p using List.reverseRecOn generalizing t with
  | nil =>
    rw [← Option.some.inj h]
    rfl
  | append_singleton p j ih =>
    rw [descend_snoc, Option.bind_eq_some_iff] at h
    obtain ⟨u,hu,hchild⟩ := h
    obtain ⟨rfl,hdepth⟩ := openPath_child he hchild
    rw [hdepth, List.replicate_succ', ← ih u hu]

theorem openPath_tree : Separate child (tables (openPath e).mem) (treeAt 0x4000) := by
  rintro r p r' p' t ⟨rfl,_⟩ ⟨rfl,_⟩ ht ht'
  exact ⟨rfl,(openPath_descend he t ht).trans (openPath_descend he t ht').symm⟩

end

theorem openPath_leaf (e : Word) : leaf (openPath e).mem 0x4000 0 = some e := by
  have hdown : descend child (tables (openPath e).mem) (frameOf 0x4000) (upperPath 0) =
      some (frameOf 0x3000) := by
    rw [show upperPath 0 = [0,0,0] from rfl]
    have h₀ : child (tables (openPath e).mem (frameOf 0x4000) 0) = some (frameOf 0x1000) := by
      rw [openPath_tables, if_neg (by decide), if_neg (by decide), if_neg (by decide)]
      decide
    have h₁ : child (tables (openPath e).mem (frameOf 0x1000) 0) = some (frameOf 0x2000) := by
      rw [openPath_tables, if_neg (by decide), if_neg (by decide)]
      decide
    have h₂ : child (tables (openPath e).mem (frameOf 0x2000) 0) = some (frameOf 0x3000) := by
      rw [openPath_tables, if_neg (by decide)]
      decide
    simp only [descend, h₀, h₁, h₂, Option.bind_some]
  rw [leaf, entryAt, hdown, Option.map_some, openPath_tables]
  rfl

theorem change_flags_only_mapped_iff_page : PageMapped (openPath 0x5001).mem 0x4000 0 ∧
    OnlyMapped (openPath 0x5001).mem (changeFlagsInParentPageTables (openPath 0x5001) 0 0x4000 5).mem
      0x4000 0 := by
  have hmapped : PageMapped (openPath 0x5001).mem 0x4000 0 := ⟨_,openPath_leaf _,by decide⟩
  have htree : Separate child (tables (openPath 0x5001).mem) (treeAt 0x4000) := by
    refine openPath_tree (fun t ht => ?_)
    rw [child_present (by decide)] at ht
    rw [← Option.some.inj ht]
    decide
  exact ⟨hmapped,(change_flags_only_mapped_iff (openPath 0x5001) 0 0x4000 5 (by decide) htree
    (by decide)).mpr (Or.inl hmapped)⟩

/-- A page that nobody has mapped is present afterwards, in frame 0. -/
theorem absent_leaf_made_present : Separate child (tables (openPath 0).mem) (treeAt 0x4000) ∧
    ¬ PageMapped (openPath 0).mem 0x4000 0 ∧
    PageMapped (changeFlagsInParentPageTables (openPath 0) 0 0x4000 5).mem 0x4000 0 := by
  have htree : Separate child (tables (openPath 0).mem) (treeAt 0x4000) := by
    refine openPath_tree (fun t ht => ?_)
    rw [child_absent (by decide)] at ht
    cases ht
  refine ⟨htree,?_,?_⟩
  · rintro ⟨e,he,hpresent⟩
    rw [openPath_leaf] at he
    obtain rfl := Option.some.inj he
    exact absurd hpresent (by decide)
  · have hentry := changeFlags_tree (openPath 0) 0 0x4000 5 (by decide) htree (by decide)
      (upperPath 0) (getIndexOfPt 0) le_rfl
    rw [if_pos (show upperPath 0++[getIndexOfPt 0] <+: fullPath 0 from List.prefix_refl _),
      show treeEntry (openPath 0).mem 0x4000 (upperPath 0) (getIndexOfPt 0) = some 0 from
        openPath_leaf 0] at hentry
    exact ⟨5,hentry,by decide⟩

end PreemptiveOS.PageFlags
