import Mathlib.Data.List.DropRight
import PreemptiveOS.TarfsLookup

/-!
# The parents of the entries

For every header `tarfs_init` looks for the dentry of the directory that the
entry is in. The name of that directory is what stands before the last slash,
but for a name that ends with a slash it is the root. The search takes the first
dentry whose leading bytes have the sum of the bytes of that name.

The parents are right for archives whose directories are all below the root, as
long as no other name that is met first has the same sum.
-/

set_option autoImplicit false

namespace PreemptiveOS.DirectoryParents
open ByteMemory KernelObjects Tarfs TarfsLookup

def trimmed (name : List Byte) : List Byte := name.rdropWhile (fun b => b = 47)

def container (name : List Byte) : List Byte :=
  trimmed ((trimmed name).rdropWhile (fun b => b ≠ 47))

def IsDirectoryOf (es : List UstarEntry) (name : List Byte) (d : ℕ) : Prop :=
  if container name = [] then d = 0
  else ∃ (j : ℕ) (e : UstarEntry), es[j]? = some e ∧ e.name.getLast? = some 47 ∧
    trimmed e.name = container name ∧ d = j+1

def ParentsRight (fs : FileSystem) (es : List UstarEntry) : Prop :=
  ∀ (k : ℕ) (e : UstarEntry), es[k]? = some e → ∃ (dentry : Dentry) (d : ℕ),
    fs.dentries[k+1]? = some dentry ∧ dentry.dParent = some d ∧ IsDirectoryOf es e.name d

def InitFindsParents (m : Mem) (start : ℕ) (es : List UstarEntry) : Prop :=
  ∃ fs, (∀ steps, es.length < steps → tarfsInit steps m start = some fs) ∧ ParentsRight fs es

def foundParent (names : List (List Byte)) (name : List Byte) : Option ℕ :=
  checkCorrectFile (storedNames (fun _ _ => 0) names (parentDirectory name).length)
    (parentDirectory name)

theorem split_last (a : List Byte) {c : List Byte} (hc : c ≠ []) (hslash : 47 ∉ c) :
    (a++47::c).getLast? ≠ some 47 := by
  obtain ⟨front,b,rfl⟩ := (List.eq_nil_or_concat c).resolve_left hc
  rw [List.concat_eq_append, ← List.cons_append, ← List.append_assoc, List.getLast?_concat, Ne,
    Option.some.injEq]
  exact fun hb => hslash (by simp [hb])

theorem split_inner {a : List Byte} (c : List Byte) (ha : a ≠ []) : 47 ∈ (a++47::c).drop 1 := by
  obtain ⟨b,a,rfl⟩ := List.exists_cons_of_ne_nil ha
  simp

section
variable (a c : List Byte) (ha : a ≠ []) (hc : c ≠ []) (hslash : 47 ∉ c)
include hslash

theorem behind_slash (i : ℕ) (hi : a.length < i) : (a++47::c).getD i 0 ≠ 47 := by
  obtain ⟨k,rfl⟩ := Nat.exists_eq_add_of_lt hi
  rw [List.getD_append_right _ _ _ _ (by omega), show a.length+k+1-a.length = k+1 by omega,
    List.getD_cons_succ]
  by_cases hk : k < c.length
  · rw [List.getD_eq_getElem _ _ hk]
    exact fun h => hslash (h ▸ List.getElem_mem hk)
  · rw [List.getD_eq_default _ _ (by omega)]
    decide

include ha in
theorem slashBefore_split (i : ℕ) (hi : a.length ≤ i) : slashBefore (a++47::c) i = a.length := by
  have hpos : 0 < a.length := List.length_pos_of_ne_nil ha
  induction i with
  | zero => omega
  | succ i ih =>
    by_cases hplace : a.length = i+1
    · have hbyte : (a++47::c).getD (i+1) 0 = 47 := by
        rw [List.getD_append_right _ _ _ _ (by omega), hplace, Nat.sub_self, List.getD_cons_zero]
      rw [slashBefore, if_pos hbyte, hplace]
    · rw [slashBefore, if_neg (behind_slash a c hslash (i+1) (by omega)), ih (by omega)]

include ha hc

theorem parent_split : parentDirectory (a++47::c) = a := by
  have hlen : 0 < c.length := List.length_pos_of_ne_nil hc
  have hpos : 0 < a.length := List.length_pos_of_ne_nil ha
  have htotal : (a++47::c).length = a.length+(c.length+1) := by
    rw [List.length_append, List.length_cons]
  have hlast := behind_slash a c hslash ((a++47::c).length-1) (by omega)
  have hplace := slashBefore_split a c ha hslash ((a++47::c).length-1) (by omega)
  simp only [parentDirectory]
  rw [if_neg hlast, hplace, if_neg (by omega), List.take_left]

end

variable {name : List Byte}

theorem slashBefore_none (hslash : 47 ∉ name.drop 1) (i : ℕ) : slashBefore name i = 0 := by
  induction i with
  | zero => rfl
  | succ i ih =>
    have hbyte : name.getD (i+1) 0 ≠ 47 := by
      by_cases hi : i+1 < name.length
      · rw [List.getD_eq_getElem _ _ hi]
        intro h
        refine hslash (List.mem_iff_getElem.mpr ⟨i,by rw [List.length_drop]; omega,?_⟩)
        rw [List.getElem_drop, ← h]
        congr 1
        omega
      · rw [List.getD_eq_default _ _ (by omega)]
        decide
    rw [slashBefore, if_neg hbyte, ih]

theorem parent_root (h : name.getLast? = some 47 ∨ 47 ∉ name.drop 1) :
    parentDirectory name = [47] := by
  simp only [parentDirectory]
  rcases h with hlast | hslash
  · rw [List.getLast?_eq_getElem?] at hlast
    rw [if_pos (by rw [List.getD_eq_getElem?_getD, hlast, Option.getD_some])]
  · rw [slashBefore_none hslash, if_pos rfl, ite_self]

theorem name_cases (name : List Byte) : name.getLast? = some 47 ∨
    (name.getLast? ≠ some 47 ∧ 47 ∉ name.drop 1) ∨
    ∃ a c, a ≠ [] ∧ c ≠ [] ∧ 47 ∉ c ∧ name = a++47::c := by
  by_cases hlast : name.getLast? = some 47
  · exact Or.inl hlast
  by_cases hslash : 47 ∈ name.drop 1
  · right
    right
    cases name with
    | nil => simp at hslash
    | cons b t =>
      rw [List.drop_succ_cons, List.drop_zero, ← List.mem_reverse] at hslash
      obtain ⟨back,front,hback,hnone⟩ := List.eq_append_cons_of_mem hslash
      have ht : t = front.reverse++47::back.reverse := by
        rw [← List.reverse_reverse t, hback]
        simp
      refine ⟨b::front.reverse,back.reverse,by simp,?_,by simpa using hnone,by rw [ht]; rfl⟩
      intro hempty
      rw [ht, hempty, ← List.cons_append, List.getLast?_concat] at hlast
      exact hlast rfl
  · exact Or.inr (Or.inl ⟨hlast,hslash⟩)

theorem trimmed_self (hlast : name.getLast? ≠ some 47) : trimmed name = name := by
  rw [trimmed, List.rdropWhile_eq_self_iff]
  intro hne heq
  rw [List.getLast?_eq_some_getLast hne] at hlast
  exact hlast (congrArg some (of_decide_eq_true heq))

theorem container_root (hlast : name.getLast? ≠ some 47) (hslash : 47 ∉ name.drop 1) :
    container name = [] := by
  rw [container, trimmed_self hlast, trimmed, List.rdropWhile_eq_nil_iff]
  intro b hb
  cases name with
  | nil => simp at hb
  | cons b₀ t =>
    rw [List.drop_succ_cons, List.drop_zero] at hslash
    have htail : ∀ x ∈ t.reverse, decide (x ≠ 47) = true := by
      intro x hx
      exact decide_eq_true (fun h => hslash (h ▸ List.mem_reverse.mp hx))
    rw [List.rdropWhile, List.reverse_cons, List.dropWhile_append_of_pos htail] at hb
    have hfirst : b₀ = 47 ∧ b = b₀ := by simpa [List.dropWhile_cons] using hb
    exact decide_eq_true (hfirst.2.trans hfirst.1)

section
variable {fs : FileSystem} {inodes : List Inode} {names : List (List Byte)}
  (hl : Listed fs inodes names)
include hl

theorem parent_found (hshort : (parentDirectory name).length ≤ 100) :
    getParentDentry fs name = foundParent names name := by
  have hbytes : ∀ inode : Inode, myMemcmp (dNameOf fs inode.iDentry) (parentDirectory name)
        (parentDirectory name).length =
      myMemcmp (nameBytes fs (fun _ _ => 0) inode.iDentry (parentDirectory name).length)
        (parentDirectory name) (parentDirectory name).length := by
    intro inode
    refine congrArg List.sum (List.map_congr_left (fun i hi => ?_))
    rw [List.mem_range] at hi
    have hread : (nameBytes fs (fun _ _ => 0) inode.iDentry (parentDirectory name).length).getD i 0 =
        (dNameOf fs inode.iDentry).getD i 0 := by
      rw [nameBytes, firstBytes, List.getD_eq_getElem _ _ (by simpa using hi), List.getElem_map,
        List.getElem_range, if_pos (by omega)]
    rw [hread]
  simp only [getParentDentry, hbytes, inodes_scanned hl]
  rw [foundParent, checkCorrectFile, ← scanned_names hl, List.findIdx?_map, Function.comp_def,
    List.find?_eq_bind_findIdx?_getElem?]
  cases hplace : inodes.findIdx? (fun inode => decide (myMemcmp (nameBytes fs (fun _ _ => 0)
      inode.iDentry (parentDirectory name).length) (parentDirectory name)
        (parentDirectory name).length = 0)) with
  | none => rfl
  | some d =>
    obtain ⟨hd,-⟩ := List.findIdx?_eq_some_iff_getElem.mp hplace
    rw [Option.bind_some, List.getElem?_eq_getElem hd, Option.bind_some]
    exact hl.dentry d _ (List.getElem?_eq_getElem hd)

end

variable {fs : FileSystem}

theorem inserted_dentries {fs' : FileSystem} (dentry : Dentry) (inode : Inode) (num : BitVec 32)
    (h : (insertInodeIntoSuperblock (newDentry fs dentry).1 inode).bind
      (fun fs' => insertDentryIntoDentryCache fs' num (newDentry fs dentry).2) = some fs') :
    fs'.dentries = fs.dentries++[dentry] := by
  obtain ⟨fs₁,hinode,hcache⟩ := Option.bind_eq_some_iff.mp h
  obtain ⟨slots,-,rfl⟩ := Option.map_eq_some_iff.mp hinode
  obtain ⟨entries,-,rfl⟩ := Option.map_eq_some_iff.mp hcache
  rfl

def addedDentries : List (List Byte) → List UstarEntry → List Dentry
  | _, [] => []
  | names, e::es =>
    ⟨padded e.name,foundParent names e.name⟩::addedDentries (names++[e.name]) es

theorem parent_short (h : name.length ≤ 100) : (parentDirectory name).length ≤ 100 := by
  simp only [parentDirectory]
  split_ifs
  · decide
  · decide
  · have htake := List.length_take_le (slashBefore name (name.length-1)) name
    rw [List.length_take] at htake ⊢
    omega

variable {es : List UstarEntry} {e : UstarEntry}

section
variable {m : Mem} {temp : ℕ} {fs : FileSystem} {inodes : List Inode} {names : List (List Byte)}

theorem listed_header (h : Holds m temp (encodeEntry e)) (hv : Storable e)
    (hl : Listed fs inodes names) (hroom : inodes.length < 85) :
    ∃ fs' inode, addHeader m temp (BitVec.ofNat 32 (inodes.length+2)) fs = some fs' ∧
      Listed fs' (inodes++[inode]) (names++[e.name]) ∧
      fs'.dentries = fs.dentries++[⟨padded e.name,foundParent names e.name⟩] := by
  obtain ⟨fs',hadd,hf'⟩ := filled_header h hv hl.filled hroom
  refine ⟨fs',_,hadd,⟨hf',fun d inode hd => ?_⟩,?_⟩
  · by_cases hold : d < inodes.length
    · rw [List.getElem?_append_left hold] at hd
      exact hl.dentry d inode hd
    · rw [List.getElem?_append_right (by omega)] at hd
      cases hplace : d-inodes.length with
      | zero =>
        rw [hplace, List.getElem?_cons_zero, Option.some.injEq] at hd
        rw [← hd, show d = inodes.length by omega]
      | succ i =>
        rw [hplace, List.getElem?_cons_succ, List.getElem?_nil] at hd
        cases hd
  · have hdentries := inserted_dentries _ _ _ hadd
    rw [hdentries, header_name h hv, string_padded hv.text,
      parent_found hl (parent_short hv.full)]

theorem loop_dentries (h : Holds m temp (encode es)) (hv : ∀ e ∈ es, Storable e)
    (hl : Listed fs inodes names) (hroom : inodes.length+es.length ≤ 85) (steps : ℕ)
    (hsteps : es.length < steps) :
    (tarfsLoop m steps temp (BitVec.ofNat 32 (inodes.length+2)) fs).map FileSystem.dentries =
      some (fs.dentries++addedDentries names es) := by
  induction es generalizing temp fs inodes names steps with
  | nil =>
    obtain ⟨k,rfl⟩ := Nat.exists_eq_add_of_lt hsteps
    rw [loop_end h, Option.map_some, addedDentries, List.append_nil]
  | cons e es ih =>
    rw [List.length_cons] at hroom hsteps
    obtain ⟨k,rfl⟩ : ∃ n, steps = n+1 := ⟨steps-1,by omega⟩
    have hve : Storable e := hv e List.mem_cons_self
    obtain ⟨hentry,hrest⟩ := holds_cons h
    obtain ⟨fs',inode,hadd,hl',hdentries⟩ := listed_header hentry hve hl (by omega)
    have hloop := ih hrest (fun x hx => hv x (List.mem_cons_of_mem _ hx)) hl'
      (by rw [List.length_append, List.length_singleton]; omega) k (by omega)
    rw [List.length_append, List.length_singleton, hdentries, List.append_assoc] at hloop
    rw [loop_header hentry hve, hadd, Option.bind_some]
    exact hloop

end

theorem added_place (names : List (List Byte)) (es : List UstarEntry) (k : ℕ) (e : UstarEntry)
    (h : es[k]? = some e) : (addedDentries names es)[k]? =
      some ⟨padded e.name,foundParent (names++(es.take k).map UstarEntry.name) e.name⟩ := by
  induction es generalizing names k with
  | nil => simp at h
  | cons x es ih =>
    cases k with
    | zero =>
      obtain rfl : x = e := by simpa using h
      simp [addedDentries]
    | succ k =>
      rw [List.getElem?_cons_succ] at h
      rw [addedDentries, List.getElem?_cons_succ, ih _ k h]
      simp

variable {steps : ℕ}

section
variable (m : Mem) (start : ℕ) (es : List UstarEntry) (hv : ∀ e ∈ es, Storable e)
  (h : Holds m start (encode es))
include hv h

theorem init_dentries (hcount : es.length ≤ 84) (hsteps : es.length < steps)
    (hinit : tarfsInit steps m start = some fs) :
    fs.dentries = ⟨rootName,none⟩::addedDentries [[47]] es := by
  obtain ⟨fs₀,hroot,hf₀⟩ := root_filled
  have hl₀ : Listed fs₀ [rootInode] [[47]] := listed_archive start [] hf₀
  have hdentries₀ := @inserted_dentries blankTarfs fs₀ ⟨rootName,none⟩ rootInode 2 hroot
  have hloop := loop_dentries h hv hl₀ (by rw [List.length_singleton]; omega) steps hsteps
  rw [tarfsInit, hroot, Option.bind_some] at hinit
  rwa [show BitVec.ofNat 32 ([rootInode].length+2) = 3 from rfl, hinit, Option.map_some,
    Option.some.injEq, hdentries₀] at hloop

theorem init_dentry (hcount : es.length ≤ 84) (hsteps : es.length < steps)
    (hinit : tarfsInit steps m start = some fs) {k : ℕ} (he : es[k]? = some e) : fs.dentries[k+1]? =
      some ⟨padded e.name,foundParent (archiveNames (es.take k)) e.name⟩ := by
  rw [init_dentries m start es hv h hcount hsteps hinit]
  exact added_place [[47]] es k e he

theorem init_count (hinit : tarfsInit steps m start = some fs) : es.length ≤ 84 := by
  by_contra hmany
  obtain ⟨fs₀,hroot,hf₀⟩ := root_filled
  have hnone := loop_overflow h hv hf₀ (by decide) (by rw [List.length_singleton]; omega) steps
  rw [tarfsInit, hroot, Option.bind_some] at hinit
  rw [show BitVec.ofNat 32 ([rootInode].length+2) = 3 from rfl, hinit] at hnone
  cases hnone

end

def FirstSame (names : List (List Byte)) (n : List Byte) (d : ℕ) : Prop :=
  SameSum (fun _ _ => 0) names n d ∧ ∀ j < d, ¬ SameSum (fun _ _ => 0) names n j

theorem found_root (es : List UstarEntry) (h : parentDirectory name = [47]) :
    foundParent (archiveNames es) name = some 0 := by
  rw [foundParent, h, check_some_iff]
  refine ⟨⟨[47],rfl,by decide⟩,fun j hj => ?_⟩
  omega

structure Placed (es : List UstarEntry) (k : ℕ) (name : List Byte) : Prop where
  directory : name.getLast? = some 47 → container name = []
  file : ∀ a c, a ≠ [] → c ≠ [] → 47 ∉ c → name = a++47::c →
    ∃ d, FirstSame (archiveNames (es.take k)) a d ∧ IsDirectoryOf es name d

theorem found_right_iff (es : List UstarEntry) (k : ℕ) (name : List Byte) :
    (∃ d, foundParent (archiveNames (es.take k)) name = some d ∧ IsDirectoryOf es name d) ↔
      Placed es k name := by
  have hroot : parentDirectory name = [47] →
      ((∃ d, foundParent (archiveNames (es.take k)) name = some d ∧ IsDirectoryOf es name d) ↔
        container name = []) := by
    intro hparent
    rw [found_root (es.take k) hparent]
    constructor
    · rintro ⟨d,hd,hdirectory⟩
      rw [IsDirectoryOf] at hdirectory
      split_ifs at hdirectory with hempty
      · exact hempty
      · obtain ⟨j,e,-,-,-,rfl⟩ := hdirectory
        cases hd
    · intro hempty
      exact ⟨0,rfl,by rw [IsDirectoryOf, if_pos hempty]⟩
  rcases name_cases name with hlast | ⟨hlast,hslash⟩ | ⟨a,c,ha,hc,hslash,rfl⟩
  · rw [hroot (parent_root (Or.inl hlast))]
    constructor
    · intro hempty
      refine ⟨fun _ => hempty,fun a c _ hc hslash hname => ?_⟩
      exact absurd (hname ▸ hlast) (split_last a hc hslash)
    · exact fun hplaced => hplaced.directory hlast
  · rw [hroot (parent_root (Or.inr hslash))]
    have hempty := container_root hlast hslash
    refine iff_of_true hempty ⟨fun _ => hempty,fun a c ha _ _ hname => ?_⟩
    exact absurd (hname ▸ split_inner c ha) hslash
  · have hfound : ∀ d, foundParent (archiveNames (es.take k)) (a++47::c) = some d ↔
        FirstSame (archiveNames (es.take k)) a d := by
      intro d
      rw [foundParent, parent_split a c ha hc hslash, check_some_iff, FirstSame]
    constructor
    · rintro ⟨d,hd,hdirectory⟩
      refine ⟨fun hlast => absurd hlast (split_last a hc hslash),?_⟩
      intro a' c' ha' hc' hslash' hname
      have hsame := congrArg parentDirectory hname
      rw [parent_split a c ha hc hslash, parent_split a' c' ha' hc' hslash'] at hsame
      exact ⟨d,hsame ▸ (hfound d).mp hd,hdirectory⟩
    · intro hplaced
      obtain ⟨d,hd,hdirectory⟩ := hplaced.file a c ha hc hslash rfl
      exact ⟨d,(hfound d).mpr hd,hdirectory⟩

theorem init_parents {m : Mem} {start : ℕ} (hv : ∀ e ∈ es, Storable e)
    (h : Holds m start (encode es)) : InitFindsParents m start es ↔
      es.length ≤ 84 ∧ ∀ (k : ℕ) (e : UstarEntry), es[k]? = some e →
        ∃ d, foundParent (archiveNames (es.take k)) e.name = some d ∧
          IsDirectoryOf es e.name d := by
  constructor
  · rintro ⟨fs,hinit,hright⟩
    have hfs := hinit (es.length+1) (Nat.lt_succ_self _)
    have hcount := init_count m start es hv h hfs
    refine ⟨hcount,fun k e he => ?_⟩
    obtain ⟨dentry,d,hdentry,hparent,hdirectory⟩ := hright k e he
    rw [init_dentry m start es hv h hcount (Nat.lt_succ_self _) hfs he,
      Option.some.injEq] at hdentry
    rw [← hdentry] at hparent
    exact ⟨d,hparent,hdirectory⟩
  · rintro ⟨hcount,hfound⟩
    obtain ⟨fs,hinit,-⟩ := init_filled m start es hv hcount h
    refine ⟨fs,hinit,fun k e he => ?_⟩
    obtain ⟨d,hd,hdirectory⟩ := hfound k e he
    have hdentry := init_dentry m start es hv h hcount (Nat.lt_succ_self _)
      (hinit _ (Nat.lt_succ_self _)) he
    exact ⟨_,d,hdentry,hd,hdirectory⟩

/-- The parents are right where there is room for the inodes and every name is placed
well. -/
theorem parents_right_iff (m : Mem) (start : ℕ) (es : List UstarEntry) (hv : ∀ e ∈ es, Storable e)
    (h : Holds m start (encode es)) : InitFindsParents m start es ↔
      es.length ≤ 84 ∧ ∀ (k : ℕ) (e : UstarEntry), es[k]? = some e → Placed es k e.name := by
  rw [init_parents hv h]
  refine and_congr_right (fun _ => forall₃_congr (fun k e _ => ?_))
  exact found_right_iff es k e.name

def emptyEntry (name : List Byte) : UstarEntry := ⟨name,48,[],fun _ => 0,fun _ => 0⟩

theorem emptyEntry_storable (name : List Byte) (hnamed : name ≠ []) (hfull : name.length ≤ 100)
    (htext : ∀ b ∈ name, b ≠ 0) : Storable (emptyEntry name) := by
  constructor
  case named => exact hnamed
  case full => exact hfull
  case text => exact htext
  case octal => exact show 0 < 8^11 by decide

def fileInDirectory : List UstarEntry := [emptyEntry [97,47],emptyEntry [97,47,98]]

theorem parents_right_iff_file :
    InitFindsParents (imageOf fileInDirectory) 0 fileInDirectory := by
  have hv : ∀ e ∈ fileInDirectory, Storable e := by
    simp only [fileInDirectory, List.forall_mem_cons]
    refine ⟨?_,?_,by simp⟩ <;> exact emptyEntry_storable _ (by decide) (by decide) (by decide)
  refine (parents_right_iff _ 0 _ hv (imageOf_holds)).mpr ⟨by decide,fun k e he => ?_⟩
  rw [← found_right_iff]
  match k with
  | 0 =>
    obtain rfl := Option.some.inj he
    refine ⟨0,by decide,?_⟩
    rw [IsDirectoryOf, if_pos (by decide)]
  | 1 =>
    obtain rfl := Option.some.inj he
    refine ⟨1,by decide,?_⟩
    rw [IsDirectoryOf, if_neg (by decide)]
    exact ⟨0,_,rfl,by decide,by decide,rfl⟩
  | _+2 => cases he

def nestedDirectories : List UstarEntry := [emptyEntry [97,47],emptyEntry [97,47,98,47]]

def similarDirectories : List UstarEntry :=
  [emptyEntry [97,98,47],emptyEntry [97,47],emptyEntry [97,47,99]]

/-- A nested directory is put below the root, and a file into a directory whose name
starts like that of its own. -/
theorem entries_misplaced :
    (nestedDirectories.map UstarEntry.name).Nodup ∧
      ¬ InitFindsParents (imageOf nestedDirectories) 0 nestedDirectories ∧
    (similarDirectories.map UstarEntry.name).Nodup ∧
      ¬ InitFindsParents (imageOf similarDirectories) 0 similarDirectories := by
  have hnested : ∀ e ∈ nestedDirectories, Storable e := by
    simp only [nestedDirectories, List.forall_mem_cons]
    refine ⟨?_,?_,by simp⟩ <;> exact emptyEntry_storable _ (by decide) (by decide) (by decide)
  have hsimilar : ∀ e ∈ similarDirectories, Storable e := by
    simp only [similarDirectories, List.forall_mem_cons]
    refine ⟨?_,?_,?_,by simp⟩ <;> exact emptyEntry_storable _ (by decide) (by decide) (by decide)
  rw [init_parents hnested (imageOf_holds), init_parents hsimilar (imageOf_holds)]
  refine ⟨by decide,fun h => ?_,by decide,fun h => ?_⟩
  · obtain ⟨d,hd,hdirectory⟩ := h.2 1 _ rfl
    rw [IsDirectoryOf, if_neg (by decide)] at hdirectory
    obtain ⟨j,e,-,-,-,rfl⟩ := hdirectory
    rw [found_root _ (by decide)] at hd
    cases hd
  · obtain ⟨d,hd,hdirectory⟩ := h.2 2 _ rfl
    obtain rfl : 1 = d := Option.some.inj hd
    rw [IsDirectoryOf, if_neg (by decide)] at hdirectory
    obtain ⟨j,e,he,-,hname,hj⟩ := hdirectory
    obtain rfl : j = 0 := by omega
    rw [← Option.some.inj he] at hname
    exact absurd hname (by decide)

end PreemptiveOS.DirectoryParents
