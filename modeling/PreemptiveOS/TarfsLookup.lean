import PreemptiveOS.Tarfs

/-!
# Looking up a path

`do_find_dentry` compares the path with every name in the dentry cache, and
`get_inode_from_dentry` compares the name of a dentry with the names behind the
inodes. Both comparisons look at as many bytes as the wanted name has, and both
take a zero sum of differences for equality. A lookup is exact where no other
name that is met first has the same sum of bytes.
-/

set_option autoImplicit false

namespace PreemptiveOS.TarfsLookup
open ByteMemory KernelObjects SlotTables Tarfs

def firstBytes (dName : List Byte) (behind : ℕ → Byte) (n : ℕ) : List Byte :=
  (List.range n).map (fun i => if i < 100 then dName.getD i 0 else behind i)

def nameBytes (fs : FileSystem) (behind : ℕ → ℕ → Byte) (dentry : Option ℕ) (n : ℕ) : List Byte :=
  firstBytes (dNameOf fs dentry) (behind (dentry.getD 0)) n

def doFindDentry (fs : FileSystem) (behind : ℕ → ℕ → Byte) (cwd pathname : List Byte) :
    Option ℕ :=
  let path := if pathname.head? = some 47 then string pathname else string cwd++string pathname
  let filename := path.drop 1
  (checkCorrectFile ((occupied freeCache fs.dentryCacheArray).map
      (fun entry => nameBytes fs behind entry.dentryElem filename.length)) filename).bind
    (fun i => (fs.dentryCacheArray.getD i noCache).dentryElem)

def getInodeFromDentry (fs : FileSystem) (behind : ℕ → ℕ → Byte) (dentry : ℕ) : Inode :=
  let name := string (dNameOf fs (some dentry))
  match checkCorrectFile ((occupied freeInode fs.sInodes).map
      (fun inode => nameBytes fs behind inode.iDentry name.length)) name with
  | none => noInode
  | some i => fs.sInodes.getD i noInode

def byteSum (s : List Byte) : ℕ := (s.map BitVec.toNat).sum

theorem memcmp_sums (s : List Byte) {t : List Byte} (h : s.length = t.length) :
    myMemcmp s t t.length = (byteSum s : ℤ)-byteSum t := by
  induction t generalizing s with
  | nil =>
    rw [List.length_eq_zero_iff.mp h]
    rfl
  | cons b t ih =>
    cases s with
    | nil => simp at h
    | cons a s =>
      have hrest := ih s (by simpa using h)
      simp only [myMemcmp, byteSum, List.length_cons, List.range_succ_eq_map, List.map_cons,
        List.map_map, List.sum_cons] at hrest ⊢
      simp only [Function.comp_def, List.getD_cons_zero, List.getD_cons_succ, Nat.succ_eq_add_one,
        hrest]
      push_cast
      ring

def storedNames (behind : ℕ → ℕ → Byte) (names : List (List Byte)) (n : ℕ) : List (List Byte) :=
  names.mapIdx (fun d name => firstBytes (padded name) (behind d) n)

def SameSum (behind : ℕ → ℕ → Byte) (names : List (List Byte)) (n : List Byte) (d : ℕ) : Prop :=
  ∃ name, names[d]? = some name ∧
    byteSum (firstBytes (padded name) (behind d) n.length) = byteSum n

variable {names : List (List Byte)} {n : List Byte} {d : ℕ} {behind : ℕ → ℕ → Byte}

theorem check_some_iff :
    checkCorrectFile (storedNames behind names n.length) n = some d ↔
      SameSum behind names n d ∧ ∀ j < d, ¬ SameSum behind names n j := by
  have hmatch : ∀ j, ∀ h : j < (storedNames behind names n.length).length,
      decide (myMemcmp (storedNames behind names n.length)[j] n n.length = 0) = true ↔
        SameSum behind names n j := by
    intro j h
    have hj : j < names.length := by simpa [storedNames] using h
    have hlen : (storedNames behind names n.length)[j].length = n.length := by
      simp [storedNames, firstBytes]
    rw [decide_eq_true_iff, memcmp_sums _ hlen, sub_eq_zero, Nat.cast_inj]
    simp [SameSum, storedNames, List.getElem?_eq_getElem hj]
  have hbound : ∀ j, SameSum behind names n j → j < (storedNames behind names n.length).length := by
    rintro j ⟨name,hname,-⟩
    simpa [storedNames] using (List.getElem?_eq_some_iff.mp hname).1
  rw [checkCorrectFile, List.findIdx?_eq_some_iff_getElem]
  constructor
  · rintro ⟨h,hd,hbefore⟩
    refine ⟨(hmatch d h).mp hd,fun j hj hsame => ?_⟩
    exact hbefore j hj ((hmatch j (hj.trans h)).mpr hsame)
  · rintro ⟨hd,hbefore⟩
    refine ⟨hbound d hd,(hmatch d _).mpr hd,fun j hj hsame => ?_⟩
    exact hbefore j hj ((hmatch j _).mp hsame)

theorem check_same (h : SameSum behind names n d) :
    ∃ k ≤ d, checkCorrectFile (storedNames behind names n.length) n = some k := by
  classical
  refine ⟨Nat.find ⟨d,h⟩,Nat.find_min' _ h,(check_some_iff).mpr ?_⟩
  exact ⟨Nat.find_spec ⟨d,h⟩,fun j hj => Nat.find_min _ hj⟩

def Finds (behind : ℕ → ℕ → Byte) (names : List (List Byte)) (n : List Byte) : Prop :=
  ∀ d, checkCorrectFile (storedNames behind names n.length) n = some d ↔
    0 < d ∧ names[d]? = some n

def Alone (behind : ℕ → ℕ → Byte) (names : List (List Byte)) (n : List Byte) : Prop :=
  ∀ d, SameSum behind names n d → ∃ k, 0 < k ∧ k ≤ d ∧ names[k]? = some n

variable {name : List Byte} {k : ℕ}

section
variable (behind : ℕ → ℕ → Byte) (names : List (List Byte))
  (hshort : ∀ name ∈ names, name.length ≤ 99) (hdistinct : names.tail.Nodup)

theorem firstBytes_padded {after : ℕ → Byte} (h : name.length ≤ 99) :
    firstBytes (padded name) after name.length = name := by
  apply List.ext_getElem
  · simp [firstBytes]
  · intro i hi hi'
    simp only [firstBytes, List.getElem_map, List.getElem_range]
    rw [if_pos (by omega), ← padded_byte _ _ (by omega), List.getD_eq_getElem _ _ hi']

include hshort in
theorem sameSum_own (hk : names[k]? = some n) : SameSum behind names n k :=
  ⟨n,hk,by rw [firstBytes_padded (hshort n (List.mem_of_getElem? hk))]⟩

include hdistinct in
theorem place_unique {j : ℕ} (hj : 0 < j) (hk : 0 < k) (hjn : names[j]? = some n)
    (hkn : names[k]? = some n) : j = k := by
  obtain ⟨j,rfl⟩ : ∃ i, j = i+1 := ⟨j-1,by omega⟩
  obtain ⟨k,rfl⟩ : ∃ i, k = i+1 := ⟨k-1,by omega⟩
  rw [← List.getElem?_tail] at hjn hkn
  have hlt := (List.getElem?_eq_some_iff.mp hjn).1
  rw [(List.getElem?_inj hlt hdistinct).mp (hjn.trans hkn.symm)]

include hshort hdistinct

theorem finds_iff (n : List Byte) : Finds behind names n ↔ Alone behind names n := by
  constructor
  · intro hfinds d hsame
    obtain ⟨k,hkd,hcheck⟩ := check_same hsame
    obtain ⟨hpos,hname⟩ := (hfinds k).mp hcheck
    exact ⟨k,hpos,hkd,hname⟩
  · intro halone d
    constructor
    · intro hcheck
      obtain ⟨hsame,hbefore⟩ := (check_some_iff).mp hcheck
      obtain ⟨k,hpos,hkd,hname⟩ := halone d hsame
      have hkeq : k = d := by
        by_contra hne
        exact hbefore k (by omega) (sameSum_own behind names hshort hname)
      exact hkeq ▸ ⟨hpos,hname⟩
    · rintro ⟨hpos,hname⟩
      obtain ⟨j,hjd,hcheck⟩ := check_same (sameSum_own behind names hshort hname)
      obtain ⟨k,hkpos,hkj,hkname⟩ := halone j ((check_some_iff).mp hcheck).1
      have hkd := place_unique names hdistinct hkpos hpos hkname hname
      rwa [show j = d by omega] at hcheck

theorem finds_entry (hpos : 0 < k) (hname : names[k]? = some n) :
    checkCorrectFile (storedNames behind names n.length) n = some k ↔ Alone behind names n := by
  rw [← finds_iff behind names hshort hdistinct]
  constructor
  · intro hcheck d
    rw [hcheck, Option.some.injEq]
    constructor
    · rintro rfl
      exact ⟨hpos,hname⟩
    · rintro ⟨hd,hdn⟩
      exact place_unique names hdistinct hpos hd hname hdn
  · intro hfinds
    exact (hfinds k).mpr ⟨hpos,hname⟩

end

structure Listed (fs : FileSystem) (inodes : List Inode) (names : List (List Byte)) : Prop where
  filled : Filled fs inodes names
  dentry : ∀ (d : ℕ) (inode : Inode), inodes[d]? = some inode → inode.iDentry = some d

variable {inode : Inode}

section
variable {fs : FileSystem} {inodes : List Inode} {names : List (List Byte)}
  (hl : Listed fs inodes names)
include hl

theorem listed_name (h : names[d]? = some name) : dNameOf fs (some d) = padded name := by
  have hd : (fs.dentries.map Dentry.dName)[d]? = some (padded name) := by
    rw [hl.filled.named, List.getElem?_map, h, Option.map_some]
  rw [List.getElem?_map, Option.map_eq_some_iff] at hd
  obtain ⟨dentry,hdentry,hname⟩ := hd
  rw [dNameOf, Option.bind_some, hdentry]
  exact hname

theorem listed_inode (h : names[d]? = some name) :
    ∃ inode, inodes[d]? = some inode ∧ inode.iDentry = some d := by
  have hlt : d < inodes.length := by
    rw [← hl.filled.count]
    exact (List.getElem?_eq_some_iff.mp h).1
  exact ⟨inodes[d],List.getElem?_eq_getElem hlt,hl.dentry d _ (List.getElem?_eq_getElem hlt)⟩

theorem scanned_names (behind : ℕ → ℕ → Byte) (n : ℕ) :
    inodes.map (fun inode => nameBytes fs behind inode.iDentry n) = storedNames behind names n := by
  apply List.ext_getElem?
  intro d
  rw [List.getElem?_map, storedNames, List.getElem?_mapIdx]
  cases hname : names[d]? with
  | none =>
    have hle : inodes.length ≤ d := by
      rw [← hl.filled.count]
      exact List.getElem?_eq_none_iff.mp hname
    rw [List.getElem?_eq_none hle]
    rfl
  | some name =>
    obtain ⟨inode,hinode,hdentry⟩ := listed_inode hl hname
    rw [hinode, Option.map_some, Option.map_some, nameBytes, hdentry, listed_name hl hname]
    rfl

theorem inodes_scanned : occupied freeInode fs.sInodes = inodes := by
  rw [hl.filled.slots]
  exact occupied_used freeInode inodes (fun u hu => (hl.filled.used u hu).1) noInode rfl

theorem cache_scanned : occupied freeCache fs.dentryCacheArray = inodes.map cacheOf := by
  rw [hl.filled.cache]
  exact occupied_used freeCache _ (by simpa using fun i hi => (hl.filled.used i hi).2) noCache rfl

theorem find_dentry (behind : ℕ → ℕ → Byte) (cwd n : List Byte) (htext : ∀ b ∈ n, b ≠ 0) :
    doFindDentry fs behind cwd (47::n) = checkCorrectFile (storedNames behind names n.length) n := by
  have hpath : string (47::n) = 47::n := by
    rw [string, List.takeWhile_cons_of_pos (by decide),
      List.takeWhile_eq_self_iff.mpr (by simpa using htext)]
  simp only [doFindDentry, List.head?_cons, if_pos, hpath, List.drop_succ_cons, List.drop_zero]
  rw [cache_scanned hl, List.map_map]
  have hscan := scanned_names hl behind n.length
  simp only [Function.comp_def, cacheOf]
  rw [hscan]
  cases hcheck : checkCorrectFile (storedNames behind names n.length) n with
  | none => rfl
  | some d =>
    obtain ⟨name,hname,-⟩ := ((check_some_iff).mp hcheck).1
    obtain ⟨inode,hinode,hdentry⟩ := listed_inode hl hname
    have hlt := (List.getElem?_eq_some_iff.mp hinode).1
    rw [Option.bind_some, hl.filled.cache, List.getD_append _ _ _ _ (by simpa using hlt),
      List.getD_eq_getElem?_getD, List.getElem?_map, hinode]
    exact hdentry

theorem inode_iff (behind : ℕ → ℕ → Byte) (hname : names[k]? = some n)
    (hstring : string (padded n) = n) (hinode : inodes[k]? = some inode) :
    getInodeFromDentry fs behind k = inode ↔
      checkCorrectFile (storedNames behind names n.length) n = some k := by
  simp only [getInodeFromDentry, listed_name hl hname, hstring, inodes_scanned hl,
    scanned_names hl behind n.length]
  cases hcheck : checkCorrectFile (storedNames behind names n.length) n with
  | none =>
    have hused := (hl.filled.used inode (List.mem_of_getElem? hinode)).1
    constructor
    · rintro rfl
      exact absurd hused (show ¬ freeInode noInode = false by decide)
    · intro h
      cases h
  | some d =>
    obtain ⟨name,hd,-⟩ := ((check_some_iff).mp hcheck).1
    obtain ⟨found,hfound,hdentry⟩ := listed_inode hl hd
    have hlt := (List.getElem?_eq_some_iff.mp hfound).1
    simp only [hl.filled.slots, List.getD_append _ _ _ _ hlt, List.getD_eq_getElem?_getD, hfound,
      Option.getD_some, Option.some.injEq]
    constructor
    · rintro rfl
      rw [hl.dentry k _ hinode] at hdentry
      exact (Option.some.inj hdentry).symm
    · rintro rfl
      exact Option.some.inj (hfound.symm.trans hinode)

end

def archiveNames (es : List UstarEntry) : List (List Byte) := [47]::es.map UstarEntry.name

variable {es : List UstarEntry}

theorem entry_name {e : UstarEntry} (h : es[k]? = some e) :
    (archiveNames es)[k+1]? = some e.name := by
  rw [archiveNames, List.getElem?_cons_succ, List.getElem?_map, h, Option.map_some]

theorem entry_of_name (es : List UstarEntry) (d : ℕ) (n : List Byte) :
    (0 < d ∧ (archiveNames es)[d]? = some n) ↔
      ∃ (k : ℕ) (e : UstarEntry), es[k]? = some e ∧ e.name = n ∧ d = k+1 := by
  constructor
  · rintro ⟨hpos,h⟩
    obtain ⟨k,rfl⟩ : ∃ k, d = k+1 := ⟨d-1,by omega⟩
    rw [archiveNames, List.getElem?_cons_succ, List.getElem?_map, Option.map_eq_some_iff] at h
    obtain ⟨e,he,hname⟩ := h
    exact ⟨k,e,he,hname,rfl⟩
  · rintro ⟨k,e,he,rfl,rfl⟩
    exact ⟨by omega,entry_name he⟩

theorem archiveNames_short (hv : ∀ e ∈ es, Valid e) :
    ∀ name ∈ archiveNames es, name.length ≤ 99 := by
  intro name hname
  rcases List.mem_cons.mp hname with rfl | hname
  · decide
  · obtain ⟨e,he,rfl⟩ := List.mem_map.mp hname
    exact (hv e he).short

theorem decoded_dentry (a i : ℕ) (d : ℕ) (h : (decodedInodes a i es)[d]? = some inode) :
    inode.iDentry = some (i+d) := by
  induction es generalizing a i d with
  | nil => simp [decodedInodes] at h
  | cons e es ih =>
    cases d with
    | zero =>
      rw [decodedInodes, List.getElem?_cons_zero, Option.some.injEq] at h
      rw [← h]
      rfl
    | succ d =>
      rw [decodedInodes, List.getElem?_cons_succ] at h
      rw [ih _ _ d h, Nat.add_right_comm, Nat.add_assoc]

theorem listed_archive {fs : FileSystem} (start : ℕ) (es : List UstarEntry)
    (hf : Filled fs (rootInode::decodedInodes start 1 es) (archiveNames es)) :
    Listed fs (rootInode::decodedInodes start 1 es) (archiveNames es) := by
  refine ⟨hf,?_⟩
  intro d inode h
  cases d with
  | zero =>
    rw [List.getElem?_cons_zero, Option.some.injEq] at h
    rw [← h]
    rfl
  | succ d =>
    rw [List.getElem?_cons_succ] at h
    rw [decoded_dentry start 1 d h, Nat.add_comm]

structure Exact (fs : FileSystem) (behind : ℕ → ℕ → Byte) (cwd : List Byte) (start : ℕ)
    (es : List UstarEntry) (n : List Byte) : Prop where
  lookup : ∀ d, doFindDentry fs behind cwd (47::n) = some d ↔
    ∃ (k : ℕ) (e : UstarEntry), es[k]? = some e ∧ e.name = n ∧ d = k+1
  inode : ∀ (k : ℕ) (inode : Inode), (decodedInodes start 1 es)[k]? = some inode →
    getInodeFromDentry fs behind (k+1) = inode

/-- A name is looked up right exactly if no entry with the sum of its bytes comes before its
own, or at all if it has none, and the same goes for the names of the archive. -/
theorem lookup_exact_iff (m : Mem) (start : ℕ) (es : List UstarEntry) (hv : ∀ e ∈ es, Valid e)
    (hcount : es.length ≤ 84) (h : Holds m start (encode es))
    (hdistinct : (es.map UstarEntry.name).Nodup) (fs : FileSystem)
    (hinit : tarfsInit (es.length+1) m start = some fs) (behind : ℕ → ℕ → Byte)
    (cwd n : List Byte) (htext : ∀ b ∈ n, b ≠ 0) :
    Exact fs behind cwd start es n ↔
      Alone behind (archiveNames es) n ∧ ∀ e ∈ es, Alone behind (archiveNames es) e.name := by
  obtain ⟨fs',hinit',hf⟩ := init_filled m start es (valid_storable hv) hcount h
  obtain rfl : fs' = fs := by
    rw [hinit' _ (Nat.lt_succ_self _)] at hinit
    exact Option.some.inj hinit
  have hl := listed_archive start es hf
  have hshort := archiveNames_short hv
  -- Both halves are searches among the same names.
  have hpath : (∀ d, doFindDentry fs' behind cwd (47::n) = some d ↔
      ∃ (k : ℕ) (e : UstarEntry), es[k]? = some e ∧ e.name = n ∧ d = k+1) ↔
        Alone behind (archiveNames es) n := by
    rw [← finds_iff behind _ hshort hdistinct n, find_dentry hl behind cwd n htext]
    exact forall_congr' (fun d => by rw [entry_of_name])
  have hentry : ∀ (k : ℕ) (e : UstarEntry) (inode : Inode), es[k]? = some e →
      (decodedInodes start 1 es)[k]? = some inode →
      (getInodeFromDentry fs' behind (k+1) = inode ↔ Alone behind (archiveNames es) e.name) := by
    intro k e inode he hinode
    have hve := hv e (List.mem_of_getElem? he)
    have hname := entry_name he
    rw [inode_iff hl behind hname (string_padded hve.text) hinode,
      finds_entry behind _ hshort hdistinct (by omega) hname]
  constructor
  · intro hexact
    refine ⟨hpath.mp hexact.lookup,fun e he => ?_⟩
    obtain ⟨k,hk⟩ := List.getElem?_of_mem he
    have hlt : k < (decodedInodes start 1 es).length := by
      rw [decodedInodes_length]
      exact (List.getElem?_eq_some_iff.mp hk).1
    have hinode := List.getElem?_eq_getElem hlt
    exact (hentry k e _ hk hinode).mp (hexact.inode k _ hinode)
  · rintro ⟨halone,hentries⟩
    refine ⟨hpath.mpr halone,fun k inode hinode => ?_⟩
    have hlt : k < es.length := by
      rw [← decodedInodes_length start 1]
      exact (List.getElem?_eq_some_iff.mp hinode).1
    have he := List.getElem?_eq_getElem hlt
    exact (hentry k _ inode he hinode).mpr (hentries _ (List.mem_of_getElem? he))

theorem letter_alone {b : Byte} (hb : b = 97 ∨ b = 98) :
    Alone (fun _ _ => 0) (archiveNames [letterFile 97]) [b] := by
  rintro d ⟨name,hname,hsum⟩
  match d with
  | 0 =>
    obtain rfl : [47] = name := Option.some.inj hname
    rcases hb with rfl | rfl <;> exact absurd hsum (by decide)
  | 1 =>
    obtain rfl : [97] = name := Option.some.inj hname
    rcases hb with rfl | rfl
    · exact ⟨1,by decide,le_rfl,rfl⟩
    · exact absurd hsum (by decide)
  | _+2 => cases hname

theorem lookup_exact_iff_letter :
    ∃ fs, tarfsInit 2 (imageOf [letterFile 97]) 0 = some fs ∧
      Exact fs (fun _ _ => 0) [47] 0 [letterFile 97] [98] := by
  have hv : ∀ e ∈ [letterFile 97], Valid e := by
    simpa using letterFile_valid (by decide)
  obtain ⟨fs,hinit,-⟩ := init_filled (imageOf [letterFile 97]) 0 [letterFile 97]
    (valid_storable hv) (by decide) (imageOf_holds)
  have hfs := hinit 2 (by decide)
  refine ⟨fs,hfs,(lookup_exact_iff _ 0 _ hv (by decide) (imageOf_holds) (by decide) fs hfs _ _ _
    (by decide)).mpr ⟨letter_alone (Or.inr rfl),?_⟩⟩
  intro e he
  rw [List.mem_singleton.mp he]
  exact letter_alone (Or.inl rfl)

def prefixFiles : List UstarEntry := [⟨[97,98],48,[1],fun _ => 0,fun _ => 0⟩,letterFile 97]

theorem prefixFiles_valid : ∀ e ∈ prefixFiles, Valid e := by
  intro e he
  rcases List.mem_pair.mp he with rfl | rfl
  · constructor
    case named => exact List.cons_ne_nil _ _
    case short => exact show 2 ≤ 99 by decide
    case text => decide
    case small => exact show 1 < 2^31 by decide
  · exact letterFile_valid (by decide)

/-- A file and one with a longer name: the path of the first leads to the second. -/
theorem path_leads_to_longer_name :
    ∃ fs, tarfsInit 3 (imageOf prefixFiles) 0 = some fs ∧
      (prefixFiles.map UstarEntry.name).Nodup ∧
      doFindDentry fs (fun _ _ => 0) [47] [47,97] = some 1 ∧
      ¬ Exact fs (fun _ _ => 0) [47] 0 prefixFiles [97] := by
  obtain ⟨fs,hinit,hf⟩ := init_filled (imageOf prefixFiles) 0 prefixFiles
    (valid_storable prefixFiles_valid) (by decide) (imageOf_holds)
  have hfound : doFindDentry fs (fun _ _ => 0) [47] [47,97] = some 1 := by
    rw [find_dentry (listed_archive 0 prefixFiles hf) _ _ _ (by decide)]
    decide
  refine ⟨fs,hinit 3 (by decide),by decide,hfound,fun hexact => ?_⟩
  obtain ⟨k,e,he,hname,hk⟩ := (hexact.lookup 1).mp hfound
  obtain rfl : k = 0 := by omega
  rw [← Option.some.inj he] at hname
  exact absurd hname (by decide)

end PreemptiveOS.TarfsLookup
