import PreemptiveOS.DirectoryParents
import PreemptiveOS.OpenPaths
import PreemptiveOS.UserBuffers

/-!
# Listing a directory

`sys_getdents` clears the buffer and copies the names of the entries of a
directory to it, 32 bytes apart and without their zeros. An entry is taken to be
in the directory if the first bytes of its parent's name have the sum of the bytes
of the directory's name. `ls` prints the strings that it finds 32 bytes apart.

Names that are short enough and that fit are printed as they should be, but the
clearing writes the byte behind the buffer, and the first name is copied without
a look at the size.
-/

set_option autoImplicit false

namespace PreemptiveOS.DirectoryListing
open ByteMemory KernelObjects SlotTables Tarfs TarfsLookup OpenPaths ExecWrites UserBuffers
open DirectoryParents

def fsDirectory : BitVec 32 := 2

def dParentOf (fs : FileSystem) (entry : DentryCache) : Option ℕ :=
  (entry.dentryElem.bind (fun d => fs.dentries[d]?)).bind Dentry.dParent

def entryName (fs : FileSystem) (entry : DentryCache) : List Byte :=
  string (dNameOf fs entry.dentryElem)

def belongs (fs : FileSystem) (exDentry : ℕ) (entry : DentryCache) : Bool :=
  match dParentOf fs entry with
  | none => false
  | some parent => myMemcmp (dNameOf fs (some exDentry)) (dNameOf fs (some parent))
      (string (dNameOf fs (some exDentry))).length = 0

def getdentsLoop (fs : FileSystem) (exDentry data size : ℕ) :
    ℕ → List DentryCache → List Write × ℕ
  | nWritten, [] => ([],nWritten)
  | nWritten, entry::rest =>
    if size < nWritten then ([],size)
    else if belongs fs exDentry entry then
      (copyWrites data nWritten (entryName fs entry)++
        (getdentsLoop fs exDentry data size (nWritten+32) rest).1,
        (getdentsLoop fs exDentry data size (nWritten+32) rest).2)
    else getdentsLoop fs exDentry data size nWritten rest

def sysGetdents (fs : FileSystem) (fp : File) (b : UserBuffer) : List Write × ℕ :=
  if fp.fFlags ≠ fsDirectory then (clearWrites b.addr b.size,0)
  else
    let listing := getdentsLoop fs fp.fDentry b.addr b.size 0
      (occupied freeCache fs.dentryCacheArray)
    (clearWrites b.addr b.size++listing.1,listing.2)

structure LsPrints (m : Mem) (data n : ℕ) (names : List (List Byte)) : Prop where
  count : names.length = (n+31)/32
  name : ∀ i s, names[i]? = some s → CString m (data+32*i) s

def children (fs : FileSystem) (exDentry : ℕ) : List (List Byte) :=
  ((occupied freeCache fs.dentryCacheArray).filter
    (fun entry => dParentOf fs entry = some exDentry)).map (entryName fs)

def LsAgrees (fs : FileSystem) (fp : File) (b : UserBuffer) (m : Mem) : Prop :=
  Stays b (sysGetdents fs fp b).1 ∧ LsPrints (performAll (sysGetdents fs fp b).1 m) b.addr
    (sysGetdents fs fp b).2 ((children fs fp.fDentry).take (b.size/32))

section
variable (fs : FileSystem) (fp : File) (b : UserBuffer) (hdir : fp.fFlags = fsDirectory)
include hdir

theorem getdents_directory : sysGetdents fs fp b =
    (clearWrites b.addr b.size++(getdentsLoop fs fp.fDentry b.addr b.size 0
      (occupied freeCache fs.dentryCacheArray)).1,
      (getdentsLoop fs fp.fDentry b.addr b.size 0 (occupied freeCache fs.dentryCacheArray)).2) := by
  rw [sysGetdents, if_neg (not_not.mpr hdir)]

end

variable {fs : FileSystem} {entries : List DentryCache} {exDentry : ℕ}

theorem loop_nothing (data size : ℕ) (h : ∀ entry ∈ entries, belongs fs exDentry entry = false) :
    getdentsLoop fs exDentry data size 0 entries = ([],0) := by
  induction entries with
  | nil => rfl
  | cons entry entries ih =>
    obtain ⟨hentry,hrest⟩ := List.forall_mem_cons.mp h
    rw [getdentsLoop, if_neg (Nat.not_lt_zero _), hentry, if_neg Bool.false_ne_true, ih hrest]

theorem loop_leaves {b : UserBuffer} (hempty : b.size = 0)
    (hnamed : ∀ entry ∈ entries, entryName fs entry ≠ [])
    (h : Stays b (getdentsLoop fs exDentry b.addr b.size 0 entries).1) :
    ∀ entry ∈ entries, belongs fs exDentry entry = false := by
  induction entries with
  | nil => simp
  | cons entry entries ih =>
    obtain ⟨hname,hnames⟩ := List.forall_mem_cons.mp hnamed
    rw [getdentsLoop, if_neg (Nat.not_lt_zero _)] at h
    by_cases hbelongs : belongs fs exDentry entry = true
    · rw [if_pos hbelongs, stays_append] at h
      have hfirst := (stays_copy b 0 hname).mp h.1
      have hpos := List.length_pos_of_ne_nil hname
      omega
    · rw [if_neg hbelongs] at h
      exact List.forall_mem_cons.mpr ⟨by simpa using hbelongs,ih hnames h⟩

def SumsAgree (fs : FileSystem) (d parent : ℕ) : Prop :=
  byteSum ((dNameOf fs (some parent)).take (string (dNameOf fs (some d))).length) =
    byteSum (string (dNameOf fs (some d)))

theorem byteSum_take (s : List Byte) (n : ℕ) :
    byteSum (s.take (n+1)) = byteSum (s.take n)+(s.getD n 0).toNat := by
  rw [List.take_add_one, List.getD_eq_getElem?_getD]
  cases s[n]? <;> simp [byteSum]

theorem memcmp_take (s t : List Byte) (n : ℕ) :
    myMemcmp s t n = (byteSum (s.take n) : ℤ)-byteSum (t.take n) := by
  induction n with
  | zero => simp [myMemcmp, byteSum]
  | succ n ih =>
    rw [myMemcmp] at ih
    rw [byteSum_take, byteSum_take, myMemcmp, List.range_succ, List.map_append, List.sum_append, ih,
      List.map_singleton, List.sum_singleton]
    push_cast
    ring

theorem belongs_iff (fs : FileSystem) (d : ℕ) (entry : DentryCache) :
    belongs fs d entry = true ↔
      ∃ parent, dParentOf fs entry = some parent ∧ SumsAgree fs d parent := by
  rw [belongs]
  cases dParentOf fs entry with
  | none => simp
  | some parent =>
    have htake : (dNameOf fs (some d)).take (string (dNameOf fs (some d))).length =
        string (dNameOf fs (some d)) :=
      (List.prefix_iff_eq_take.mp (List.takeWhile_prefix _)).symm
    rw [decide_eq_true_iff, memcmp_take, htake, sub_eq_zero, Nat.cast_inj, eq_comm]
    simp [SumsAgree]

section
variable {fs : FileSystem} {inodes : List Inode} {names : List (List Byte)}
  (hl : Listed fs inodes names)
include hl

theorem cache_dentry {entry : DentryCache} (h : entry ∈ occupied freeCache fs.dentryCacheArray) :
    ∃ d name, entry.dentryElem = some d ∧ names[d]? = some name := by
  rw [cache_scanned hl, List.mem_map] at h
  obtain ⟨inode,hinode,rfl⟩ := h
  obtain ⟨d,hd⟩ := List.getElem?_of_mem hinode
  have hlt : d < names.length := by
    rw [hl.filled.count]
    exact (List.getElem?_eq_some_iff.mp hd).1
  exact ⟨d,names[d],hl.dentry d inode hd,List.getElem?_eq_getElem hlt⟩

theorem dentry_cached {d : ℕ} {dentry : Dentry} (h : fs.dentries[d]? = some dentry) :
    ∃ entry ∈ occupied freeCache fs.dentryCacheArray, entry.dentryElem = some d := by
  have hlen : fs.dentries.length = names.length := by
    rw [← List.length_map (f := Dentry.dName), hl.filled.named, List.length_map]
  have hlt : d < names.length := hlen ▸ (List.getElem?_eq_some_iff.mp h).1
  obtain ⟨inode,hinode,hdentry⟩ := listed_inode hl (List.getElem?_eq_getElem hlt)
  refine ⟨cacheOf inode,?_,hdentry⟩
  rw [cache_scanned hl]
  exact List.mem_map_of_mem (List.mem_of_getElem? hinode)

theorem nothing_belongs_iff (d : ℕ) :
    (∀ entry ∈ occupied freeCache fs.dentryCacheArray, belongs fs d entry = false) ↔
      ∀ dentry ∈ fs.dentries, ∀ parent, dentry.dParent = some parent →
        ¬ SumsAgree fs d parent := by
  constructor
  · intro h dentry hdentry parent hparent hsums
    obtain ⟨k,hk⟩ := List.getElem?_of_mem hdentry
    obtain ⟨entry,hentry,helem⟩ := dentry_cached hl hk
    have hbelongs : belongs fs d entry = true := by
      refine (belongs_iff fs d entry).mpr ⟨parent,?_,hsums⟩
      rw [dParentOf, helem, Option.bind_some, hk, Option.bind_some, hparent]
    rw [h entry hentry] at hbelongs
    cases hbelongs
  · intro h entry _
    by_contra hbelongs
    obtain ⟨parent,hparent,hsums⟩ := (belongs_iff fs d entry).mp (by simpa using hbelongs)
    obtain ⟨dentry,hdentry,hdparent⟩ := Option.bind_eq_some_iff.mp hparent
    obtain ⟨k,-,hk⟩ := Option.bind_eq_some_iff.mp hdentry
    exact h dentry (List.mem_of_getElem? hk) parent hdparent hsums

theorem entry_named (hnames : ∀ name ∈ names, name ≠ [] ∧ ∀ b ∈ name, b ≠ 0) :
    ∀ entry ∈ occupied freeCache fs.dentryCacheArray, entryName fs entry ≠ [] := by
  intro entry hentry
  obtain ⟨d,name,hd,hname⟩ := cache_dentry hl hentry
  obtain ⟨hne,htext⟩ := hnames name (List.mem_of_getElem? hname)
  rwa [entryName, hd, listed_name hl hname, string_padded htext]

theorem agrees_iff (hnames : ∀ name ∈ names, name ≠ [] ∧ ∀ b ∈ name, b ≠ 0) {fp : File}
    (hdir : fp.fFlags = fsDirectory) (b : UserBuffer) (m : Mem) : LsAgrees fs fp b m ↔
      b.size = 0 ∧ ∀ dentry ∈ fs.dentries, ∀ parent, dentry.dParent = some parent →
        ¬ SumsAgree fs fp.fDentry parent := by
  rw [← nothing_belongs_iff hl, LsAgrees, getdents_directory fs fp b hdir, stays_append]
  constructor
  · rintro ⟨⟨hclear,hloop⟩,-⟩
    have hempty : b.size = 0 := by
      by_contra hsize
      exact clear_leaves (by omega) hclear
    exact ⟨hempty,loop_leaves hempty (entry_named hl hnames) hloop⟩
  · rintro ⟨hempty,hnothing⟩
    rw [loop_nothing b.addr b.size hnothing, hempty, clearWrites, if_pos (Or.inl rfl),
      Nat.zero_div, List.take_zero]
    refine ⟨⟨by simp [Stays],by simp [Stays]⟩,⟨rfl,by simp⟩⟩

end

variable {es : List UstarEntry}

theorem archive_named (hv : ∀ e ∈ es, Storable e) :
    ∀ name ∈ archiveNames es, name ≠ [] ∧ ∀ b ∈ name, b ≠ 0 := by
  rw [archiveNames, List.forall_mem_cons]
  refine ⟨by decide,fun name hname => ?_⟩
  obtain ⟨e,he,rfl⟩ := List.mem_map.mp hname
  exact ⟨(hv e he).named,(hv e he).text⟩

theorem init_listed {m : Mem} {start : ℕ} (hv : ∀ e ∈ es, Storable e)
    (h : Holds m start (encode es)) (hinit : tarfsInit (es.length+1) m start = some fs) :
    Listed fs (rootInode::decodedInodes start 1 es) (archiveNames es) := by
  have hcount := init_count m start es hv h hinit
  obtain ⟨fs',hinit',hf⟩ := init_filled m start es hv hcount h
  rw [hinit' _ (Nat.lt_succ_self _), Option.some.injEq] at hinit
  exact hinit ▸ listed_archive start es hf

/-- Buffer and return value agree only for a size of zero and a directory without entries. -/
theorem ls_agrees_iff (m : Mem) (start : ℕ) (es : List UstarEntry) (hv : ∀ e ∈ es, Storable e)
    (h : Holds m start (encode es)) (fs : FileSystem)
    (hinit : tarfsInit (es.length+1) m start = some fs) (fp : File)
    (hdir : fp.fFlags = fsDirectory) (b : UserBuffer) (m' : Mem) : LsAgrees fs fp b m' ↔
      b.size = 0 ∧ ∀ dentry ∈ fs.dentries, ∀ parent, dentry.dParent = some parent →
        ¬ SumsAgree fs fp.fDentry parent :=
  agrees_iff (init_listed hv h hinit) (archive_named hv) hdir b m'

def oneDirectory : List UstarEntry := [emptyEntry [97,47]]

theorem oneDirectory_storable : ∀ e ∈ oneDirectory, Storable e := by
  simpa [oneDirectory] using emptyEntry_storable [97,47] (by decide) (by decide) (by decide)

theorem oneDirectory_init : ∃ fs, tarfsInit 2 (imageOf oneDirectory) 0 = some fs ∧
    fs.dentries = [⟨rootName,none⟩,⟨padded [97,47],some 0⟩] := by
  obtain ⟨fs,hinit,-⟩ := init_filled (imageOf oneDirectory) 0 oneDirectory oneDirectory_storable
    (by decide) (imageOf_holds)
  have hfs := hinit 2 (by decide)
  refine ⟨fs,hfs,?_⟩
  rw [init_dentries _ 0 oneDirectory oneDirectory_storable (imageOf_holds) (by decide)
    (by decide) hfs]
  decide

theorem ls_agrees_iff_empty : ∃ fs, tarfsInit 2 (imageOf oneDirectory) 0 = some fs ∧
    LsAgrees fs ⟨0,1,0,fsDirectory,1⟩ ⟨0x7000,0,by decide,by decide⟩ (fun _ => 0) := by
  obtain ⟨fs,hinit,hdentries⟩ := oneDirectory_init
  refine ⟨fs,hinit,(ls_agrees_iff (imageOf oneDirectory) 0 oneDirectory oneDirectory_storable
    (imageOf_holds) fs hinit _ rfl _ _).mpr ⟨rfl,fun dentry hdentry parent hparent => ?_⟩⟩
  rw [hdentries] at hdentry
  simp only [SumsAgree, dNameOf, hdentries]
  rcases List.mem_pair.mp hdentry with rfl | rfl
  · cases hparent
  · obtain rfl : 0 = parent := Option.some.inj hparent
    decide

/-- The clearing of a buffer of 1024 bytes goes one byte too far. -/
theorem ls_buffer_overrun : ∃ fs, tarfsInit 2 (imageOf oneDirectory) 0 = some fs ∧
    ¬ Stays listingBuffer (sysGetdents fs ⟨0,1,0,fsDirectory,0⟩ listingBuffer).1 ∧
    ¬ LsAgrees fs ⟨0,1,0,fsDirectory,0⟩ listingBuffer (fun _ => 0) := by
  obtain ⟨fs,hinit,-⟩ := oneDirectory_init
  have hleaves : ¬ Stays listingBuffer (sysGetdents fs ⟨0,1,0,fsDirectory,0⟩ listingBuffer).1 := by
    intro h
    rw [getdents_directory fs _ listingBuffer rfl, stays_append] at h
    exact clear_leaves (by decide) h.1
  exact ⟨fs,hinit,hleaves,fun h => hleaves h.1⟩

def nameWrites (data n : ℕ) (name : List Byte) : List Write := copyWrites data n name

theorem loop_room (fs : FileSystem) (d data size n : ℕ) (entries : List DentryCache)
    (h : n+32*(entries.filter (belongs fs d)).length ≤ size) :
    getdentsLoop fs d data size n entries =
      (slotWrites (nameWrites data) n ((entries.filter (belongs fs d)).map (entryName fs)),
        n+32*(entries.filter (belongs fs d)).length) := by
  induction entries generalizing n with
  | nil => rfl
  | cons entry entries ih =>
    by_cases hbelongs : belongs fs d entry = true
    · rw [List.filter_cons_of_pos hbelongs, List.length_cons] at h ⊢
      rw [getdentsLoop, if_neg (by omega), if_pos hbelongs, ih (n+32) (by omega), List.map_cons,
        slotWrites, nameWrites, show n+32+32*(entries.filter (belongs fs d)).length =
          n+32*((entries.filter (belongs fs d)).length+1) by ring]
    · rw [List.filter_cons_of_neg hbelongs] at h ⊢
      rw [getdentsLoop, if_neg (by omega), if_neg hbelongs, ih n h]

theorem name_format (data : ℕ) : SlotFormat data (nameWrites data)
    (fun name => name.length ≤ 31 ∧ ∀ b ∈ name, b ≠ 0) CString := by
  constructor
  case inside =>
    intro n name hname w hw
    have hplace := copy_places data n name w hw
    omega
  case written =>
    intro n name m hname hclear
    exact cString_written hname.2 (hclear _ (by omega) (by omega))
  case kept =>
    intro ws m a name hname hread hws
    refine cString_kept hread (fun w hw => Or.inr ?_)
    have hplace := hws w hw
    omega

/-- Where the test for an entry is right, and where the names are short and there is
room for them, `ls` prints them. Only the byte behind the buffer is lost. -/
theorem names_printed (fs : FileSystem) (fp : File) (hdir : fp.fFlags = fsDirectory)
    (b : UserBuffer) (m : Mem) (hexact : ∀ entry ∈ occupied freeCache fs.dentryCacheArray,
      belongs fs fp.fDentry entry = decide (dParentOf fs entry = some fp.fDentry))
    (hshort : ∀ name ∈ children fs fp.fDentry, name.length ≤ 31)
    (hroom : 32*(children fs fp.fDentry).length ≤ b.size) :
    (sysGetdents fs fp b).2 = 32*(children fs fp.fDentry).length ∧
      LsPrints (performAll (sysGetdents fs fp b).1 m) b.addr
        (32*(children fs fp.fDentry).length) (children fs fp.fDentry) := by
  have hfilter : ((occupied freeCache fs.dentryCacheArray).filter (belongs fs fp.fDentry)).map
      (entryName fs) = children fs fp.fDentry := by
    rw [List.filter_congr hexact, children]
  have hlength := congrArg List.length hfilter
  rw [List.length_map] at hlength
  have hloop := loop_room fs fp.fDentry b.addr b.size 0 (occupied freeCache fs.dentryCacheArray)
    (by rw [hlength]; omega)
  rw [hlength, hfilter, Nat.zero_add] at hloop
  rw [getdents_directory fs fp b hdir, hloop, performAll_append]
  refine ⟨rfl,?_⟩
  constructor
  case count => omega
  case name =>
    intro i s hi
    refine slots_read (name_format b.addr) 0 (fun name hname => ⟨hshort name hname,?_⟩) _
      (fun x hlow hhigh => cleared_byte m b.nonnull hlow (by omega)) i hi
    obtain ⟨entry,-,rfl⟩ := List.mem_map.mp hname
    intro c hc
    simpa using List.mem_takeWhile_imp hc

/-- The root with the files `a` and `b` in it. -/
def twoFiles : FileSystem :=
  ⟨[⟨padded [47],none⟩,⟨padded [97],some 0⟩,⟨padded [98],some 0⟩],[],
    [⟨1,some 0⟩,⟨2,some 1⟩,⟨3,some 2⟩]⟩

theorem names_printed_two : (sysGetdents twoFiles ⟨0,1,0,fsDirectory,0⟩ listingBuffer).2 = 64 ∧
    LsPrints (performAll (sysGetdents twoFiles ⟨0,1,0,fsDirectory,0⟩ listingBuffer).1 (fun _ => 0))
      listingBuffer.addr 64 [[97],[98]] := by
  have hchildren : children twoFiles 0 = [[97],[98]] := by decide +kernel
  have h := names_printed twoFiles ⟨0,1,0,fsDirectory,0⟩ rfl listingBuffer (fun _ => 0)
    (by decide +kernel) (by rw [hchildren]; decide) (by rw [hchildren]; decide)
  rwa [hchildren] at h

end PreemptiveOS.DirectoryListing
