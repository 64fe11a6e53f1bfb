import Mathlib.Data.List.GetD
import PreemptiveOS.KernelObjects
import PreemptiveOS.SlotTables

/-!
# Reading the archive

`tarfs_init` walks over the headers of a ustar archive in memory. For every
header it makes a dentry and an inode, puts the inode into the next free slot
of a page of inodes and the dentry into the next free slot of the dentry cache.
For an archive that encodes a list of entries the two tables end up with the
root and one element for each entry.

A dentry is named by its number in the order of allocation; the pointers to
operations and to the superblock are left out, as nothing reads them.
-/

set_option autoImplicit false

namespace PreemptiveOS.Tarfs
open ByteMemory KernelObjects SlotTables

structure Dentry where
  dName : List Byte
  dParent : Option ℕ
  deriving DecidableEq

structure Inode where
  iNumber : Word
  iSize : BitVec 32
  iTypeflag : Byte
  iData : Option ℕ
  iDentry : Option ℕ
  deriving DecidableEq

structure DentryCache where
  inodeNum : BitVec 32
  dentryElem : Option ℕ
  deriving DecidableEq

structure FileSystem where
  dentries : List Dentry
  sInodes : List Inode
  dentryCacheArray : List DentryCache
  deriving DecidableEq

def noInode : Inode := ⟨0,0,0,none,none⟩

def noCache : DentryCache := ⟨0,none⟩

def freeInode (inode : Inode) : Bool := inode.iNumber = 0

def freeCache (entry : DentryCache) : Bool := entry.inodeNum = 0

/-- A page has room for 85 inodes of 48 bytes and for 256 entries of 16 bytes. -/
def blankTarfs : FileSystem := ⟨[],List.replicate 85 noInode,List.replicate 256 noCache⟩

def bytesAt (m : Mem) (a n : ℕ) : List Byte := (List.range n).map (fun i => m (a+i))

def string (s : List Byte) : List Byte := s.takeWhile (fun b => b ≠ 0)

def oct2dec (m : Mem) : ℕ → ℕ → Word → Word
  | _, 0, n => n
  | c, size+1, n => oct2dec m (c+1) size (n*8+((m c).setWidth 64-48))

/-- Both insertions would go on behind their page if there were no free slot. -/
def insertInodeIntoSuperblock (fs : FileSystem) (inode : Inode) : Option FileSystem :=
  (insertSlot freeInode fs.sInodes inode).map (fun slots => { fs with sInodes := slots })

def insertDentryIntoDentryCache (fs : FileSystem) (inodeNum : BitVec 32) (dentry : ℕ) :
    Option FileSystem :=
  (insertSlot freeCache fs.dentryCacheArray ⟨inodeNum,some dentry⟩).map
    (fun slots => { fs with dentryCacheArray := slots })

def newDentry (fs : FileSystem) (dentry : Dentry) : FileSystem × ℕ :=
  ({ fs with dentries := fs.dentries++[dentry] },fs.dentries.length)

def rootName : List Byte := 47::List.replicate 99 0

def rootInode : Inode := ⟨2,0,0,none,some 0⟩

def createRootDentry (fs : FileSystem) : Option FileSystem :=
  let root := newDentry fs ⟨rootName,none⟩
  (insertInodeIntoSuperblock root.1 ⟨2,0,0,none,some root.2⟩).bind
    (fun fs' => insertDentryIntoDentryCache fs' 2 root.2)

def slashBefore (filename : List Byte) : ℕ → ℕ
  | 0 => 0
  | i+1 => if filename.getD (i+1) 0 = 47 then i+1 else slashBefore filename i

/-- The parent's half of `get_parent_and_child_directories`. A name that ends with
a slash is taken to be right below the root. -/
def parentDirectory (filename : List Byte) : List Byte :=
  let last := filename.length-1
  if filename.getD last 0 = 47 then [47]
  else if slashBefore filename last = 0 then [47]
  else filename.take (slashBefore filename last)

def dNameOf (fs : FileSystem) (dentry : Option ℕ) : List Byte :=
  match dentry.bind (fun d => fs.dentries[d]?) with
  | none => []
  | some d => d.dName

def getParentDentry (fs : FileSystem) (name : List Byte) : Option ℕ :=
  let parent := parentDirectory name
  ((occupied freeInode fs.sInodes).find? (fun inode =>
    myMemcmp (dNameOf fs inode.iDentry) parent parent.length = 0)).bind Inode.iDentry

def dentryForThisInode (fs : FileSystem) (name : List Byte) : FileSystem × ℕ :=
  newDentry fs ⟨name,getParentDentry fs (string name)⟩

def ustar : List Byte := [0x75,0x73,0x74,0x61,0x72]

def addHeader (m : Mem) (temp : ℕ) (inodeNum : BitVec 32) (fs : FileSystem) : Option FileSystem :=
  let filesize := oct2dec m (temp+124) 11 0
  let typeflag := m (temp+156)
  let dentry := dentryForThisInode fs (bytesAt m temp 100)
  (insertInodeIntoSuperblock dentry.1 ⟨inodeNum.setWidth 64,filesize.setWidth 32,typeflag,
    if typeflag = 48 then some (temp+512) else none,some dentry.2⟩).bind
    (fun fs' => insertDentryIntoDentryCache fs' inodeNum dentry.2)

def tarfsLoop (m : Mem) : ℕ → ℕ → BitVec 32 → FileSystem → Option FileSystem
  | 0, _, _, _ => none
  | steps+1, temp, inodeNum, fs =>
    if myMemcmp (bytesAt m (temp+257) 5) ustar 5 = 0 then
      (addHeader m temp inodeNum fs).bind (fun fs' =>
        tarfsLoop m steps (temp+(((oct2dec m (temp+124) 11 0+511)/512+1)*512).toNat)
          (inodeNum+1) fs')
    else some fs

def tarfsInit (steps : ℕ) (m : Mem) (start : ℕ) : Option FileSystem :=
  (createRootDentry blankTarfs).bind (tarfsLoop m steps start 3)

/-- An entry of an archive. The fields of the header that are not read and the
bytes that fill the last block are arbitrary. -/
structure UstarEntry where
  name : List Byte
  typeflag : Byte
  data : List Byte
  field : ℕ → Byte
  padding : ℕ → Byte

structure Valid (e : UstarEntry) : Prop where
  named : e.name ≠ []
  short : e.name.length ≤ 99
  text : ∀ b ∈ e.name, b ≠ 0
  small : e.data.length < 2^31

structure Storable (e : UstarEntry) : Prop where
  named : e.name ≠ []
  full : e.name.length ≤ 100
  text : ∀ b ∈ e.name, b ≠ 0
  octal : e.data.length < 8^11

def padded (name : List Byte) : List Byte := name++List.replicate (100-name.length) 0

def octDigits : ℕ → ℕ → List Byte
  | 0, _ => []
  | k+1, n => octDigits k (n/8)++[BitVec.ofNat 8 (48+n%8)]

def headerByte (e : UstarEntry) (i : ℕ) : Byte :=
  if i < 100 then e.name.getD i 0
  else if 124 ≤ i ∧ i < 135 then (octDigits 11 e.data.length).getD (i-124) 0
  else if i = 156 then e.typeflag
  else if 257 ≤ i ∧ i < 262 then ustar.getD (i-257) 0
  else e.field i

def encodeEntry (e : UstarEntry) : List Byte :=
  (List.range 512).map (headerByte e)++e.data++
    (List.range ((512-e.data.length%512)%512)).map e.padding

def encode (es : List UstarEntry) : List Byte :=
  (es.map encodeEntry).flatten++List.replicate 512 0

def Holds (m : Mem) (a : ℕ) (bytes : List Byte) : Prop :=
  ∀ i < bytes.length, m (a+i) = bytes.getD i 0

variable {m : Mem} {a : ℕ}

theorem holds_append {xs ys : List Byte} (h : Holds m a (xs++ys)) :
    Holds m a xs ∧ Holds m (a+xs.length) ys := by
  constructor
  · intro i hi
    rw [h i (by rw [List.length_append]; omega), List.getD_append _ _ _ _ hi]
  · intro i hi
    have hlt : xs.length+i < (xs++ys).length := by
      rw [List.length_append]
      omega
    rw [Nat.add_assoc, h _ hlt, List.getD_append_right _ _ _ _ (by omega), Nat.add_sub_cancel_left]

variable {es : List UstarEntry} {e : UstarEntry}

theorem holds_cons (h : Holds m a (encode (e::es))) :
    Holds m a (encodeEntry e) ∧ Holds m (a+(encodeEntry e).length) (encode es) := by
  rw [encode, List.map_cons, List.flatten_cons, List.append_assoc] at h
  exact holds_append h

theorem entry_length (e : UstarEntry) :
    (encodeEntry e).length = ((e.data.length+511)/512+1)*512 := by
  simp only [encodeEntry, List.length_append, List.length_map, List.length_range]
  omega

theorem octDigits_length (k n : ℕ) : (octDigits k n).length = k := by
  induction k generalizing n with
  | zero => rfl
  | succ k ih => rw [octDigits, List.length_append, ih, List.length_singleton]

theorem oct2dec_append (m : Mem) (k a : ℕ) (n : Word) :
    oct2dec m a (k+1) n = oct2dec m a k n*8+((m (a+k)).setWidth 64-48) := by
  induction k generalizing a n with
  | zero => rfl
  | succ k ih =>
    rw [oct2dec, ih, Nat.add_assoc, Nat.add_comm 1 k]
    rfl

theorem digit_value (d : ℕ) (hd : d < 8) :
    (BitVec.ofNat 8 (48+d)).setWidth 64-48 = BitVec.ofNat 64 d := by
  interval_cases d <;> decide

/-- The digits written for a number are read as that number. -/
theorem oct2dec_digits {k : ℕ} (n : ℕ) (hn : n < 8^k)
    (h : ∀ i < k, m (a+i) = (octDigits k n).getD i 0) : oct2dec m a k 0 = BitVec.ofNat 64 n := by
  induction k generalizing n with
  | zero =>
    obtain rfl : n = 0 := by omega
    rfl
  | succ k ih =>
    have hlen := octDigits_length k (n/8)
    have hprefix : oct2dec m a k 0 = BitVec.ofNat 64 (n/8) := by
      apply ih (n/8) (by rw [Nat.pow_succ] at hn; omega)
      intro i hi
      rw [h i (by omega), octDigits, List.getD_append _ _ _ _ (by omega)]
    have hlast : m (a+k) = BitVec.ofNat 8 (48+n%8) := by
      rw [h k (by omega), octDigits, List.getD_append_right _ _ _ _ (by omega), hlen, Nat.sub_self]
      rfl
    rw [oct2dec_append, hprefix, hlast, digit_value _ (Nat.mod_lt _ (by decide)),
      show (8 : Word) = BitVec.ofNat 64 8 from rfl, ← BitVec.ofNat_mul, ← BitVec.ofNat_add]
    congr 1
    omega

variable {name : List Byte}

theorem padded_length (hname : name.length ≤ 100) : (padded name).length = 100 := by
  rw [padded, List.length_append, List.length_replicate]
  omega

theorem padded_byte (name : List Byte) (i : ℕ) (hi : i < 100) :
    name.getD i 0 = (padded name).getD i 0 := by
  by_cases hin : i < name.length
  · rw [padded, List.getD_append _ _ _ _ hin]
  · rw [padded, List.getD_append_right _ _ _ _ (by omega), List.getD_eq_default _ _ (by omega),
      List.getD_replicate _ (by omega)]

theorem string_padded (htext : ∀ b ∈ name, b ≠ 0) : string (padded name) = name := by
  rw [string, padded, List.takeWhile_append_of_pos (by simpa using htext)]
  cases 100-name.length with
  | zero => simp
  | succ k => simp [List.replicate_succ]

theorem bytesAt_eq (m : Mem) (a : ℕ) (bytes : List Byte)
    (h : ∀ i < bytes.length, m (a+i) = bytes.getD i 0) : bytesAt m a bytes.length = bytes := by
  apply List.ext_getElem
  · simp [bytesAt]
  · intro i hi hi'
    simp only [bytesAt, List.getElem_map, List.getElem_range]
    rw [h i hi', List.getD_eq_getElem _ _ hi']

section
variable {m : Mem} {temp : ℕ} {e : UstarEntry} (h : Holds m temp (encodeEntry e))
include h

theorem header_byte (i : ℕ) (hi : i < 512) : m (temp+i) = headerByte e i := by
  rw [encodeEntry, List.append_assoc] at h
  have hlen : i < ((List.range 512).map (headerByte e)).length := by simpa using hi
  rw [(holds_append h).1 i hlen, List.getD_eq_getElem _ _ hlen, List.getElem_map,
    List.getElem_range]

theorem header_magic : bytesAt m (temp+257) 5 = ustar := by
  apply bytesAt_eq m (temp+257) ustar
  intro i hi
  have hi' : i < 5 := hi
  rw [Nat.add_assoc, header_byte h _ (by omega), headerByte, if_neg (by omega), if_neg (by omega),
    if_neg (by omega), if_pos (by omega), Nat.add_sub_cancel_left]

theorem header_size (hv : Storable e) :
    oct2dec m (temp+124) 11 0 = BitVec.ofNat 64 e.data.length := by
  apply oct2dec_digits e.data.length hv.octal
  intro i hi
  rw [Nat.add_assoc, header_byte h _ (by omega), headerByte, if_neg (by omega), if_pos (by omega),
    Nat.add_sub_cancel_left]

theorem header_typeflag : m (temp+156) = e.typeflag := by
  rw [header_byte h _ (by decide)]
  rfl

theorem header_name (hv : Storable e) : bytesAt m temp 100 = padded e.name := by
  have hlen := padded_length hv.full
  have hbytes := bytesAt_eq m temp (padded e.name) (by
    intro i hi
    rw [hlen] at hi
    rw [header_byte h i (by omega), headerByte, if_pos hi, padded_byte _ i hi])
  rwa [hlen] at hbytes

theorem header_data : Holds m (temp+512) e.data := by
  rw [encodeEntry] at h
  have hfirst := (holds_append h).1
  have hdata := (holds_append hfirst).2
  rwa [List.length_map, List.length_range] at hdata

end

def cacheOf (inode : Inode) : DentryCache := ⟨inode.iNumber.setWidth 32,inode.iDentry⟩

structure Filled (fs : FileSystem) (inodes : List Inode) (names : List (List Byte)) : Prop where
  slots : fs.sInodes = inodes++List.replicate (85-inodes.length) noInode
  cache : fs.dentryCacheArray = inodes.map cacheOf++List.replicate (256-inodes.length) noCache
  used : ∀ i ∈ inodes, freeInode i = false ∧ freeCache (cacheOf i) = false
  named : fs.dentries.map Dentry.dName = names.map padded
  count : names.length = inodes.length

theorem filled_add {fs : FileSystem} {inodes : List Inode} {names : List (List Byte)}
    (hf : Filled fs inodes names) (hroom : inodes.length < 85) (dentry : Dentry)
    (name : List Byte) (hname : dentry.dName = padded name) (num : BitVec 32) (hnum : num ≠ 0)
    (size : BitVec 32) (typeflag : Byte) (data : Option ℕ) :
    ∃ fs', (insertInodeIntoSuperblock (newDentry fs dentry).1
      ⟨num.setWidth 64,size,typeflag,data,some (newDentry fs dentry).2⟩).bind
        (fun fs' => insertDentryIntoDentryCache fs' num (newDentry fs dentry).2) = some fs' ∧
      Filled fs' (inodes++[⟨num.setWidth 64,size,typeflag,data,some inodes.length⟩])
        (names++[name]) := by
  have hcount : fs.dentries.length = inodes.length := by
    rw [← hf.count, ← List.length_map (f := padded), ← hf.named, List.length_map]
  have hback : (num.setWidth 64).setWidth 32 = num := by
    rw [BitVec.setWidth_setWidth_of_le _ (by decide), BitVec.setWidth_eq]
  have hwide : num.setWidth 64 ≠ 0 := by
    intro hz
    rw [hz] at hback
    exact hnum (hback.symm.trans (by decide))
  have hinodes := insertSlot_next freeInode inodes (fun u hu => (hf.used u hu).1) noInode rfl
    (84-inodes.length) ⟨num.setWidth 64,size,typeflag,data,some inodes.length⟩
  have hcache := insertSlot_next freeCache (inodes.map cacheOf)
    (by simpa using fun i hi => (hf.used i hi).2) noCache rfl (255-inodes.length)
    ⟨num,some inodes.length⟩
  rw [show 84-inodes.length+1 = 85-inodes.length by omega, ← hf.slots] at hinodes
  rw [show 255-inodes.length+1 = 256-inodes.length by omega, ← hf.cache] at hcache
  simp only [newDentry, insertInodeIntoSuperblock, insertDentryIntoDentryCache, hcount, hinodes,
    hcache, Option.map_some, Option.bind_some]
  refine ⟨_,rfl,?_⟩
  constructor
  case slots =>
    rw [List.length_append, List.length_singleton,
      show 85-(inodes.length+1) = 84-inodes.length by omega]
  case cache =>
    rw [List.length_append, List.length_singleton, List.map_append,
      show 256-(inodes.length+1) = 255-inodes.length by omega]
    simp [cacheOf, hback]
  case used =>
    intro i hi
    rcases List.mem_append.mp hi with hi | hi
    · exact hf.used i hi
    · rw [List.mem_singleton.mp hi]
      refine ⟨decide_eq_false hwide,decide_eq_false ?_⟩
      rw [cacheOf, hback]
      exact hnum
  case named => rw [List.map_append, hf.named, List.map_singleton, List.map_append,
    List.map_singleton, hname]
  case count => rw [List.length_append, List.length_append, hf.count, List.length_singleton,
    List.length_singleton]

def decodedInodes : ℕ → ℕ → List UstarEntry → List Inode
  | _, _, [] => []
  | a, i, e::es =>
    ⟨BitVec.ofNat 64 (i+2),BitVec.ofNat 32 e.data.length,e.typeflag,
      if e.typeflag = 48 then some (a+512) else none,some i⟩::
        decodedInodes (a+(encodeEntry e).length) (i+1) es

theorem decodedInodes_length (a i : ℕ) (es : List UstarEntry) :
    (decodedInodes a i es).length = es.length := by
  induction es generalizing a i with
  | nil => rfl
  | cons e es ih => rw [decodedInodes, List.length_cons, ih, List.length_cons]

variable {n : ℕ}

theorem number_wide (hn : n < 2^32) : (BitVec.ofNat 32 n).setWidth 64 = BitVec.ofNat 64 n := by
  apply BitVec.eq_of_toNat_eq
  rw [BitVec.toNat_setWidth, BitVec.toNat_ofNat, BitVec.toNat_ofNat, Nat.mod_eq_of_lt hn]

theorem size_narrow (n : ℕ) : (BitVec.ofNat 64 n).setWidth 32 = BitVec.ofNat 32 n := by
  apply BitVec.eq_of_toNat_eq
  rw [BitVec.toNat_setWidth, BitVec.toNat_ofNat, BitVec.toNat_ofNat]
  exact Nat.mod_mod_of_dvd n (by decide)

theorem number_nonzero (n : ℕ) (hn : n < 2^32) (hpos : 0 < n) : BitVec.ofNat 32 n ≠ 0 := by
  intro hz
  have hnat := congrArg BitVec.toNat hz
  rw [BitVec.toNat_ofNat, Nat.mod_eq_of_lt hn] at hnat
  exact hpos.ne' hnat

theorem next_header (hn : n < 8^11) :
    (((BitVec.ofNat 64 n+511)/512+1)*512).toNat = ((n+511)/512+1)*512 := by
  rw [BitVec.toNat_mul, BitVec.toNat_add, BitVec.toNat_udiv, BitVec.toNat_add, BitVec.toNat_ofNat,
    show (511 : Word).toNat = 511 from rfl, show (512 : Word).toNat = 512 from rfl,
    show (1 : Word).toNat = 1 from rfl]
  omega

section
variable {m : Mem} {temp : ℕ} {fs : FileSystem} {inodes : List Inode} {names : List (List Byte)}

theorem filled_header (h : Holds m temp (encodeEntry e)) (hv : Storable e)
    (hf : Filled fs inodes names) (hroom : inodes.length < 85) :
    ∃ fs', addHeader m temp (BitVec.ofNat 32 (inodes.length+2)) fs = some fs' ∧
      Filled fs' (inodes++[⟨BitVec.ofNat 64 (inodes.length+2),BitVec.ofNat 32 e.data.length,
        e.typeflag,if e.typeflag = 48 then some (temp+512) else none,some inodes.length⟩])
        (names++[e.name]) := by
  have hadd := filled_add hf hroom
    ⟨bytesAt m temp 100,getParentDentry fs (string (bytesAt m temp 100))⟩ e.name (header_name h hv)
    (BitVec.ofNat 32 (inodes.length+2)) (number_nonzero _ (by omega) (by omega))
    (BitVec.ofNat 32 e.data.length) e.typeflag
    (if e.typeflag = 48 then some (temp+512) else none)
  simp only [addHeader, dentryForThisInode, header_size h hv, header_typeflag h, size_narrow]
  rwa [number_wide (by omega)] at hadd ⊢

theorem last_magic (h : Holds m temp (encode [])) :
    bytesAt m (temp+257) 5 = List.replicate 5 0 := by
  apply bytesAt_eq m (temp+257) (List.replicate 5 0)
  intro i hi
  have hi' : i < 5 := hi
  rw [encode, List.map_nil, List.flatten_nil, List.nil_append] at h
  rw [Nat.add_assoc, h _ (by rw [List.length_replicate]; omega),
    List.getD_replicate _ (by omega), List.getD_replicate _ hi']

theorem loop_end (h : Holds m temp (encode [])) {steps : ℕ} {num : BitVec 32} :
    tarfsLoop m (steps+1) temp num fs = some fs := by
  rw [tarfsLoop, last_magic h, if_neg (by decide)]

theorem loop_header (h : Holds m temp (encodeEntry e)) (hv : Storable e) (steps n : ℕ) :
    tarfsLoop m (steps+1) temp (BitVec.ofNat 32 n) fs =
      (addHeader m temp (BitVec.ofNat 32 n) fs).bind
        (tarfsLoop m steps (temp+(encodeEntry e).length) (BitVec.ofNat 32 (n+1))) := by
  rw [tarfsLoop, header_magic h, if_pos (by decide), header_size h hv, next_header hv.octal,
    ← entry_length, BitVec.ofNat_add]
  rfl

/-- The walk appends one inode for each header, and any number of steps above the
number of headers is enough. The induction is on the entries that are left. -/
theorem loop_filled (h : Holds m temp (encode es)) (hv : ∀ e ∈ es, Storable e)
    (hf : Filled fs inodes names) (hroom : inodes.length+es.length ≤ 85) :
    ∃ fs', (∀ steps, es.length < steps →
        tarfsLoop m steps temp (BitVec.ofNat 32 (inodes.length+2)) fs = some fs') ∧
      Filled fs' (inodes++decodedInodes temp inodes.length es)
        (names++es.map UstarEntry.name) := by
  induction es generalizing temp fs inodes names with
  | nil =>
    refine ⟨fs,fun steps hsteps => ?_,?_⟩
    · obtain ⟨k,rfl⟩ := Nat.exists_eq_add_of_lt hsteps
      exact loop_end h
    · simpa [decodedInodes] using hf
  | cons e es ih =>
    rw [List.length_cons] at hroom
    have hve : Storable e := hv e List.mem_cons_self
    obtain ⟨hentry,hrest⟩ := holds_cons h
    obtain ⟨fs',hadd,hf'⟩ := filled_header hentry hve hf (by omega)
    obtain ⟨fs'',hloop,hf''⟩ := ih hrest (fun x hx => hv x (List.mem_cons_of_mem _ hx)) hf'
      (by rw [List.length_append, List.length_singleton]; omega)
    rw [List.length_append, List.length_singleton] at hloop hf''
    refine ⟨fs'',fun steps hsteps => ?_,?_⟩
    · obtain ⟨k,rfl⟩ : ∃ n, steps = n+1 := ⟨steps-1,by omega⟩
      rw [List.length_cons] at hsteps
      rw [loop_header hentry hve, hadd, Option.bind_some]
      exact hloop k (by omega)
    · simpa [decodedInodes, List.append_assoc] using hf''

theorem loop_overflow (h : Holds m temp (encode es)) (hv : ∀ e ∈ es, Storable e)
    (hf : Filled fs inodes names) (hfull : inodes.length ≤ 85)
    (hmany : 85 < inodes.length+es.length) (steps : ℕ) :
    tarfsLoop m steps temp (BitVec.ofNat 32 (inodes.length+2)) fs = none := by
  induction es generalizing temp fs inodes names steps with
  | nil =>
    rw [List.length_nil] at hmany
    omega
  | cons e es ih =>
    cases steps with
    | zero => rfl
    | succ steps =>
      have hve : Storable e := hv e List.mem_cons_self
      obtain ⟨hentry,hrest⟩ := holds_cons h
      rw [loop_header hentry hve]
      by_cases hroom : inodes.length < 85
      · obtain ⟨fs',hadd,hf'⟩ := filled_header hentry hve hf hroom
        have hnone := ih hrest (fun x hx => hv x (List.mem_cons_of_mem _ hx)) hf'
          (by rw [List.length_append, List.length_singleton]; omega)
          (by rw [List.length_append, List.length_singleton]; rw [List.length_cons] at hmany; omega)
          steps
        rw [List.length_append, List.length_singleton] at hnone
        rw [hadd, Option.bind_some]
        exact hnone
      · have hslots : insertSlot freeInode fs.sInodes = fun _ => none := by
          funext inode
          rw [hf.slots, show 85-inodes.length = 0 by omega, List.replicate_zero, List.append_nil]
          exact insertSlot_none freeInode inodes (fun u hu => (hf.used u hu).1) inode
        simp [addHeader, dentryForThisInode, newDentry, insertInodeIntoSuperblock, hslots]

end

theorem root_filled : ∃ fs, createRootDentry blankTarfs = some fs ∧
    Filled fs [rootInode] [[47]] := by
  have hempty : Filled blankTarfs [] [] := by
    constructor
    case slots => rfl
    case cache => rfl
    case used => simp
    case named => rfl
    case count => rfl
  exact filled_add hempty (by decide) ⟨rootName,none⟩ [47] rfl 2 (by decide) 0 0 none

theorem init_filled (m : Mem) (start : ℕ) (es : List UstarEntry) (hv : ∀ e ∈ es, Storable e)
    (hcount : es.length ≤ 84) (h : Holds m start (encode es)) :
    ∃ fs, (∀ steps, es.length < steps → tarfsInit steps m start = some fs) ∧
      Filled fs (rootInode::decodedInodes start 1 es) ([47]::es.map UstarEntry.name) := by
  obtain ⟨fs₀,hroot,hf₀⟩ := root_filled
  obtain ⟨fs,hloop,hf⟩ := loop_filled h hv hf₀ (by rw [List.length_singleton]; omega)
  refine ⟨fs,fun steps hsteps => ?_,hf⟩
  rw [tarfsInit, hroot, Option.bind_some]
  exact hloop steps hsteps

theorem valid_storable (hv : ∀ e ∈ es, Valid e) : ∀ e ∈ es, Storable e := by
  intro e he
  constructor
  case named => exact (hv e he).named
  case full => exact (hv e he).short.trans (by decide)
  case text => exact (hv e he).text
  case octal => exact (hv e he).small.trans (by decide)

theorem decoded_data (start i : ℕ) (h : Holds m start (encode es)) :
    List.Forall₂ (fun inode e => ∀ p, inode.iData = some p → Holds m p e.data)
      (decodedInodes start i es) es := by
  induction es generalizing start i with
  | nil => exact List.Forall₂.nil
  | cons e es ih =>
    obtain ⟨hentry,hrest⟩ := holds_cons h
    refine List.Forall₂.cons ?_ (ih _ _ hrest)
    intro p hp
    rw [Option.ite_none_right_eq_some] at hp
    rw [← Option.some.inj hp.2]
    exact header_data hentry

/-- The tables hold the root and one element for each entry of the archive. The
number of the dentry that an inode points to is its place among the names. -/
theorem tarfs_decodes (m : Mem) (start : ℕ) (es : List UstarEntry) (hv : ∀ e ∈ es, Valid e)
    (hcount : es.length ≤ 84) (h : Holds m start (encode es)) :
    ∃ fs, (∀ steps, es.length < steps → tarfsInit steps m start = some fs) ∧
      fs.sInodes = rootInode::decodedInodes start 1 es++List.replicate (84-es.length) noInode ∧
      fs.dentryCacheArray = (rootInode::decodedInodes start 1 es).map cacheOf++
        List.replicate (255-es.length) noCache ∧
      fs.dentries.map Dentry.dName = ([47]::es.map UstarEntry.name).map padded ∧
      List.Forall₂ (fun inode e => ∀ p, inode.iData = some p → Holds m p e.data)
        (decodedInodes start 1 es) es := by
  obtain ⟨fs,hinit,hf⟩ := init_filled m start es (valid_storable hv) hcount h
  have hslots := hf.slots
  have hcache := hf.cache
  rw [List.length_cons, decodedInodes_length] at hslots hcache
  rw [show 85-(es.length+1) = 84-es.length by omega] at hslots
  rw [show 256-(es.length+1) = 255-es.length by omega] at hcache
  exact ⟨fs,hinit,hslots,hcache,hf.named,decoded_data start 1 h⟩

def imageOf (es : List UstarEntry) : Mem := fun i => (encode es).getD i 0

theorem imageOf_holds : Holds (imageOf es) 0 (encode es) := by
  intro i _
  rw [Nat.zero_add]
  rfl

def letterFile (b : Byte) : UstarEntry := ⟨[b],48,[b],fun _ => 0,fun _ => 0⟩

theorem letterFile_valid {b : Byte} (hb : b ≠ 0) : Valid (letterFile b) := by
  constructor
  case named => exact List.cons_ne_nil _ _
  case short => exact show 1 ≤ 99 by decide
  case text =>
    intro c hc
    rwa [List.mem_singleton.mp hc]
  case small => exact show 1 < 2^31 by decide

theorem tarfs_decodes_letters :
    ∃ fs, (∀ steps, 2 < steps →
        tarfsInit steps (imageOf [letterFile 97,letterFile 98]) 0 = some fs) ∧
      fs.sInodes = [rootInode,⟨3,1,48,some 512,some 1⟩,⟨4,1,48,some 1536,some 2⟩]++
        List.replicate 82 noInode ∧
      fs.dentryCacheArray = [⟨2,some 0⟩,⟨3,some 1⟩,⟨4,some 2⟩]++List.replicate 253 noCache ∧
      fs.dentries.map Dentry.dName = [padded [47],padded [97],padded [98]] ∧
      Holds (imageOf [letterFile 97,letterFile 98]) 512 [97] ∧
      Holds (imageOf [letterFile 97,letterFile 98]) 1536 [98] := by
  have hvalid : ∀ e ∈ [letterFile 97,letterFile 98], Valid e := by
    simp only [List.forall_mem_cons, List.not_mem_nil, false_imp_iff, implies_true, and_true]
    exact ⟨letterFile_valid (by decide),letterFile_valid (by decide)⟩
  obtain ⟨fs,hinit,hslots,hcache,hnames,hdata⟩ := tarfs_decodes
    (imageOf [letterFile 97,letterFile 98]) 0 [letterFile 97,letterFile 98] hvalid (by decide)
    imageOf_holds
  have hdecoded : decodedInodes 0 1 [letterFile 97,letterFile 98] =
      [⟨3,1,48,some 512,some 1⟩,⟨4,1,48,some 1536,some 2⟩] := by
    rw [decodedInodes, decodedInodes, entry_length]
    rfl
  rw [hdecoded] at hslots hcache hdata
  rw [List.forall₂_cons, List.forall₂_cons] at hdata
  exact ⟨fs,hinit,hslots,hcache,hnames,hdata.1 512 rfl,hdata.2.1 1536 rfl⟩

end PreemptiveOS.Tarfs
