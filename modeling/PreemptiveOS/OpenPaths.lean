import PreemptiveOS.TarfsLookup

/-!
# The two ways to open a file

`sys_open` and `do_open_exec` copy the path of the user into a frame that is not
cleared, without its terminator, so that what the frame held before can follow
the path. `tarfs_open` then puts another slash in front of it, over the byte
that ended it, and both look the result up behind its first byte.
-/

set_option autoImplicit false

namespace PreemptiveOS.OpenPaths
open ByteMemory KernelObjects SlotTables Tarfs TarfsLookup Vmas

structure File where
  fOffset : Word
  fRefcount : Word
  fMode : BitVec 32
  fFlags : BitVec 32
  fDentry : ℕ
  deriving DecidableEq

structure Opened where
  fd : List (Option KernelPtr)
  slot : ℕ
  file : File

def copied (bytes buffer : List Byte) : List Byte := bytes++buffer.drop bytes.length

def install (fd : List (Option KernelPtr)) (fp : KernelPtr) (flags mode : BitVec 32)
    (slot dentry : ℕ) : Opened :=
  ⟨fd.set slot (some fp),slot,⟨0,1,mode,flags,dentry⟩⟩

def rebuilt (pathname : List Byte) : List Byte :=
  if startsWithDot pathname then copied [47,98,105,110,47] pathname
  else copied (47::string pathname) pathname

section
variable (fs : FileSystem) (behind : ℕ → ℕ → Byte) (cwd : List Byte)
  (fd : List (Option KernelPtr)) (fp : KernelPtr) (flags mode : BitVec 32)

def tarfsOpen (pathname : List Byte) : Option Opened :=
  match availableFd fd with
  | none => none
  | some slot =>
    (doFindDentry fs behind cwd (rebuilt pathname)).map (install fd fp flags mode slot)

def sysOpen (old pathname : List Byte) : Option Opened :=
  tarfsOpen fs behind cwd fd fp flags mode (copied (string pathname) old)

def doOpenExec (old filename : List Byte) : Option Opened :=
  match doFindDentry fs behind cwd (copied (string filename) old) with
  | none => none
  | some dentry => (availableFd fd).map (fun slot => install fd fp flags mode slot dentry)

end

def SameDentry (x y : Option Opened) : Prop :=
  (x.isSome ↔ y.isSome) ∧ ∀ a ∈ x, ∀ b ∈ y, a.file.fDentry = b.file.fDentry

def Matches (fs : FileSystem) (behind : ℕ → ℕ → Byte) (name : List Byte) (entry : DentryCache) :
    Prop :=
  byteSum (nameBytes fs behind entry.dentryElem name.length) = byteSum name

def FirstMatch (fs : FileSystem) (behind : ℕ → ℕ → Byte) (name : List Byte) (dentry : ℕ) : Prop :=
  ∃ (i : ℕ) (entry : DentryCache), (occupied freeCache fs.dentryCacheArray)[i]? = some entry ∧
    entry.dentryElem = some dentry ∧ Matches fs behind name entry ∧
    ∀ (j : ℕ) (e : DentryCache), (occupied freeCache fs.dentryCacheArray)[j]? = some e → j < i →
      ¬ Matches fs behind name e

def execName (old pathname : List Byte) : List Byte :=
  (string (copied (string pathname) old)).drop 1

def openName (old pathname : List Byte) : List Byte :=
  string (string (copied (string pathname) old)++
    old.drop ((string (copied (string pathname) old)).length+1))

theorem matches_iff (fs : FileSystem) (behind : ℕ → ℕ → Byte) (name : List Byte)
    (entry : DentryCache) : decide (myMemcmp (nameBytes fs behind entry.dentryElem name.length) name
      name.length = 0) = true ↔ Matches fs behind name entry := by
  have hlen : (nameBytes fs behind entry.dentryElem name.length).length = name.length := by
    simp [nameBytes, firstBytes]
  rw [decide_eq_true_iff, memcmp_sums _ hlen, sub_eq_zero, Nat.cast_inj]
  rfl

theorem occupied_getD {slots : List DentryCache} {i : ℕ} {entry : DentryCache}
    (h : (occupied freeCache slots)[i]? = some entry) : slots.getD i noCache = entry := by
  obtain ⟨rest,hrest⟩ : ∃ rest, occupied freeCache slots++rest = slots :=
    List.takeWhile_prefix (fun s => !freeCache s)
  obtain ⟨hi,-⟩ := List.getElem?_eq_some_iff.mp h
  rw [List.getD_eq_getElem?_getD, ← hrest, List.getElem?_append_left hi, h, Option.getD_some]

theorem find_dentry_iff (fs : FileSystem) (behind : ℕ → ℕ → Byte) (cwd path : List Byte)
    (habsolute : path.head? = some 47) (d : ℕ) :
    doFindDentry fs behind cwd path = some d ↔ FirstMatch fs behind ((string path).drop 1) d := by
  simp only [doFindDentry, if_pos habsolute]
  generalize (string path).drop 1 = name
  rw [Option.bind_eq_some_iff]
  simp only [checkCorrectFile, List.findIdx?_map]
  constructor
  · rintro ⟨i,hi,hd⟩
    obtain ⟨hlt,hmatch,hbefore⟩ := List.findIdx?_eq_some_iff_getElem.mp hi
    have hentry := List.getElem?_eq_getElem hlt
    rw [occupied_getD hentry] at hd
    refine ⟨i,_,hentry,hd,(matches_iff fs behind name _).mp hmatch,?_⟩
    intro j e he hj hsame
    obtain ⟨hjlt,rfl⟩ := List.getElem?_eq_some_iff.mp he
    exact hbefore j hj ((matches_iff fs behind name _).mpr hsame)
  · rintro ⟨i,entry,hentry,hd,hsame,hbefore⟩
    refine ⟨i,?_,by rw [occupied_getD hentry]; exact hd⟩
    obtain ⟨hlt,rfl⟩ := List.getElem?_eq_some_iff.mp hentry
    refine List.findIdx?_eq_some_iff_getElem.mpr ⟨hlt,(matches_iff fs behind name _).mpr hsame,?_⟩
    intro j hj hmatch
    exact hbefore j _ (List.getElem?_eq_getElem _) hj ((matches_iff fs behind name _).mp hmatch)

section
variable (fs : FileSystem) (behind : ℕ → ℕ → Byte) (cwd : List Byte)
  (fd : List (Option KernelPtr)) (fp : KernelPtr) (flags mode : BitVec 32) (old n : List Byte)

theorem string_slash : string (47::n) = 47::string n := by
  rw [string, List.takeWhile_cons_of_pos (by decide), string]

theorem rebuilt_absolute {pathname : List Byte} (h : pathname.head? = some 47) :
    rebuilt pathname = copied (47::string pathname) pathname := by
  obtain ⟨rest,rfl⟩ := List.head?_eq_some_iff.mp h
  have hdot : startsWithDot (47::rest) = false := by
    simp [startsWithDot, myMemcmp]
  rw [rebuilt, hdot, if_neg (by decide)]

theorem string_copied (s : List Byte) :
    string (copied (string s) old) = string s++string (old.drop (string s).length) := by
  have htext : ∀ b ∈ string s, decide (b ≠ 0) = true := by
    intro b hb
    simpa using List.mem_takeWhile_imp hb
  exact List.takeWhile_append_of_pos htext

theorem open_name :
    (string (rebuilt (copied (string (47::n)) old))).drop 1 = openName old (47::n) := by
  have hhead : (copied (string (47::n)) old).head? = some 47 := by
    rw [string_slash]
    rfl
  have hdrop : (copied (string (47::n)) old).drop
      ((string (copied (string (47::n)) old)).length+1) =
        old.drop ((string (copied (string (47::n)) old)).length+1) := by
    rw [string_copied, List.length_append, copied, Nat.add_assoc, List.drop_length_add_append,
      List.drop_drop]
  rw [rebuilt_absolute hhead, openName, copied, List.cons_append, string_slash,
    List.drop_succ_cons, List.drop_zero, List.length_cons, hdrop]

theorem open_find (d : ℕ) :
    doFindDentry fs behind cwd (rebuilt (copied (string (47::n)) old)) = some d ↔
      FirstMatch fs behind (openName old (47::n)) d := by
  have hhead : (rebuilt (copied (string (47::n)) old)).head? = some 47 := by
    rw [rebuilt_absolute (by rw [string_slash]; rfl)]
    rfl
  rw [find_dentry_iff fs behind cwd _ hhead, open_name]

theorem exec_find (d : ℕ) : doFindDentry fs behind cwd (copied (string (47::n)) old) = some d ↔
    FirstMatch fs behind (execName old (47::n)) d := by
  have hhead : (copied (string (47::n)) old).head? = some 47 := by
    rw [string_slash]
    rfl
  rw [find_dentry_iff fs behind cwd _ hhead, execName]

theorem sysOpen_some (slot : ℕ) (hslot : availableFd fd = some slot) :
    sysOpen fs behind cwd fd fp flags mode old (47::n) =
      (doFindDentry fs behind cwd (rebuilt (copied (string (47::n)) old))).map
        (install fd fp flags mode slot) := by
  rw [sysOpen, tarfsOpen, hslot]

theorem doOpenExec_some (slot : ℕ) (hslot : availableFd fd = some slot) :
    doOpenExec fs behind cwd fd fp flags mode old (47::n) =
      (doFindDentry fs behind cwd (copied (string (47::n)) old)).map
        (install fd fp flags mode slot) := by
  rw [doOpenExec, hslot]
  cases doFindDentry fs behind cwd (copied (string (47::n)) old) <;> rfl

end

theorem sameDentry_map (fd : List (Option KernelPtr)) (fp fp' : KernelPtr)
    (flags flags' mode mode' : BitVec 32) (slot slot' : ℕ) (x y : Option ℕ) :
    SameDentry (x.map (install fd fp flags mode slot)) (y.map (install fd fp' flags' mode' slot')) ↔
      ∀ d, x = some d ↔ y = some d := by
  cases x with
  | none =>
    cases y with
    | none => simp [SameDentry]
    | some d =>
      constructor
      · intro h
        exact absurd (h.1.mpr rfl) (by simp)
      · intro h
        exact absurd ((h d).mpr rfl) (by simp)
  | some c =>
    cases y with
    | none =>
      constructor
      · intro h
        exact absurd (h.1.mp rfl) (by simp)
      · intro h
        exact absurd ((h c).mp rfl) (by simp)
    | some d =>
      constructor
      · intro h
        have hcd : c = d := h.2 _ rfl _ rfl
        rw [hcd]
        exact fun _ => Iff.rfl
      · intro h
        have hcd : d = c := Option.some.inj ((h c).mp rfl)
        rw [hcd]
        refine ⟨Iff.rfl,?_⟩
        rintro a ⟨⟩ b ⟨⟩
        rfl

/-- An open and an exec of one absolute path agree exactly when the first dentry
with the sum of the one name is the first with the sum of the other. -/
theorem open_exec_agree_iff (fs : FileSystem) (behind : ℕ → ℕ → Byte) (cwd : List Byte)
    (fd : List (Option KernelPtr)) (fp fp' : KernelPtr) (flags flags' mode mode' : BitVec 32)
    (old old' n : List Byte) (hfree : (availableFd fd).isSome) :
    SameDentry (sysOpen fs behind cwd fd fp flags mode old (47::n))
        (doOpenExec fs behind cwd fd fp' flags' mode' old' (47::n)) ↔
      ∀ d, FirstMatch fs behind (openName old (47::n)) d ↔
        FirstMatch fs behind (execName old' (47::n)) d := by
  obtain ⟨slot,hslot⟩ := Option.isSome_iff_exists.mp hfree
  rw [sysOpen_some fs behind cwd fd fp flags mode old n slot hslot,
    doOpenExec_some fs behind cwd fd fp' flags' mode' old' n slot hslot, sameDentry_map]
  exact forall_congr' (fun d => by rw [open_find, exec_find])

def blank : List Byte := List.replicate 16 0

def noFiles : List (Option KernelPtr) := List.replicate 256 none

def letterNames : List (List Byte) := archiveNames [letterFile 97]

theorem letter_filled : ∃ fs, tarfsInit 2 (imageOf [letterFile 97]) 0 = some fs ∧
    Listed fs (rootInode::decodedInodes 0 1 [letterFile 97]) letterNames := by
  have hv : ∀ e ∈ [letterFile 97], Valid e := by
    simpa using letterFile_valid (by decide)
  obtain ⟨fs,hinit,hf⟩ := init_filled (imageOf [letterFile 97]) 0 [letterFile 97]
    (valid_storable hv) (by decide) (imageOf_holds)
  exact ⟨fs,hinit 2 (by decide),listed_archive 0 [letterFile 97] hf⟩

theorem path_match (fs : FileSystem) (inodes : List Inode) (names : List (List Byte))
    (hl : Listed fs inodes names) (behind : ℕ → ℕ → Byte) (n : List Byte)
    (htext : ∀ b ∈ n, b ≠ 0) (d : ℕ) : FirstMatch fs behind n d ↔
      checkCorrectFile (storedNames behind names n.length) n = some d := by
  have hname : (string (47::n)).drop 1 = n := by
    rw [string_slash, List.drop_succ_cons, List.drop_zero]
    exact List.takeWhile_eq_self_iff.mpr (by simpa using htext)
  rw [← find_dentry hl behind [] n htext, find_dentry_iff fs behind [] (47::n) rfl, hname]

/-- Both lead from the path of a single slash to the root. -/
theorem open_exec_agree_root : ∃ fs, tarfsInit 2 (imageOf [letterFile 97]) 0 = some fs ∧
    SameDentry
      (sysOpen fs (fun _ _ => 0) [47] noFiles (kernelPtr 0x4000) 0 0 blank [47])
      (doOpenExec fs (fun _ _ => 0) [47] noFiles (kernelPtr 0x4000) 0 0 blank [47]) := by
  obtain ⟨fs,hinit,hl⟩ := letter_filled
  refine ⟨fs,hinit,(open_exec_agree_iff fs _ _ _ _ _ _ _ _ _ _ _ [] (by decide)).mpr ?_⟩
  intro d
  rw [show openName blank [47] = [47] by decide, show execName blank [47] = [] by decide,
    path_match fs _ _ hl _ [47] (by decide), path_match fs _ _ hl _ [] (by decide)]
  exact Iff.of_eq (congrArg (· = some d) (by decide))

/-- The file can be executed by its path, but not opened. -/
theorem open_misses_file : ∃ fs, tarfsInit 2 (imageOf [letterFile 97]) 0 = some fs ∧
    sysOpen fs (fun _ _ => 0) [47] noFiles (kernelPtr 0x4000) 0 0 blank [47,97] = none ∧
    ¬ SameDentry
      (sysOpen fs (fun _ _ => 0) [47] noFiles (kernelPtr 0x4000) 0 0 blank [47,97])
      (doOpenExec fs (fun _ _ => 0) [47] noFiles (kernelPtr 0x4000) 0 0 blank [47,97]) := by
  obtain ⟨fs,hinit,hl⟩ := letter_filled
  have hopen : sysOpen fs (fun _ _ => 0) [47] noFiles (kernelPtr 0x4000) 0 0 blank [47,97] =
      none := by
    rw [sysOpen_some fs _ _ _ _ _ _ _ _ 0 (by decide), Option.map_eq_none_iff,
      Option.eq_none_iff_forall_ne_some]
    intro d hd
    rw [open_find, show openName blank [47,97] = [47,97] by decide,
      path_match fs _ _ hl _ _ (by decide)] at hd
    exact absurd hd (by rw [show checkCorrectFile _ _ = none by decide]; exact nofun)
  have hexec : doFindDentry fs (fun _ _ => 0) [47] (copied (string [47,97]) blank) = some 1 := by
    rw [exec_find, show execName blank [47,97] = [97] by decide,
      path_match fs _ _ hl _ _ (by decide)]
    decide
  refine ⟨fs,hinit,hopen,?_⟩
  rw [hopen, doOpenExec_some fs _ _ _ _ _ _ _ _ 0 (by decide), hexec]
  exact fun h => absurd (h.1.mpr rfl) (by simp)

end PreemptiveOS.OpenPaths
