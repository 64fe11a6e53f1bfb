import PreemptiveOS.ExecWrites
import PreemptiveOS.OpenPaths

/-!
# The copies of a path

`getname`, `sys_open` and `do_open_exec` copy the bytes of a path into a page that
is not cleared, and leave out its zero. What the page held before comes behind the
path unless there was a zero at the right place. An exec makes three such copies,
each of the one before. An open makes one and moves it by a byte, so that the
byte behind counts as well.
-/

set_option autoImplicit false

namespace PreemptiveOS.PathCopies
open ByteMemory VirtMmgr KernelObjects Tarfs ExecWrites OpenPaths

structure UserPath where
  name : List Byte
  text : ∀ b ∈ name, b ≠ 0
  short : name.length < 4096

structure Page where
  bytes : List Byte
  size : bytes.length = 4097

def zeroPage : Page := ⟨List.replicate 4097 0,List.length_replicate⟩

def kernelCopy (old : Page) (name : List Byte) : List Byte := copied (string name) old.bytes

def execvePath (first second third : Page) (name : List Byte) : List Byte :=
  string (kernelCopy third (kernelCopy second (kernelCopy first name)))

def openPath (opened : Page) (name : List Byte) : List Byte :=
  string (rebuilt (kernelCopy opened name))

def ExactCopy (old : Page) (name : List Byte) : Prop :=
  ∃ rest, kernelCopy old name = string name++0::rest

structure PathsExact (path : UserPath) (first second third opened : Page) : Prop where
  sysExecve : ExactCopy first path.name
  doExecve : ExactCopy second (kernelCopy first path.name)
  doOpenExec : ExactCopy third (kernelCopy second (kernelCopy first path.name))
  sysOpen : ExactCopy opened path.name
  execPath : execvePath first second third path.name =
    execvePath zeroPage zeroPage zeroPage path.name
  openPath : openPath opened path.name = openPath zeroPage path.name

structure PagesClear (path : UserPath) (first second third opened : Page) : Prop where
  sysExecve : first.bytes.getD path.name.length 0 = 0
  doExecve : second.bytes.getD path.name.length 0 = 0
  doOpenExec : third.bytes.getD path.name.length 0 = 0
  sysOpen : opened.bytes.getD path.name.length 0 = 0
  dot : path.name.head? = some 46 → path.name.length < 5 → opened.bytes.getD 5 0 = 0
  moved : path.name.head? ≠ some 46 → opened.bytes.getD (path.name.length+1) 0 = 0

theorem string_text (name : List Byte) (h : ∀ b ∈ name, b ≠ 0) : string name = name :=
  List.takeWhile_eq_self_iff.mpr (by simpa using h)

theorem string_drop_nil (old : Page) {n : ℕ} (hn : n < 4097) :
    string (old.bytes.drop n) = [] ↔ old.bytes.getD n 0 = 0 := by
  have hlt : n < old.bytes.length := by rw [old.size]; exact hn
  rw [List.drop_eq_getElem_cons hlt, List.getD_eq_getElem _ _ hlt, string, List.takeWhile_cons]
  simp

section
variable (path : UserPath) (old : Page)

theorem kernelCopy_path : kernelCopy old path.name = path.name++old.bytes.drop path.name.length := by
  rw [kernelCopy, string_text path.name path.text, copied]

theorem copy_string :
    string (kernelCopy old path.name) = path.name++string (old.bytes.drop path.name.length) := by
  rw [kernelCopy, string_copied, string_text path.name path.text]

theorem exactCopy_iff (name : List Byte) (hname : string name = path.name) :
    ExactCopy old name ↔ old.bytes.getD path.name.length 0 = 0 := by
  have hlt : path.name.length < old.bytes.length := by
    have hshort := path.short
    rw [old.size]
    omega
  rw [ExactCopy, kernelCopy, hname, copied, List.drop_eq_getElem_cons hlt,
    List.getD_eq_getElem _ _ hlt]
  constructor
  · rintro ⟨rest,hcopy⟩
    exact (List.cons.inj (List.append_cancel_left hcopy)).1
  · intro hzero
    rw [hzero]
    exact ⟨_,rfl⟩

theorem copy_exact (name : List Byte) (hname : string name = path.name)
    (h : old.bytes.getD path.name.length 0 = 0) : string (kernelCopy old name) = path.name := by
  have hshort := path.short
  rw [kernelCopy, string_copied, hname, (string_drop_nil old (by omega)).mpr h, List.append_nil]

theorem starts_with_dot (h : old.bytes.getD path.name.length 0 = 0) :
    startsWithDot (kernelCopy old path.name) = true ↔ path.name.head? = some 46 := by
  have hbyte : ∀ s : List Byte, startsWithDot s = true ↔ s.getD 0 0 = 46 := by
    intro s
    simp only [startsWithDot, myMemcmp, List.range_one, List.map_singleton, List.sum_singleton,
      decide_eq_true_iff, sub_eq_zero, Nat.cast_inj]
    exact BitVec.toNat_inj
  rw [hbyte, kernelCopy_path]
  cases hname : path.name with
  | nil =>
    rw [hname] at h
    rw [List.nil_append, List.length_nil, List.drop_zero]
    exact iff_of_false (fun hdot => absurd (h.symm.trans hdot) (by decide)) (by simp)
  | cons b name =>
    rw [List.cons_append, List.getD_cons_zero, List.head?_cons, Option.some.injEq]

theorem openPath_dot (h : old.bytes.getD path.name.length 0 = 0)
    (hdot : path.name.head? = some 46) : openPath old path.name = [47,98,105,110,47]++
      (path.name.drop 5++if path.name.length < 5 then string (old.bytes.drop 5) else []) := by
  have hshort := path.short
  rw [openPath, rebuilt, if_pos ((starts_with_dot path old h).mpr hdot), copied, kernelCopy_path]
  have hbin : ∀ s : List Byte, string ([47,98,105,110,47]++s) = [47,98,105,110,47]++string s := by
    intro s
    exact List.takeWhile_append_of_pos (by decide)
  rw [hbin, show [47,98,105,110,(47 : Byte)].length = 5 from rfl, List.drop_append, List.drop_drop]
  split_ifs with hlen
  · rw [List.drop_eq_nil_of_le hlen.le, List.nil_append, List.nil_append,
      show path.name.length+(5-path.name.length) = 5 by omega]
  · rw [show 5-path.name.length = 0 by omega, Nat.add_zero, string,
      List.takeWhile_append_of_pos (by simpa using fun b hb => path.text b (List.mem_of_mem_drop hb))]
    exact congrArg _ (congrArg _ ((string_drop_nil old (by omega)).mpr h))

theorem openPath_moved (h : old.bytes.getD path.name.length 0 = 0)
    (hdot : path.name.head? ≠ some 46) : openPath old path.name =
      47::(path.name++string (old.bytes.drop (path.name.length+1))) := by
  have hrebuilt : rebuilt (kernelCopy old path.name) =
      copied (47::path.name) (kernelCopy old path.name) := by
    rw [rebuilt, if_neg (fun hstarts => hdot ((starts_with_dot path old h).mp hstarts)),
      copy_exact path old path.name (string_text _ path.text) h]
  rw [openPath, hrebuilt, copied, List.cons_append, string_slash, kernelCopy_path, List.length_cons,
    List.drop_length_add_append, List.drop_drop, string,
    List.takeWhile_append_of_pos (by simpa using path.text)]
  rfl

end

theorem zeroPage_byte (n : ℕ) : zeroPage.bytes.getD n 0 = 0 := by
  rw [zeroPage, List.getD_eq_getElem?_getD, List.getElem?_replicate]
  split_ifs <;> rfl

theorem openPath_iff {path : UserPath} {opened : Page}
    (h : opened.bytes.getD path.name.length 0 = 0) :
    openPath opened path.name = openPath zeroPage path.name ↔
      (path.name.head? = some 46 → path.name.length < 5 → opened.bytes.getD 5 0 = 0) ∧
      (path.name.head? ≠ some 46 → opened.bytes.getD (path.name.length+1) 0 = 0) := by
  have hshort := path.short
  by_cases hdot : path.name.head? = some 46
  · rw [openPath_dot path opened h hdot, openPath_dot path zeroPage (zeroPage_byte _) hdot,
      (string_drop_nil zeroPage (by decide)).mpr (zeroPage_byte 5)]
    have hequal : ([47,98,105,110,47]++(path.name.drop 5++if path.name.length < 5 then
        string (opened.bytes.drop 5) else []) = [47,98,105,110,47]++(path.name.drop 5++
          if path.name.length < 5 then [] else [])) ↔
        (path.name.length < 5 → opened.bytes.getD 5 0 = 0) := by
      rw [← string_drop_nil opened (by decide)]
      by_cases hlen : path.name.length < 5
      · simp [hlen]
      · simp [hlen]
    rw [hequal]
    exact ⟨fun hshort => ⟨fun _ => hshort,fun hno => absurd hdot hno⟩,fun hboth => hboth.1 hdot⟩
  · rw [openPath_moved path opened h hdot, openPath_moved path zeroPage (zeroPage_byte _) hdot,
      (string_drop_nil zeroPage (by omega)).mpr (zeroPage_byte _), List.cons.injEq,
      List.append_cancel_left_eq, string_drop_nil opened (by omega)]
    exact ⟨fun hnext => ⟨fun hno => absurd hno hdot,fun _ => hnext.2⟩,
      fun hboth => ⟨rfl,hboth.2 hdot⟩⟩

theorem execvePath_exact (path : UserPath) (first second third : Page)
    (hfirst : first.bytes.getD path.name.length 0 = 0)
    (hsecond : second.bytes.getD path.name.length 0 = 0)
    (hthird : third.bytes.getD path.name.length 0 = 0) :
    execvePath first second third path.name = path.name := by
  have hone := copy_exact path first path.name (string_text _ path.text) hfirst
  have htwo := copy_exact path second _ hone hsecond
  exact copy_exact path third _ htwo hthird

/-- The copies are exact where the pages held zeros at a few places. -/
theorem paths_exact_iff (path : UserPath) (first second third opened : Page) :
    PathsExact path first second third opened ↔ PagesClear path first second third opened := by
  have hself := string_text path.name path.text
  constructor
  · intro h
    have hfirst := (exactCopy_iff path first path.name hself).mp h.sysExecve
    have hone := copy_exact path first path.name hself hfirst
    have hsecond := (exactCopy_iff path second _ hone).mp h.doExecve
    have htwo := copy_exact path second _ hone hsecond
    have hopened := (exactCopy_iff path opened path.name hself).mp h.sysOpen
    constructor
    case sysExecve => exact hfirst
    case doExecve => exact hsecond
    case doOpenExec => exact (exactCopy_iff path third _ htwo).mp h.doOpenExec
    case sysOpen => exact hopened
    case dot => exact ((openPath_iff hopened).mp h.openPath).1
    case moved => exact ((openPath_iff hopened).mp h.openPath).2
  · intro h
    have hone := copy_exact path first path.name hself h.sysExecve
    have htwo := copy_exact path second _ hone h.doExecve
    constructor
    case sysExecve => exact (exactCopy_iff path first path.name hself).mpr h.sysExecve
    case doExecve => exact (exactCopy_iff path second _ hone).mpr h.doExecve
    case doOpenExec => exact (exactCopy_iff path third _ htwo).mpr h.doOpenExec
    case sysOpen => exact (exactCopy_iff path opened path.name hself).mpr h.sysOpen
    case execPath =>
      rw [execvePath_exact path first second third h.sysExecve h.doExecve h.doOpenExec,
        execvePath_exact path _ _ _ (zeroPage_byte _) (zeroPage_byte _) (zeroPage_byte _)]
    case openPath => exact (openPath_iff h.sysOpen).mpr ⟨h.dot,h.moved⟩

def shortPath : UserPath := ⟨[47,97],by decide,by decide⟩

def stalePage : Page :=
  ⟨[0,0,98]++List.replicate 4094 0,by rw [List.length_append, List.length_replicate]; rfl⟩

/-- The letter becomes a part of the path. -/
theorem stale_byte_kept : string (kernelCopy stalePage shortPath.name) = [47,97,98] ∧
    ¬ PathsExact shortPath stalePage stalePage stalePage stalePage := by
  constructor
  · rw [copy_string]
    have hdrop : stalePage.bytes.drop shortPath.name.length = 98::List.replicate (4093+1) 0 := rfl
    rw [hdrop, string, List.takeWhile_cons_of_pos (by decide), List.replicate_succ,
      List.takeWhile_cons_of_neg (by decide)]
    rfl
  · intro h
    have hbyte := (exactCopy_iff shortPath stalePage _ (string_text _ shortPath.text)).mp h.sysExecve
    exact absurd (show (98 : Byte) = 0 from hbyte) (by decide)

theorem bytesAt_length (m : Mem) (a n : ℕ) : (bytesAt m a n).length = n := by
  rw [bytesAt, List.length_map, List.length_range]

theorem bytesAt_copied {m : Mem} {a n : ℕ} {bs : List Byte} (hbs : bs.length ≤ n) :
    bytesAt (performAll (copyWrites a 0 bs) m) a n = copied bs (bytesAt m a n) := by
  apply List.ext_getElem
  · rw [copied, List.length_append, List.length_drop, bytesAt_length, bytesAt_length]
    omega
  · intro i hi hi'
    have hlt : i < n := by rwa [bytesAt_length] at hi
    simp only [bytesAt, copied, List.getElem_map, List.getElem_range, List.getElem_append,
      List.getElem_drop]
    rw [copy_performed 0 bs m (by omega), show ((a : ℤ)+0).toNat = a by omega]
    by_cases hin : i < bs.length
    · rw [if_pos (by omega), dif_pos hin, Nat.add_sub_cancel_left, List.getD_eq_getElem _ _ hin]
    · rw [if_neg (by omega), dif_neg hin, Nat.add_sub_cancel' (by omega)]

def pageAt (m : Mem) (a : ℕ) : Page := ⟨bytesAt m a 4097,bytesAt_length m a 4097⟩

theorem getname_copy (s : Machine) (path : UserPath) :
    bytesAt (getname s path.name).1.mem (getname s path.name).2.val.toNat 4097 =
      kernelCopy (pageAt s.mem (getname s path.name).2.val.toNat) path.name := by
  have hshort := path.short
  have hlen : (BitVec.ofNat 32 path.name.length).toInt.toNat = path.name.length := by
    rw [BitVec.toInt_eq_toNat_cond, BitVec.toNat_ofNat]
    split_ifs <;> omega
  have hpage : (getname s path.name).2 = (object s).2 := rfl
  rw [getname_writes, hpage, getnameWrites, hlen, List.take_length, kernelCopy,
    string_text path.name path.text, bytesAt_copied (by omega), pageAt]

end PreemptiveOS.PathCopies
