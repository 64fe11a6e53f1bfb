import PreemptiveOS.Supply

/-!
# The writes of an exec to its new pages

The writes that an exec makes to pages it has just taken, one byte after the
other, with the place they have in the page. The header of the executable stays
inside. The program headers, the path and the parameters do so only if they are
small, and clearing a page writes one byte behind it.
-/

set_option autoImplicit false

namespace PreemptiveOS.ExecWrites
open ByteMemory VirtMmgr Vmas KernelObjects PageFaults Exec ExecLeaves Supply

structure Write where
  page : ℕ
  offset : ℤ
  byte : Byte

def Write.Inside (w : Write) : Prop := 0 ≤ w.offset ∧ w.offset < 4096

def perform (m : Mem) (w : Write) : Mem := poke m (w.page+w.offset).toNat w.byte

def performAll (ws : List Write) (m : Mem) : Mem := ws.foldl perform m

theorem performAll_append (ws ws' : List Write) (m : Mem) :
    performAll (ws++ws') m = performAll ws' (performAll ws m) := List.foldl_append

def copyWrites (page : ℕ) : ℤ → List Byte → List Write
  | _, [] => []
  | o, b::bs => ⟨page,o,b⟩::copyWrites page (o+1) bs

theorem copy_append (page : ℕ) (o : ℤ) (bs cs : List Byte) :
    copyWrites page o (bs++cs) = copyWrites page o bs++copyWrites page (o+bs.length) cs := by
  induction bs generalizing o with
  | nil => simp [copyWrites]
  | cons b bs ih =>
    rw [List.cons_append, copyWrites, ih, copyWrites, List.cons_append, List.length_cons]
    push_cast
    rw [add_assoc, add_comm (1 : ℤ)]

theorem copy_performed {page : ℕ} (o : ℤ) (bs : List Byte) (m : Mem) (ho : 0 ≤ page+o) (x : ℕ) :
    performAll (copyWrites page o bs) m x =
      if (page+o).toNat ≤ x ∧ x < (page+o).toNat+bs.length then bs.getD (x-(page+o).toNat) 0
      else m x := by
  induction bs generalizing o m with
  | nil =>
    rw [if_neg (by simp)]
    rfl
  | cons b bs ih =>
    have hnext : (page+(o+1)).toNat = (page+o).toNat+1 := by omega
    rw [copyWrites, performAll, List.foldl_cons]
    refine (ih (o+1) (perform m ⟨page,o,b⟩) (by omega)).trans ?_
    rw [hnext, List.length_cons, perform, poke]
    dsimp only
    by_cases hx : x = (page+o).toNat
    · rw [if_neg (by omega), if_pos hx, if_pos (by omega), hx, Nat.sub_self, List.getD_cons_zero]
    · rw [if_neg hx]
      by_cases hin : (page+o).toNat+1 ≤ x ∧ x < (page+o).toNat+1+bs.length
      · rw [if_pos hin, if_pos (by omega),
          show x-(page+o).toNat = x-((page+o).toNat+1)+1 by omega, List.getD_cons_succ]
      · rw [if_neg hin, if_neg (by omega)]

theorem copy_below (page : ℕ) (o : ℤ) {bs : List Byte} (hbs : bs ≠ []) (size : ℤ) :
    (∀ w ∈ copyWrites page o bs, 0 ≤ w.offset ∧ w.offset < size) ↔ 0 ≤ o ∧ o+bs.length ≤ size := by
  induction bs generalizing o with
  | nil => exact absurd rfl hbs
  | cons b bs ih =>
    rw [copyWrites, List.forall_mem_cons, List.length_cons]
    dsimp only
    cases bs with
    | nil =>
      simp only [copyWrites, List.not_mem_nil, List.length_nil]
      push_cast
      constructor
      · intro h
        omega
      · intro h
        exact ⟨by omega,fun w hw => absurd hw id⟩
    | cons c bs =>
      rw [ih (o+1) (List.cons_ne_nil c bs)]
      push_cast [List.length_cons]
      omega

theorem copy_inside (page : ℕ) (o : ℤ) {bs : List Byte} (hbs : bs ≠ []) :
    (∀ w ∈ copyWrites page o bs, w.Inside) ↔ 0 ≤ o ∧ o+bs.length ≤ 4096 :=
  copy_below page o hbs 4096

theorem copy_inside_start (page : ℕ) (bs : List Byte) :
    (∀ w ∈ copyWrites page 0 bs, w.Inside) ↔ bs.length ≤ 4096 := by
  cases bs with
  | nil => simp [copyWrites]
  | cons b bs =>
    rw [copy_inside page 0 (List.cons_ne_nil b bs)]
    omega

theorem range_getD {f : ℕ → Byte} {n j : ℕ} (hj : j < n) :
    ((List.range n).map f).getD j 0 = f j := by
  rw [List.getD_eq_getElem?_getD, List.getElem?_map, List.getElem?_range hj]
  rfl

def readWrites (page : ℕ) (file : FileData) (size offset : Word) : List Write :=
  copyWrites page 0 ((List.range ((tarfsReadSize file size offset).setWidth 32).toInt.toNat).map
    (fun i => file.bytes (offset.toNat+i)))

theorem read_performed (page : ℕ) (file : FileData) (size offset : Word) (m : Mem) :
    performAll (readWrites page file size offset) m = (vfsRead m page file size offset).1 := by
  funext x
  rw [readWrites, copy_performed 0 _ m (by omega) x, List.length_map, List.length_range]
  dsimp only [vfsRead]
  rw [show ((page : ℤ)+0).toNat = page by omega]
  split_ifs with hx
  · exact range_getD (by omega)
  · rfl

theorem read_inside (page : ℕ) (file : FileData) {size : Word} (offset : Word) :
    (∀ w ∈ readWrites page file size offset, w.Inside) ↔
      ((tarfsReadSize file size offset).setWidth 32).toInt ≤ 4096 := by
  rw [readWrites, copy_inside_start, List.length_map, List.length_range]
  omega

def ehdrWrites (page : ℕ) (file : FileData) : List Write := readWrites page file 64 0

def phdrWrites (page : ℕ) (file : FileData) (phnum : BitVec 16) (phoff : Word) : List Write :=
  readWrites page file (56*phnum.setWidth 64) phoff

theorem object_mem (s : Machine) : (object s).1.mem = s.mem := rfl

theorem loadHeader_mem (s : Machine) (file : FileData) (size offset : Word) :
    (loadHeader s file size offset).1.mem =
      performAll (readWrites (object s).2.val.toNat file size offset) s.mem := by
  rw [read_performed]
  simp only [loadHeader]
  split_ifs <;> rfl

theorem loadElfEhdr_writes (s : Machine) (file : FileData) :
    (loadElfEhdr s file).1.mem = performAll (ehdrWrites (object s).2.val.toNat file) s.mem :=
  loadHeader_mem s file 64 0

theorem loadElfPhdr_writes (s : Machine) (ehdr : KernelPtr) (file : FileData) :
    (loadElfPhdr s ehdr file).1.mem = performAll (phdrWrites (object s).2.val.toNat file
      (ePhnum s.mem ehdr) (ePhoff s.mem ehdr)) s.mem :=
  loadHeader_mem s file _ _

def getname (s : Machine) (filename : List Byte) : Machine × KernelPtr :=
  let path := (object s).2
  let n := (BitVec.ofNat 32 filename.length).toInt.toNat
  let m := fun x => if path.val.toNat ≤ x ∧ x < path.val.toNat+n then
    filename.getD (x-path.val.toNat) 0 else s.mem x
  ({ (object s).1 with mem := m },path)

def getnameWrites (page : ℕ) (filename : List Byte) : List Write :=
  copyWrites page 0 (filename.take (BitVec.ofNat 32 filename.length).toInt.toNat)

theorem strlen_le (n : ℕ) : (BitVec.ofNat 32 n).toInt.toNat ≤ n := by
  have hmod := Nat.mod_le n (2^32)
  rw [BitVec.toInt_eq_toNat_cond, BitVec.toNat_ofNat]
  split_ifs <;> omega

theorem getname_writes (s : Machine) (filename : List Byte) :
    (getname s filename).1.mem =
      performAll (getnameWrites (object s).2.val.toNat filename) s.mem := by
  funext x
  have hlen := strlen_le filename.length
  dsimp only [getname]
  rw [getnameWrites, copy_performed 0 _ s.mem (by omega) x, List.length_take,
    Nat.min_eq_left hlen, show (((object s).2.val.toNat : ℤ)+0).toNat = (object s).2.val.toNat
      by omega]
  split_ifs with hx
  · rw [List.getD_eq_getElem?_getD, List.getD_eq_getElem?_getD,
      List.getElem?_take_of_lt (by omega)]
  · rfl

theorem getname_inside (page : ℕ) (filename : List Byte) :
    (∀ w ∈ getnameWrites page filename, w.Inside) ↔
      (BitVec.ofNat 32 filename.length).toInt ≤ 4096 := by
  have hlen := strlen_le filename.length
  rw [getnameWrites, copy_inside_start, List.length_take, Nat.min_eq_left hlen]
  omega

def memsetWrites (page : ℕ) : List Write := copyWrites page 0 (List.replicate 4097 0)

theorem memset_performed {page : ℕ} (hp : 0 < page) (m : Mem) :
    performAll (memsetWrites page) m = clearTable m page := by
  funext x
  rw [memsetWrites, copy_performed 0 _ m (by omega) x, clearTable_eq m hp, poke, fill,
    List.length_replicate, show ((page : ℤ)+0).toNat = page by omega]
  by_cases hx : page ≤ x ∧ x < page+4097
  · have hzero : (List.replicate 4097 (0 : Byte)).getD (x-page) 0 = 0 := by
      rw [List.getD_eq_getElem?_getD, List.getElem?_replicate]
      split_ifs <;> rfl
    rw [if_pos hx, hzero]
    by_cases hend : x = page+4096
    · rw [if_pos hend]
    · rw [if_neg hend, if_pos (by omega)]
  · rw [if_neg hx, if_neg (by omega), if_neg (by omega)]

theorem memset_outside (page : ℕ) : ¬ ∀ w ∈ memsetWrites page, w.Inside := by
  rw [memsetWrites, copy_inside_start, List.length_replicate]
  decide

def wordBytes (w : Word) : List Byte := (List.range 8).map (fun k => w.extractLsb' (8*k) 8)

theorem wordBytes_length (w : Word) : (wordBytes w).length = 8 := by
  rw [wordBytes, List.length_map, List.length_range]

def pointerWrites (ptrs : ℕ) (i : ℤ) (w : Word) : List Write := copyWrites ptrs (8*i) (wordBytes w)

theorem pointer_performed {ptrs : ℕ} {i : ℤ} (w : Word) (m : Mem) (hi : 0 ≤ ptrs+8*i) :
    performAll (pointerWrites ptrs i w) m = putPointer m ptrs i w := by
  funext x
  rw [pointerWrites, copy_performed (8*i) _ m hi x, wordBytes_length, putPointer, store]
  split_ifs with hx
  · exact range_getD (by omega)
  · rfl

theorem pointer_inside (ptrs : ℕ) (i : ℤ) (v : Word) :
    (∀ w ∈ pointerWrites ptrs i v, w.Inside) ↔ 0 ≤ i ∧ i < 512 := by
  have hne : wordBytes v ≠ [] := List.ne_nil_of_length_eq_add_one (wordBytes_length v)
  rw [pointerWrites, copy_inside ptrs (8*i) hne, wordBytes_length]
  omega

theorem string_performed (page o : ℕ) (str : List Byte) (m : Mem) :
    performAll (copyWrites page o (str++[0])) m = putString m (page+o) str := by
  funext x
  rw [copy_performed o _ m (by omega) x, putString, List.length_append,
    show ((page : ℤ)+o).toNat = page+o by omega]
  congr 1
  rw [List.getD_eq_getElem?_getD, List.getD_eq_getElem?_getD, List.getElem?_append]
  split_ifs with hlt
  · rfl
  · rw [List.getElem?_eq_none (not_lt.mp hlt)]
    cases x-(page+o)-str.length <;> rfl

theorem string_inside (page o : ℕ) (str : List Byte) :
    (∀ w ∈ copyWrites page o (str++[0]), w.Inside) ↔ o+(str.length+1) ≤ 4096 := by
  rw [copy_inside page o (List.append_ne_nil_of_right_ne_nil str (List.cons_ne_nil 0 []))]
  simp only [List.length_append, List.length_singleton]
  omega

def stringsWrites (ptrs strings : ℕ) : List (List Byte) → ℤ → Word → ℕ → List Write
  | [], _, _, _ => []
  | str::rest, i, userPtr, o =>
    pointerWrites ptrs (i-1) userPtr++copyWrites strings o (str++[0])++
      stringsWrites ptrs strings rest (i-1) (userPtr+BitVec.ofNat 64 (str.length+1))
        (o+(str.length+1))

theorem strings_performed {ptrs : ℕ} {strings : ℕ} {strs : List (List Byte)} (i : ℤ) (userPtr : Word)
    (o : ℕ) (m : Mem) (hi : 0 ≤ ptrs+8*(i-strs.length)) :
    copyStrings ptrs strs i userPtr (strings+o) m =
      (performAll (stringsWrites ptrs strings strs i userPtr o) m,
        strings+(o+stringBytes strs)) := by
  induction strs generalizing i userPtr o m with
  | nil => rfl
  | cons str rest ih =>
    rw [List.length_cons, Nat.cast_succ] at hi
    rw [copyStrings, stringsWrites, performAll_append, performAll_append,
      pointer_performed userPtr m (by omega), string_performed, Nat.add_assoc,
      ih (i-1) _ (o+(str.length+1)) _ (by omega), stringBytes_cons, Nat.add_assoc]

theorem strings_inside {ptrs strings : ℕ} {strs : List (List Byte)} (i : ℤ) (userPtr : Word)
    (o : ℕ) (hi : i ≤ 512) :
    (∀ w ∈ stringsWrites ptrs strings strs i userPtr o, w.Inside) ↔
      strs = [] ∨ strs.length ≤ i ∧ o+stringBytes strs ≤ 4096 := by
  induction strs generalizing i userPtr o with
  | nil => simp [stringsWrites]
  | cons str rest ih =>
    rw [stringsWrites, List.forall_mem_append, List.forall_mem_append, pointer_inside,
      string_inside, ih (i-1) _ _ (by omega), stringBytes_cons, List.length_cons]
    -- with no string behind it only this one counts
    cases rest with
    | nil =>
      simp [stringBytes]
      omega
    | cons next rest =>
      simp only [List.cons_ne_nil, false_or]
      push_cast
      omega

def paramsWrites (ptrs strings : ℕ) (strs : List (List Byte)) (maxCopy : ℤ) (o : ℕ) : List Write :=
  pointerWrites ptrs (maxCopy-1) 0++
    stringsWrites ptrs strings strs.reverse (maxCopy-1)
      (pageRoundUp stackStart+BitVec.ofNat 64 ((strings+o)%4096)) o

theorem params_performed (ptrs strings : ℕ) (strs : List (List Byte)) (maxCopy : ℤ) (o : ℕ)
    (m : Mem) (hroom : 0 ≤ ptrs+8*(maxCopy-1-strs.length)) :
    copyParamsToUserspace m strs maxCopy ptrs (strings+o) =
      (performAll (paramsWrites ptrs strings strs maxCopy o) m,strings+(o+stringBytes strs)) := by
  rw [copyParamsToUserspace, paramsWrites, performAll_append,
    pointer_performed 0 m (by omega),
    strings_performed _ _ _ _ (by rw [List.length_reverse]; exact hroom),
    stringBytes_reverse]

theorem params_inside {ptrs strings : ℕ} {strs : List (List Byte)} {maxCopy : ℤ} {o : ℕ}
    (hmax : maxCopy ≤ 512) :
    (∀ w ∈ paramsWrites ptrs strings strs maxCopy o, w.Inside) ↔
      strs.length+1 ≤ maxCopy ∧ (strs = [] ∨ o+stringBytes strs ≤ 4096) := by
  rw [paramsWrites, List.forall_mem_append, pointer_inside,
    strings_inside _ _ _ (by omega), List.reverse_eq_nil_iff, List.length_reverse,
    stringBytes_reverse]
  cases strs with
  | nil =>
    simp
    omega
  | cons str rest =>
    simp only [List.cons_ne_nil, false_or]
    omega

def parameterWrites (ptrs strings : ℕ) (argv envp : List (List Byte)) : List Write :=
  paramsWrites ptrs strings envp 512 0++
    paramsWrites ptrs strings argv (512-envp.length-1) (stringBytes envp)++
    pointerWrites ptrs (512-(envp.length+argv.length+2)-1) (BitVec.ofNat 64 argv.length)

theorem parameters_performed {ptrs : ℕ} {strings : ℕ} {argv envp : List (List Byte)} {m : Mem}
    (hroom : 8*(argv.length+envp.length) ≤ ptrs) :
    writeParams m argv envp ptrs strings =
      performAll (parameterWrites ptrs strings argv envp) m := by
  have henv := params_performed ptrs strings envp 512 0 m (by omega)
  rw [Nat.add_zero, Nat.zero_add] at henv
  have harg := params_performed ptrs strings argv (512-envp.length-1) (stringBytes envp)
    (performAll (paramsWrites ptrs strings envp 512 0) m) (by omega)
  simp only [writeParams]
  rw [henv, harg, parameterWrites, performAll_append, performAll_append,
    pointer_performed _ _ (by omega)]

theorem parameters_inside (ptrs strings : ℕ) (argv envp : List (List Byte)) :
    (∀ w ∈ parameterWrites ptrs strings argv envp, w.Inside) ↔ ParamsFit argv envp := by
  have hempty : ∀ strs : List (List Byte), strs = [] → stringBytes strs = 0 := by
    intro strs hs
    rw [hs]
    rfl
  have harg := hempty argv
  have henv := hempty envp
  rw [parameterWrites, List.forall_mem_append, List.forall_mem_append,
    params_inside le_rfl, params_inside (by omega), pointer_inside, ParamsFit]
  constructor
  · intro h
    refine ⟨by omega,?_⟩
    rcases h.1.2.2 with hnil | hbytes
    · rw [harg hnil]
      rcases h.1.1.2 with hnil' | hbytes'
      · rw [henv hnil']
        decide
      · omega
    · omega
  · intro h
    omega

def stackWrites (ptrs strings : ℕ) (argv envp : List (List Byte)) : List Write :=
  memsetWrites ptrs++memsetWrites strings++parameterWrites ptrs strings argv envp

theorem stackFrames_writes (s : Machine) (argv envp : List (List Byte))
    (hroom : argv.length+envp.length < 2^60) :
    (stackFrames s argv envp).mem = performAll (stackWrites
      (zeroedObject (object s).1).2.val.toNat
      (zeroedObject (zeroedObject (object s).1).1).2.val.toNat argv envp) s.mem := by
  have hptrs := kernelPtr_above (zeroedObject (object s).1).2
  have hstrings := kernelPtr_above (zeroedObject (zeroedObject (object s).1).1).2
  rw [stackWrites, performAll_append, performAll_append, memset_performed (by omega),
    memset_performed (by omega), ← parameters_performed (by omega)]
  simp only [stackFrames, zeroedObject, zeroed, object_mem]

theorem stack_outside (ptrs strings : ℕ) (argv envp : List (List Byte)) :
    ¬ ∀ w ∈ stackWrites ptrs strings argv envp, w.Inside := by
  intro h
  rw [stackWrites, List.forall_mem_append, List.forall_mem_append] at h
  exact memset_outside ptrs h.1.1

theorem ehdr_inside (page : ℕ) (file : FileData) : ∀ w ∈ ehdrWrites page file, w.Inside := by
  have hle : (tarfsReadSize file 64 0).toNat ≤ 64 := by
    rw [tarfsReadSize]
    split_ifs with hsize
    · rw [BitVec.le_def] at hsize
      rw [sub_zero]
      exact hsize
    · exact le_rfl
  rw [ehdrWrites, read_inside, BitVec.toInt_eq_toNat_cond, BitVec.toNat_setWidth]
  split_ifs <;> omega

/-- The kernel when `load_elf_binary` is called. -/
def loading (k : Kernel) (args : ExecArgs) : Kernel :=
  let k₁ := (beforeRoot k args).1
  { k₁ with machine := (copyPageTables k₁.machine k₁.machine.pml4 4).1 }

/-- The program headers are read only behind a valid header, whose count and offset they use. -/
def loadWrites (s : Machine) (file : FileData) : List Write :=
  let s₁ := (loadElfEhdr s file).1
  ehdrWrites (object s).2.val.toNat file++
    match (loadElfEhdr s file).2 with
    | none => []
    | some ehdr =>
      if checkElfFileValidity s₁.mem ehdr then
        phdrWrites (object s₁).2.val.toNat file (ePhnum s₁.mem ehdr) (ePhoff s₁.mem ehdr)
      else []

def doStackVmaWrites (s : Machine) (args : ExecArgs) : List Write :=
  stackWrites (zeroedObject (object s).1).2.val.toNat
    (zeroedObject (zeroedObject (object s).1).1).2.val.toNat args.argv args.envp

def heapAndStackWrites (s : Machine) (vmas : List Vma) (args : ExecArgs) : List Write :=
  match (doHeapVma s vmas).2 with
  | .ok _ => doStackVmaWrites (doHeapVma s vmas).1 args
  | .failed _ => []
  | .wild => []

def doExecveWrites (files : KernelPtr → FileData) (k : Kernel) (args : ExecArgs) : List Write :=
  match (beforeRoot k args).2 with
  | none => []
  | some file =>
    let loaded := loadElfBinary files (loading k args) file
    loadWrites (loading k args).machine (files file)++
      match loaded.2 with
      | .ok vmas => heapAndStackWrites loaded.1.machine vmas args
      | .failed _ => []
      | .wild => []

/-- The bytes from an address up to the first zero, as many as an `int` can count. -/
def stringAt (m : Mem) (a : ℕ) : List Byte :=
  ((List.range (2^31)).map (fun i => m (a+i))).takeWhile (· ≠ 0)

/-- The string that `do_execve` copies again: the first copy has no zero behind it. -/
def copiedName (s : Machine) (filename : List Byte) : List Byte :=
  stringAt (getname s filename).1.mem (getname s filename).2.val.toNat

/-- The kernel with the path in both of its pages. The second page is not taken
yet, since `doExecve` takes it. -/
def named (k : Kernel) (filename : List Byte) : Kernel :=
  let s₁ := (getname k.machine filename).1
  { k with machine := { s₁ with mem := (getname s₁ (copiedName k.machine filename)).1.mem } }

def sysExecveWrites (files : KernelPtr → FileData) (k : Kernel) (filename : List Byte)
    (args : ExecArgs) : List Write :=
  let s₁ := (getname k.machine filename).1
  getnameWrites (object k.machine).2.val.toNat filename++
    getnameWrites (object s₁).2.val.toNat (copiedName k.machine filename)++
    doExecveWrites files (named k filename) args

/-- The program headers that the header of the file asks for fit in a page. -/
def HeadersFit (s : Machine) (file : FileData) : Prop :=
  let s₁ := (loadElfEhdr s file).1
  ∀ ehdr, (loadElfEhdr s file).2 = some ehdr → checkElfFileValidity s₁.mem ehdr = true →
    ((tarfsReadSize file (56*(ePhnum s₁.mem ehdr).setWidth 64)
      (ePhoff s₁.mem ehdr)).setWidth 32).toInt ≤ 4096

/-- The segments and the heap have their VMAs, and the stack comes next. -/
def StackReached (files : KernelPtr → FileData) (k : Kernel) (args : ExecArgs)
    (file : KernelPtr) : Prop :=
  ∃ vmas vmas', (loadElfBinary files (loading k args) file).2 = .ok vmas ∧
    (doHeapVma (loadElfBinary files (loading k args) file).1.machine vmas).2 = .ok vmas'

structure LoadFits (files : KernelPtr → FileData) (k : Kernel) (args : ExecArgs) : Prop where
  headers : ∀ file, (beforeRoot k args).2 = some file →
    HeadersFit (loading k args).machine (files file)
  stack : ∀ file, (beforeRoot k args).2 = some file → ¬ StackReached files k args file

theorem load_inside (s : Machine) (file : FileData) :
    (∀ w ∈ loadWrites s file, w.Inside) ↔ HeadersFit s file := by
  rw [loadWrites, List.forall_mem_append, HeadersFit]
  cases hehdr : (loadElfEhdr s file).2 with
  | none =>
    simp only [List.not_mem_nil, false_imp_iff, implies_true, and_true, reduceCtorEq, iff_true]
    exact ehdr_inside _ file
  | some ehdr =>
    dsimp only
    split_ifs with hvalid
    · rw [phdrWrites, read_inside]
      constructor
      · rintro ⟨_,hsize⟩ ehdr' ⟨⟩ _
        exact hsize
      · exact fun h => ⟨ehdr_inside _ file,h ehdr rfl hvalid⟩
    · constructor
      · rintro _ ehdr' ⟨⟩ hvalid'
        exact absurd hvalid' hvalid
      · exact fun _ => ⟨ehdr_inside _ file,by simp⟩

theorem heapAndStack_inside (s : Machine) (vmas : List Vma) (args : ExecArgs) :
    (∀ w ∈ heapAndStackWrites s vmas args, w.Inside) ↔
      ∀ vmas', (doHeapVma s vmas).2 ≠ .ok vmas' := by
  rw [heapAndStackWrites]
  cases hheap : (doHeapVma s vmas).2 with
  | ok vmas' =>
    have hout : ¬ ∀ w ∈ doStackVmaWrites (doHeapVma s vmas).1 args, w.Inside :=
      stack_outside _ _ args.argv args.envp
    exact ⟨fun h => absurd h hout,fun h => absurd rfl (h vmas')⟩
  | failed vmas' => simp
  | wild => simp

theorem doExecve_inside (files : KernelPtr → FileData) (k : Kernel) (args : ExecArgs) :
    (∀ w ∈ doExecveWrites files k args, w.Inside) ↔ LoadFits files k args := by
  rw [doExecveWrites]
  cases hfile : (beforeRoot k args).2 with
  | none =>
    have hnone : ∀ file, (beforeRoot k args).2 ≠ some file := by simp [hfile]
    exact ⟨fun _ => ⟨fun file hf => absurd hf (hnone file),fun file hf => absurd hf (hnone file)⟩,
      by simp⟩
  | some file =>
    dsimp only
    rw [List.forall_mem_append, load_inside]
    have hstack : (∀ w ∈ (match (loadElfBinary files (loading k args) file).2 with
        | .ok vmas => heapAndStackWrites (loadElfBinary files (loading k args) file).1.machine vmas
            args
        | .failed _ => []
        | .wild => []), w.Inside) ↔ ¬ StackReached files k args file := by
      rw [StackReached]
      cases (loadElfBinary files (loading k args) file).2 with
      | ok vmas =>
        rw [heapAndStack_inside]
        simp
      | failed vmas => simp
      | wild => simp
    rw [hstack]
    constructor
    · rintro ⟨hheaders,hnot⟩
      constructor
      case headers =>
        intro file' hf
        cases hfile.symm.trans hf
        exact hheaders
      case stack =>
        intro file' hf
        cases hfile.symm.trans hf
        exact hnot
    · exact fun h => ⟨h.headers file hfile,h.stack file hfile⟩

theorem exec_reaches_stack {files : KernelPtr → FileData} {k : Kernel} {args : ExecArgs}
    {img : Image} (himg : doExecve files k args = some img) (hok : img.ok = true) :
    ¬ LoadFits files k args := by
  intro h
  simp only [doExecve] at himg
  cases hfile : (beforeRoot k args).2 with
  | none => simp [hfile] at himg
  | some file =>
    refine h.stack file hfile ?_
    have hload : loadElfBinary files { (beforeRoot k args).1 with
        machine := (copyPageTables (beforeRoot k args).1.machine
          (beforeRoot k args).1.machine.pml4 4).1 } file =
        loadElfBinary files (loading k args) file := rfl
    simp only [hfile, hload] at himg
    cases hloaded : (loadElfBinary files (loading k args) file).2 with
    | failed vmas =>
      simp only [hloaded, image, Option.some.injEq] at himg
      rw [← himg] at hok
      cases hok
    | wild => simp [hloaded, image] at himg
    | ok vmas =>
      simp only [hloaded, heapAndStack] at himg
      cases hheap : (doHeapVma (loadElfBinary files (loading k args) file).1.machine vmas).2 with
      | ok vmas' => exact ⟨vmas,vmas',hloaded,hheap⟩
      | failed vmas' =>
        simp only [hheap, image, Option.some.injEq] at himg
        rw [← himg] at hok
        cases hok
      | wild => simp [hheap, image] at himg

/-- An exec stays inside its pages if the path and the program headers are
small and it fails before the stack: an exec that succeeds never does. The
parameters alone stay inside if they are few and short. -/
theorem exec_inside_iff (files : KernelPtr → FileData) (k : Kernel) (filename : List Byte)
    (args : ExecArgs) :
    ((∀ w ∈ sysExecveWrites files k filename args, w.Inside) ↔
      (BitVec.ofNat 32 filename.length).toInt ≤ 4096 ∧
      (BitVec.ofNat 32 (copiedName k.machine filename).length).toInt ≤ 4096 ∧
      LoadFits files (named k filename) args) ∧
    (∀ img, doExecve files (named k filename) args = some img → img.ok = true →
      ¬ ∀ w ∈ sysExecveWrites files k filename args, w.Inside) ∧
    ∀ ptrs strings, (∀ w ∈ parameterWrites ptrs strings args.argv args.envp, w.Inside) ↔
      ParamsFit args.argv args.envp := by
  have hiff : (∀ w ∈ sysExecveWrites files k filename args, w.Inside) ↔
      (BitVec.ofNat 32 filename.length).toInt ≤ 4096 ∧
      (BitVec.ofNat 32 (copiedName k.machine filename).length).toInt ≤ 4096 ∧
      LoadFits files (named k filename) args := by
    rw [sysExecveWrites, List.forall_mem_append, List.forall_mem_append, getname_inside,
      getname_inside, doExecve_inside, and_assoc]
  refine ⟨hiff,fun img himg hok hinside => ?_,
    fun ptrs strings => parameters_inside ptrs strings args.argv args.envp⟩
  exact exec_reaches_stack himg hok (hiff.mp hinside).2.2

/-- An executable with one segment and no parameters, and a path of 4097 bytes. -/
theorem exec_overruns :
    ¬ (∀ w ∈ doExecveWrites (fun _ => tinyElf) firstKernel plainArgs, w.Inside) ∧
    ¬ (∀ w ∈ sysExecveWrites (fun _ => tinyElf) firstKernel (List.replicate 4097 97) plainArgs,
      w.Inside) := by
  constructor
  · obtain ⟨img,_,h⟩ := first_image
    rw [doExecve_inside]
    exact exec_reaches_stack h.made h.done
  · intro h
    rw [sysExecveWrites, List.forall_mem_append, List.forall_mem_append, getname_inside,
      List.length_replicate] at h
    exact absurd h.1.1 (by decide)

end PreemptiveOS.ExecWrites
