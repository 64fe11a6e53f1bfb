import PreemptiveOS.Exec
import PreemptiveOS.Fork

/-!
# What an exec does to every process

Everything up to the two mappings of an exec is work on frames taken for it,
except that the old command line of the process is cleared where it lies. So
the entries of every older root stay, and the new root has the two pages of
the arguments and no other.
-/

set_option autoImplicit false

namespace PreemptiveOS.ExecLeaves
open ByteMemory PhysMmgr TableForest VirtMmgr PageTree PageRecords FreshFrames Ownership
open DataFrames Vmas KernelObjects Fork PageFaults Exec

structure HeadersFit (file : FileData) : Prop where
  whole : 64 ≤ file.size.toInt
  fits : ((tarfsReadSize file (56*(file.bytes 57 ++ file.bytes 56 : BitVec 16).setWidth 64)
    (load file.bytes 32)).setWidth 32).toInt ≤ 4096

def stringBytes (strs : List (List Byte)) : ℕ := (strs.map (fun str => str.length+1)).sum

theorem stringBytes_cons (str : List Byte) (rest : List (List Byte)) :
    stringBytes (str::rest) = str.length+1+stringBytes rest := rfl

theorem stringBytes_reverse (strs : List (List Byte)) :
    stringBytes strs.reverse = stringBytes strs := by
  rw [stringBytes, List.map_reverse, List.sum_reverse]
  rfl

def ParamsFit (argv envp : List (List Byte)) : Prop :=
  argv.length+envp.length+3 ≤ 512 ∧ stringBytes argv+stringBytes envp ≤ 4096

variable {s s' : Machine}

theorem fresh_written (margin : ℕ) (h : Fresh margin s s') {n : Word} (hu : Unused s.pages n)
    (ht : ¬ Unused s'.pages n) (m' : Mem) (hw : WritesFrame (frameOf n) s'.mem m') :
    Fresh margin s { s' with mem := m' } := by
  refine ⟨h.addresses,h.root,h.unused,?_⟩
  intro u hfar j
  have hne : u ≠ frameOf n := (hfar n hu).resolve_left ht 0 (Nat.zero_le _)
  change tables m' u j = _
  rw [writesFrame_tables hw hne j, h.same u hfar]

theorem work_release (s : Machine) (p : KernelPtr) : Work 1 s (release s p) := by
  have hsame : FramesOk s.pages → release s p = s := by
    intro hf
    rw [release, free_alias p hf.window]
  refine ⟨le_rfl,?_,?_⟩
  · intro hf _
    rw [hsame hf]
    exact fresh_refl 1 s
  · intro hf
    rw [hsame hf]
    exact later_refl s.pages

theorem work_written (s : Machine) (m' : Mem)
    (hw : Aligned (alloc s).2 → WritesFrame (frameOf (alloc s).2) s.mem m') :
    Work 1 s { (alloc s).1 with mem := m' } := by
  have ha := alloc_shortages s
  refine ⟨ha.1,?_,keeps_alloc s m'⟩
  intro hf hok
  have hne := ha.2 hok
  have hu : Unused s.pages (alloc s).2 := alloc_unused s.pages hne
  exact fresh_written 1 ((work_alloc 1 s).fresh hf hok) hu (alloc_taken hf hne) m'
    (hw (unused_window s.pages hf _ hu).1)

variable {file : FileData} {offset size : Word}

theorem vfsRead_written (m : Mem) (k : ℕ)
    (hn : ((tarfsReadSize file size offset).setWidth 32).toInt ≤ 4096) :
    WritesFrame k m (vfsRead m (4096*k) file size offset).1 := by
  intro x hx
  have hlt : ¬ (4096*k ≤ x ∧
      x < 4096*k+((tarfsReadSize file size offset).setWidth 32).toInt.toNat) := by omega
  exact if_neg hlt

theorem work_loadHeader (hn : ((tarfsReadSize file size offset).setWidth 32).toInt ≤ 4096) :
    Work 1 s (loadHeader s file size offset).1 := by
  have hread : Work 1 s { (alloc s).1 with
      mem := (vfsRead s.mem (kernelAddr (alloc s).2) file size offset).1 } := by
    apply work_written
    intro hal
    rw [kernelAddr_aligned _ hal]
    exact vfsRead_written s.mem _ hn
  simp only [loadHeader]
  split_ifs
  · exact work_trans hread (work_release _ _)
  · exact hread

theorem header_read (s : Machine) {n : BitVec 32}
    (hn : (tarfsReadSize file size offset).setWidth 32 = n) (hpos : n.slt 0 = false) :
    loadHeader s file size offset = ({ (object s).1 with
      mem := (vfsRead s.mem (object s).2.val.toNat file size offset).1 },some (object s).2) ∧
    ∀ i < n.toInt.toNat, (loadHeader s file size offset).1.mem ((object s).2.val.toNat+i) =
      file.bytes (offset.toNat+i) := by
  have hload : loadHeader s file size offset = ({ (object s).1 with
      mem := (vfsRead s.mem (object s).2.val.toNat file size offset).1 },some (object s).2) := by
    simp only [loadHeader]
    rw [if_neg]
    show ¬ ((tarfsReadSize file size offset).setWidth 32).slt 0 = true
    rw [hn, hpos]
    decide
  refine ⟨hload,?_⟩
  intro i hi
  rw [hload]
  simp only [vfsRead]
  rw [hn, if_pos (by omega)]
  congr 1
  omega

section
variable (file : FileData) (hwhole : 64 ≤ file.size.toInt)
include hwhole

theorem ehdr_size : (tarfsReadSize file 64 0).setWidth 32 = 64 := by
  have hmsb : file.size.msb = false := by
    rw [BitVec.msb_eq_toInt]
    simp only [decide_eq_false_iff_not]
    omega
  have hint := BitVec.toInt_eq_toNat_of_msb hmsb
  have hsize : (file.size.signExtend 64).toNat = file.size.toNat := by
    rw [BitVec.signExtend_eq_setWidth_of_msb_false hmsb, BitVec.toNat_setWidth]
    omega
  rw [tarfsReadSize]
  split_ifs with hle
  · have hle' : file.size.toNat ≤ 64 := hsize ▸ hle
    have h64 : file.size.signExtend 64 = 64 := by
      apply BitVec.eq_of_toNat_eq
      show _ = 64
      omega
    rw [h64]
    decide
  · decide

theorem ehdr_read (s : Machine) :
    (loadElfEhdr s file).2 = some (object s).2 ∧
    ∀ i < 64, (loadElfEhdr s file).1.mem ((object s).2.val.toNat+i) = file.bytes i := by
  obtain ⟨hload,hbytes⟩ := header_read s (ehdr_size file hwhole) (by decide)
  have hint : (64 : BitVec 32).toInt.toNat = 64 := by decide
  refine ⟨congrArg Prod.snd hload,?_⟩
  intro i hi
  refine (hbytes i (by omega)).trans ?_
  congr 1
  exact Nat.zero_add i

theorem ehdr_fields (s : Machine) :
    ePhnum (loadElfEhdr s file).1.mem (object s).2 = file.bytes 57 ++ file.bytes 56 ∧
    ePhoff (loadElfEhdr s file).1.mem (object s).2 = load file.bytes 32 := by
  have hread := (ehdr_read file hwhole s).2
  constructor
  · rw [ePhnum, hread 57 (by decide), hread 56 (by decide)]
  · apply load_shift
    intro i hi
    rw [Nat.add_assoc, hread (32+i) (by omega)]

end

theorem work_closeFile (k : Kernel) (file : Option KernelPtr) :
    Work 1 k.machine (closeFile k file).machine := by
  cases file with
  | none => exact work_refl 1 _
  | some fp =>
    simp only [closeFile, tarfsClose]
    split_ifs
    · exact work_release _ _
    · exact work_refl 1 _

theorem work_mmapRegion (k : Kernel) (vmas : List Vma) (file : Option KernelPtr)
    {addr : Word} (filesz memsz off prot : Word) :
    Work 1 k.machine (mmapRegion k vmas file addr filesz memsz off prot).1.machine := by
  have hnode := work_object k.machine
  simp only [mmapRegion]
  split_ifs
  · exact work_refl 1 _
  · exact hnode
  · exact hnode
  · split
    · exact hnode
    · exact hnode
    · refine work_trans hnode (work_trans ?_ (work_release _ _))
      exact work_closeFile ⟨(object k.machine).1,k.fRefcount⟩ _

theorem work_loadSegments (file : KernelPtr) (phdrs : List Elf64Phdr) (k : Kernel)
    (vmas : List Vma) : Work 1 k.machine (loadSegments file phdrs k vmas).1.machine := by
  induction phdrs generalizing k vmas with
  | nil => exact work_refl 1 _
  | cons phdr rest ih =>
    have hmap : Work 1 k.machine (elfMap k vmas file phdr).1.machine := work_mmapRegion _ _ _ _ _ _ _
    rw [loadSegments]
    by_cases htype : phdr.pType = 1
    · rw [if_pos htype]
      split
      · exact hmap
      · exact hmap
      · split
        · exact hmap
        · exact work_trans hmap (ih _ _)
    · rw [if_neg htype]
      exact ih k vmas

theorem work_loadElfBinary {files : KernelPtr → FileData} (k : Kernel) (file : KernelPtr)
    (hfit : HeadersFit (files file)) :
    Work 1 k.machine (loadElfBinary files k file).1.machine := by
  obtain ⟨hsome,_⟩ := ehdr_read (files file) hfit.whole k.machine
  obtain ⟨hnum,hoff⟩ := ehdr_fields (files file) hfit.whole k.machine
  have hsize := ehdr_size (files file) hfit.whole
  have he : Work 1 k.machine (loadElfEhdr k.machine (files file)).1 :=
    work_loadHeader (by rw [hsize]; decide)
  have hp : Work 1 k.machine (loadElfPhdr (loadElfEhdr k.machine (files file)).1
      (object k.machine).2 (files file)).1 := by
    refine work_trans he (work_loadHeader ?_)
    rw [hnum, hoff]
    exact hfit.fits
  unfold loadElfBinary
  rw [hsome]
  dsimp only
  generalize loadElfPhdr (loadElfEhdr k.machine (files file)).1 (object k.machine).2
    (files file) = x at *
  obtain ⟨s₂,phdr⟩ := x
  split
  · cases phdr with
    | none => exact hp
    | some phdr =>
      exact work_trans hp (work_loadSegments file _ { k with machine := s₂ } [])
  · exact he

theorem work_addNode (s : Machine) (vmas : List Vma) (vma : Vma) :
    Work 1 s (addNode s vmas vma).1 := by
  unfold addNode
  split
  · exact work_refl 1 s
  · exact work_refl 1 s
  · exact work_release s _

theorem work_doHeapVma (s : Machine) (vmas : List Vma) : Work 1 s (doHeapVma s vmas).1 := by
  unfold doHeapVma
  split
  · exact work_refl 1 s
  · exact work_trans (work_object s) (work_addNode _ _ _)

theorem work_doOpenExec (k : Kernel) (relative found : Bool) :
    Work 1 k.machine (doOpenExec k relative found).1.machine := by
  have hpath : Work 1 k.machine (if relative then (object (object k.machine).1).1
      else (zeroedObject (object k.machine).1).1) := by
    split_ifs
    · exact work_trans (work_object _) (work_object _)
    · exact work_trans (work_object _) (work_zeroedObject _)
  rw [doOpenExec]
  dsimp only
  generalize (if relative then (object (object k.machine).1).1
    else (zeroedObject (object k.machine).1).1) = s₁ at *
  split
  · exact work_trans hpath (work_trans (work_zeroedObject s₁) (work_object (zeroedObject s₁).1))
  · exact work_trans hpath (work_release _ _)

def WritesFrames (k l : ℕ) (m m' : Mem) : Prop := ∀ x, x/4096 ≠ k → x/4096 ≠ l → m' x = m x

theorem writesFrames_trans (k l : ℕ) (m m₁ m₂ : Mem) (h : WritesFrames k l m m₁)
    (h' : WritesFrames k l m₁ m₂) : WritesFrames k l m m₂ :=
  fun x hk hl => (h' x hk hl).trans (h x hk hl)

variable {m : Mem} {l : ℕ}

theorem putString_writes (k : ℕ) {dest : ℕ} {str : List Byte} (hlo : 4096*l ≤ dest)
    (hhi : dest+(str.length+1) ≤ 4096*l+4096) : WritesFrames k l m (putString m dest str) := by
  intro x _ hl
  rw [putString, if_neg (by omega)]

theorem putPointer_writes (k l : ℕ) (m : Mem) (i : ℤ) (w : Word) (hlo : 0 ≤ i) (hhi : i < 512) :
    WritesFrames k l m (putPointer m (4096*k) i w) := by
  intro x hk _
  rw [putPointer, store, if_neg (by push_cast; omega)]

theorem copyStrings_writes (k : ℕ) (strs : List (List Byte)) (i : ℤ) (userPtr : Word) (dest : ℕ)
    (m : Mem) (hlo : 4096*l ≤ dest) (hhi : dest+stringBytes strs ≤ 4096*l+4096)
    (hi : (strs.length : ℤ) ≤ i) (hi' : i ≤ 512) :
    WritesFrames k l m (copyStrings (4096*k) strs i userPtr dest m).1 ∧
    (copyStrings (4096*k) strs i userPtr dest m).2 = dest+stringBytes strs := by
  induction strs generalizing i userPtr dest m with
  | nil => exact ⟨fun _ _ _ => rfl,rfl⟩
  | cons str rest ih =>
    rw [stringBytes_cons] at hhi
    rw [List.length_cons, Nat.cast_succ] at hi
    obtain ⟨hw,hd⟩ := ih (i-1) (userPtr+BitVec.ofNat 64 (str.length+1)) (dest+(str.length+1))
      (putString (putPointer m (4096*k) (i-1) userPtr) dest str) (by omega) (by omega) (by omega)
      (by omega)
    constructor
    · apply writesFrames_trans k l _ _ _ _ hw
      apply writesFrames_trans k l _ _ _ (putPointer_writes k l m (i-1) userPtr (by omega) (by omega))
      exact putString_writes k hlo (by omega)
    · rw [copyStrings, hd, stringBytes_cons, Nat.add_assoc]

theorem copyParams_writes (k l : ℕ) (strs : List (List Byte)) (maxCopy : ℤ) (dest : ℕ) (m : Mem)
    (hlo : 4096*l ≤ dest) (hhi : dest+stringBytes strs ≤ 4096*l+4096)
    (hi : (strs.length : ℤ)+1 ≤ maxCopy) (hi' : maxCopy ≤ 512) :
    WritesFrames k l m (copyParamsToUserspace m strs maxCopy (4096*k) dest).1 ∧
    (copyParamsToUserspace m strs maxCopy (4096*k) dest).2 = dest+stringBytes strs := by
  have hrev := stringBytes_reverse strs
  obtain ⟨hw,hd⟩ := copyStrings_writes k strs.reverse (maxCopy-1)
    (pageRoundUp stackStart+BitVec.ofNat 64 (dest%4096)) dest (putPointer m (4096*k) (maxCopy-1) 0)
    hlo (by omega) (by rw [List.length_reverse]; omega) (by omega)
  constructor
  · exact writesFrames_trans k l _ _ _ (putPointer_writes k l m _ 0 (by omega) (by omega)) hw
  · rw [copyParamsToUserspace, hd, hrev]

variable {argv envp : List (List Byte)}

theorem writeParams_writes {k : ℕ} (hfit : ParamsFit argv envp) :
    WritesFrames k l m (writeParams m argv envp (4096*k) (4096*l)) := by
  obtain ⟨hcount,hbytes⟩ := hfit
  obtain ⟨hw,hd⟩ := copyParams_writes k l envp 512 (4096*l) m le_rfl (by omega) (by omega) le_rfl
  obtain ⟨hw',_⟩ := copyParams_writes k l argv (512-envp.length-1) _
    (copyParamsToUserspace m envp 512 (4096*k) (4096*l)).1
    (hd ▸ Nat.le_add_right _ _) (by rw [hd]; omega) (by omega) (by omega)
  apply writesFrames_trans k l _ _ _ (writesFrames_trans k l _ _ _ hw hw')
  exact putPointer_writes k l _ _ _ (by omega) (by omega)

variable {p q : Word}

theorem fresh_written_two (h : Fresh 1 s s') (hp : Unused s.pages p ∧ ¬ Unused s'.pages p)
    (hq : Unused s.pages q ∧ ¬ Unused s'.pages q) (m' : Mem)
    (hw : WritesFrames (frameOf p) (frameOf q) s'.mem m') : Fresh 1 s { s' with mem := m' } := by
  have hfirst := fresh_written 1 h hp.1 hp.2
    (fun x => if x/4096 = frameOf p then m' x else s'.mem x) (fun x hx => if_neg hx)
  refine fresh_written 1 hfirst hq.1 hq.2 m' ?_
  intro x hx
  by_cases hxp : x/4096 = frameOf p
  · exact (if_pos hxp).symm
  · exact (hw x hxp hx).trans (if_neg hxp).symm

theorem stackFrames_pages (s : Machine) :
    (stackFrames s argv envp).pages = (zeroedObject (zeroedObject (object s).1).1).1.pages := rfl

theorem stackFrames_mem (argv envp : List (List Byte)) (hp : Aligned (physPointer s))
    (hq : Aligned (physStrings s)) :
    (stackFrames s argv envp).mem =
      writeParams (zeroedObject (zeroedObject (object s).1).1).1.mem argv envp
        (4096*frameOf (physPointer s)) (4096*frameOf (physStrings s)) := by
  have hpk : (zeroedObject (object s).1).2.val.toNat = 4096*frameOf (physPointer s) :=
    kernelAddr_aligned _ hp
  have hqk : (zeroedObject (zeroedObject (object s).1).1).2.val.toNat =
      4096*frameOf (physStrings s) := kernelAddr_aligned _ hq
  simp only [stackFrames]
  rw [hpk, hqk]

theorem stackFrames_taken (argv envp : List (List Byte)) (hf : FramesOk s.pages)
    (hok : (stackFrames s argv envp).shortages = s.shortages) :
    TakenFrame s (stackFrames s argv envp) (physPointer s) ∧
    TakenFrame s (stackFrames s argv envp) (physStrings s) ∧ physStrings s ≠ physPointer s := by
  have h₁ := work_object s
  have h₂ := work_zeroedObject (object s).1
  have h₃ := work_zeroedObject (zeroedObject (object s).1).1
  have hle₁ := h₁.shortages
  have hle₂ := h₂.shortages
  have hle₃ := h₃.shortages
  have hok' : (zeroedObject (zeroedObject (object s).1).1).1.shortages = s.shortages := hok
  have hf₁ := h₁.fresh hf (by omega)
  have hfr₁ := fresh_frames hf₁ hf
  have hf₂ := h₂.fresh hfr₁ (by omega)
  have hfr₂ := fresh_frames hf₂ hfr₁
  have hf₃ := h₃.fresh hfr₂ (by omega)
  have hp : physPointer s ≠ 0 :=
    (alloc_shortages (object s).1).2 (show (zeroedObject (object s).1).1.shortages = _ by omega)
  have hq : physStrings s ≠ 0 := (alloc_shortages (zeroedObject (object s).1).1).2
    (show (zeroedObject (zeroedObject (object s).1).1).1.shortages = _ by omega)
  have hup : Unused (object s).1.pages (physPointer s) := alloc_unused _ hp
  have huq : Unused (zeroedObject (object s).1).1.pages (physStrings s) := alloc_unused _ hq
  have hnp : ¬ Unused (zeroedObject (object s).1).1.pages (physPointer s) := alloc_taken hfr₁ hp
  have hnq : ¬ Unused (zeroedObject (zeroedObject (object s).1).1).1.pages (physStrings s) :=
    alloc_taken hfr₂ hq
  rw [TakenFrame, TakenFrame, stackFrames_pages]
  refine ⟨⟨hf₁.unused _ hup,fun h => hnp (hf₃.unused _ h)⟩,
    ⟨hf₁.unused _ (hf₂.unused _ huq),hnq⟩,?_⟩
  intro he
  exact hnp (he ▸ huq)

theorem stackFrames_work (s : Machine) (hfit : ParamsFit argv envp) :
    Work 1 s (stackFrames s argv envp) := by
  have hw := work_trans (work_object s) (work_trans
    (work_zeroedObject (object s).1) (work_zeroedObject (zeroedObject (object s).1).1))
  refine ⟨hw.shortages,?_,keeps_trans _ _ _ hw.later (keeps_same _ _ (stackFrames_pages s))⟩
  intro hf hok
  obtain ⟨hp,hq,_⟩ := stackFrames_taken argv envp hf hok
  have hok' : (zeroedObject (zeroedObject (object s).1).1).1.shortages = s.shortages := hok
  have hmem := stackFrames_mem argv envp (unused_window _ hf _ hp.1).1 (unused_window _ hf _ hq.1).1
  simp only [stackFrames] at hmem
  apply fresh_written_two (hw.fresh hf hok') hp hq
  rw [hmem]
  exact writeParams_writes hfit

variable {vmas : List Vma} {roots : List Word} {s₂ : Machine} {r : Word} {kernel : ℕ → Prop}

theorem stack_mapped {s₃ s₄ : Machine} (h : Coherent kernel 1 roots s) (hr : r ∈ roots)
    (hs₂ : mapVirtualAddressToPhysicalAddress clearTable s stackStart q userFlags r false = s₂)
    (hs₃ : mapVirtualAddressToPhysicalAddress clearTable s₂ (stackStart-2*4096) p userFlags r
      false = s₃) (hs₄ : (addNode s₃ vmas stackVma).1 = s₄) (hok : s₄.shortages = s.shortages) :
    Coherent kernel 1 roots s₄ ∧
    (∀ y ∈ roots, y ≠ r → ∀ w, leaf s₄.mem y w = leaf s.mem y w) ∧
    (Aligned p → Aligned q → ∀ w, User w → pte s₄.mem r w =
      if pageNumber w = pageNumber (stackStart-2*4096) then
        retarget (pte s.mem r w) p (userFlags.setWidth 64)
      else if pageNumber w = pageNumber stackStart then
        retarget (pte s.mem r w) q (userFlags.setWidth 64)
      else pte s.mem r w) ∧
    ∀ u, kernel u → ∀ j, tables s₄.mem u j = tables s.mem u j := by
  have hle₂ := map_shortages clearTable s stackStart q userFlags r false
  have hle₃ := map_shortages clearTable s₂ (stackStart-2*4096) p userFlags r false
  have hnode := work_addNode s₃ vmas stackVma
  have hle₄ := hnode.shortages
  have hmap₂ := map_leaves h clears_memset stackStart q userFlags hr (by decide) (by decide)
    (by decide)
  have hquiet₂ := map_quiet (v := stackStart) (p := q) (f := userFlags) (b := false) h clears_memset
    hr (by decide) (by decide) (by decide)
  rw [hs₂] at hle₂ hmap₂ hquiet₂
  rw [hs₃] at hle₃
  rw [hs₄] at hle₄ hnode
  obtain ⟨h₂,hothers₂,hown₂⟩ := hmap₂ (by omega)
  have hmap₃ := map_leaves h₂ clears_memset (stackStart-2*4096) p userFlags hr (by decide)
    (by decide) (by decide)
  have hquiet₃ := map_quiet (v := stackStart-2*4096) (p := p) (f := userFlags) (b := false) h₂
    clears_memset hr (by decide) (by decide) (by decide)
  rw [hs₃] at hmap₃ hquiet₃
  obtain ⟨h₃,hothers₃,hown₃⟩ := hmap₃ (by omega)
  have hf₄ := hnode.fresh h₃.forest.frames (by omega)
  obtain ⟨h₄,hsame₄⟩ := fresh_leaf h₃ s₄ hf₄
  refine ⟨h₄,?_,?_,?_⟩
  · intro y hy hne w
    rw [hsame₄ y hy w, hothers₃ y hy hne w, hothers₂ y hy hne w]
  · intro hp hq w hw
    have hs₄ : pte s₄.mem r w = pte s₃.mem r w := by rw [pte, pte, hsame₄ r hr w]
    have hal : Aligned (stackStart-2*4096) ∧ Aligned stackStart := by decide
    rw [hs₄, hown₃ w hw, hown₂ w hw]
    simp only [hal.1, hal.2, hp, hq, and_true]
    by_cases hlow : pageNumber w = pageNumber (stackStart-2*4096)
    · have hhigh : ¬ pageNumber w = pageNumber stackStart := by
        rw [hlow]
        decide
      rw [if_pos hlow, if_pos hlow, if_neg hhigh]
    · rw [if_neg hlow, if_neg hlow]
  · intro u hu j
    rw [fresh_kernel h₃ s₄ hf₄ u hu j, quiet_kernel (hquiet₃ (by omega)) hu j,
      quiet_kernel (hquiet₂ (by omega)) hu j]

theorem stack_kernel (hr : r ∈ roots) (vmas : List Vma)
    (h : Coherent kernel 1 roots (stackFrames s argv envp))
    (hok : (doStackVma s r vmas argv envp).1.shortages = (stackFrames s argv envp).shortages)
    (u : ℕ) (hu : kernel u) (j : Fin 512) :
    tables (doStackVma s r vmas argv envp).1.mem u j =
      tables (stackFrames s argv envp).mem u j :=
  (stack_mapped h hr rfl rfl rfl hok).2.2.2 u hu j

section
variable {kernel : ℕ → Prop} {roots : List Word} {s : Machine} (h : Coherent kernel 1 roots s)
include h

theorem stack_leaves (hr : r ∈ roots) (hfit : ParamsFit argv envp)
    (hok : (doStackVma s r vmas argv envp).1.shortages = s.shortages) :
    Coherent kernel 1 roots (doStackVma s r vmas argv envp).1 ∧
    (∀ y ∈ roots, y ≠ r → ∀ w,
      leaf (doStackVma s r vmas argv envp).1.mem y w = leaf s.mem y w) ∧
    (∀ w, User w → pte (doStackVma s r vmas argv envp).1.mem r w =
      if pageNumber w = pageNumber (stackStart-2*4096) then
        retarget (pte s.mem r w) (physPointer s) (userFlags.setWidth 64)
      else if pageNumber w = pageNumber stackStart then
        retarget (pte s.mem r w) (physStrings s) (userFlags.setWidth 64)
      else pte s.mem r w) ∧
    ∀ u, kernel u → ∀ j,
      tables (doStackVma s r vmas argv envp).1.mem u j = tables s.mem u j := by
  have hwork := stackFrames_work s hfit
  have hfr : FramesOk (object s).1.pages :=
    framesOk_congr (addresses_alloc s.pages) h.forest.frames
  have hp : Aligned (physPointer s) := alloc_aligned hfr
  have hq : Aligned (physStrings s) :=
    alloc_aligned (framesOk_congr (addresses_alloc _) hfr)
  have hle₁ := hwork.shortages
  have hle₂ : (stackFrames s argv envp).shortages ≤ (doStackVma s r vmas argv envp).1.shortages :=
    ((map_shortages _ _ _ _ _ _ _).trans (map_shortages _ _ _ _ _ _ _)).trans
      (work_addNode _ vmas stackVma).shortages
  have hf₁ := hwork.fresh h.forest.frames (by omega)
  obtain ⟨h₁,hsame₁⟩ := fresh_leaf h _ hf₁
  obtain ⟨h₄,hothers,hown,hker⟩ := stack_mapped h₁ hr rfl rfl rfl
    (show (doStackVma s r vmas argv envp).1.shortages = _ by omega)
  refine ⟨h₄,?_,?_,?_⟩
  · intro y hy hne w
    exact (hothers y hy hne w).trans (hsame₁ y hy w)
  · intro w hw
    have hs₁ : pte (stackFrames s argv envp).mem r w = pte s.mem r w := by
      rw [pte, pte, hsame₁ r hr w]
    rw [← hs₁]
    exact hown hp hq w hw
  · intro u hu j
    exact (hker u hu j).trans (fresh_kernel h _ hf₁ u hu j)

end

theorem stack_keeps (s : Machine) (r : Word) (vmas : List Vma) (hfit : ParamsFit argv envp) :
    Keeps s (stackFrames s argv envp) ∧
    Keeps (stackFrames s argv envp) (doStackVma s r vmas argv envp).1 := by
  refine ⟨(stackFrames_work s hfit).later,?_⟩
  rw [doStackVma]
  generalize stackFrames s argv envp = s₁
  exact keeps_trans _ _ _ (keeps_map clearTable s₁ _ _ _ _ _)
    (keeps_trans _ _ _ (keeps_map clearTable _ _ _ _ _ _) (work_addNode _ vmas stackVma).later)

theorem stack_shortages (s : Machine) (r : Word) (vmas : List Vma) (hfit : ParamsFit argv envp) :
    s.shortages ≤ (stackFrames s argv envp).shortages ∧
    (stackFrames s argv envp).shortages ≤ (doStackVma s r vmas argv envp).1.shortages := by
  refine ⟨(stackFrames_work s hfit).shortages,?_⟩
  rw [doStackVma]
  generalize stackFrames s argv envp = s₁
  have hle₁ := map_shortages clearTable s₁ stackStart (physStrings s) userFlags r false
  generalize mapVirtualAddressToPhysicalAddress clearTable s₁ stackStart (physStrings s) userFlags r
    false = s₂ at *
  have hle₂ := map_shortages clearTable s₂ (stackStart-2*4096) (physPointer s) userFlags r false
  have hle₃ := (work_addNode (mapVirtualAddressToPhysicalAddress clearTable s₂ (stackStart-2*4096)
    (physPointer s) userFlags r false) vmas stackVma).shortages
  omega

def CommandApart (kernel : ℕ → Prop) (roots : List Word) (m : Mem)
    (command : Option KernelPtr) : Prop :=
  ∀ c ∈ command, ∀ d ≤ 1, ¬ Reached child (tables m) (owned kernel roots) (c.val.toNat/4096+d)

theorem clearTable_apart {a x : ℕ} (h : x/4096 ≠ a/4096) (h' : x/4096 ≠ a/4096+1) :
    clearTable m a x = m x := by
  rw [clearTable, myMemset, memsetLoop_eq]
  by_cases hz : 4096 = 0 ∨ a = 0
  · rw [if_pos hz]
  · rw [if_neg hz, poke, if_neg (by omega), fill, if_neg (by omega)]

section
variable {kernel : ℕ → Prop} {roots : List Word} {s : Machine} (h : Coherent kernel 1 roots s)
include h

theorem clearCommand_leaves {command : Option KernelPtr}
    (hc : CommandApart kernel roots s.mem command) :
    Coherent kernel 1 roots (clearCommand s command) ∧
    (∀ y ∈ roots, ∀ w, leaf (clearCommand s command).mem y w = leaf s.mem y w) ∧
    ∀ u, kernel u → ∀ j, tables (clearCommand s command).mem u j = tables s.mem u j := by
  cases command with
  | none => exact ⟨h,fun _ _ _ => rfl,fun _ _ _ => rfl⟩
  | some c =>
    suffices hagree : ∀ u, Reached child (tables s.mem) (owned kernel roots) u →
        ∀ j, tables (clearTable s.mem c.val.toNat) u j = tables s.mem u j by
      have hq := quiet_agree h hagree
      exact ⟨quiet_coherent h hq,fun y hy v => quiet_leaf h hq y (Or.inr ⟨hy,id⟩) v,
        fun u hu => hagree u ⟨u,[],Or.inr ⟨hu,rfl⟩,rfl⟩⟩
    intro u hu j
    have hapart := hc c rfl
    have hne : u ≠ c.val.toNat/4096 := fun he => hapart 0 (by decide) (he ▸ hu)
    have hne' : u ≠ c.val.toNat/4096+1 := fun he => hapart 1 le_rfl (he ▸ hu)
    apply load_congr
    intro i hi
    exact clearTable_apart (by omega) (by omega)

end

theorem clearCommand_rest (s : Machine) (command : Option KernelPtr) :
    (clearCommand s command).pages = s.pages ∧ (clearCommand s command).shortages = s.shortages := by
  cases command with
  | none => exact ⟨rfl,rfl⟩
  | some c => exact ⟨rfl,rfl⟩

theorem opened_work (k : Kernel) (args : ExecArgs) : Work 1 k.machine (object (doOpenExec
    { k with machine := (object k.machine).1 } args.relative args.found).1.machine).1 :=
  work_trans (work_object _) (work_trans
    (work_doOpenExec { k with machine := (object k.machine).1 } _ _) (work_object _))

theorem beforeRoot_keeps (k : Kernel) (args : ExecArgs) :
    Keeps k.machine (beforeRoot k args).1.machine := by
  have hwork := opened_work k args
  simp only [beforeRoot]
  generalize (object (doOpenExec { k with machine := (object k.machine).1 }
      args.relative args.found).1.machine).1 = s₁ at *
  exact keeps_trans _ _ _ hwork.later (keeps_trans _ _ _
    (keeps_same _ _ (clearCommand_rest s₁ args.command).1)
    (work_zeroedObject (clearCommand s₁ args.command)).later)

theorem beforeRoot_leaves {k : Kernel} (h : Coherent kernel 1 roots k.machine) (args : ExecArgs)
    (hc : CommandApart kernel roots k.machine.mem args.command) :
    k.machine.shortages ≤ (beforeRoot k args).1.machine.shortages ∧
    ((beforeRoot k args).1.machine.shortages = k.machine.shortages →
      Coherent kernel 1 roots (beforeRoot k args).1.machine ∧
      Keeps k.machine (beforeRoot k args).1.machine ∧
      (∀ y ∈ roots, ∀ w, leaf (beforeRoot k args).1.machine.mem y w = leaf k.machine.mem y w) ∧
      ∀ u, kernel u → ∀ j, tables (beforeRoot k args).1.machine.mem u j =
        tables k.machine.mem u j) := by
  have hwork := opened_work k args
  have hkeeps := beforeRoot_keeps k args
  simp only [beforeRoot] at hkeeps ⊢
  generalize (object (doOpenExec { k with machine := (object k.machine).1 }
      args.relative args.found).1.machine).1 = s₁ at *
  have hclear := clearCommand_rest s₁ args.command
  have hlast := work_zeroedObject (clearCommand s₁ args.command)
  have hle := hwork.shortages
  have hle' := hlast.shortages
  rw [hclear.2] at hle'
  refine ⟨by omega,?_⟩
  intro hok
  have hf := hwork.fresh h.forest.frames (by omega)
  obtain ⟨h₁,hsame₁⟩ := fresh_leaf h s₁ hf
  have hreach := (fresh_forest (owned_closed kernel roots) h.forest hf).2.1
  obtain ⟨h₂,hsame₂,hker₂⟩ := clearCommand_leaves h₁ (by
    intro c hcc d hd hr
    exact hc c hcc d hd ((hreach _).mp hr))
  have hf₃ := hlast.fresh h₂.forest.frames (by rw [hclear.2]; omega)
  obtain ⟨h₃,hsame₃⟩ := fresh_leaf h₂ _ hf₃
  refine ⟨h₃,hkeeps,?_,?_⟩
  · intro y hy w
    rw [hsame₃ y hy w, hsame₂ y hy w, hsame₁ y hy w]
  · intro u hu j
    rw [fresh_kernel h₂ _ hf₃ u hu j, hker₂ u hu j, fresh_kernel h s₁ hf u hu j]

structure ArgumentFrames where
  strings : Word
  pointers : Word

def newPte (frames : Option ArgumentFrames) (w : Word) : Word :=
  match frames with
  | none => 0
  | some a =>
    if pageNumber w = pageNumber (stackStart-2*4096) then a.pointers ||| userFlags.setWidth 64
    else if pageNumber w = pageNumber stackStart then a.strings ||| userFlags.setWidth 64
    else 0

structure Executed (kernel : ℕ → Prop) (roots : List Word) (c : Word)
    (frames : Option ArgumentFrames) (s s' : Machine) : Prop where
  coherent : Coherent kernel 1 (c::roots) s'
  new : c ∉ roots
  others : ∀ y ∈ roots, ∀ w, leaf s'.mem y w = leaf s.mem y w
  own : ∀ w, User w → pte s'.mem c w = newPte frames w
  kernelTables : ∀ u, kernel u → ∀ j, tables s'.mem u j = tables s.mem u j
  framesOk : FramesOk s.pages
  later : Later s.pages s'.pages
  taken : ∀ a ∈ frames, TakenFrame s s' a.strings ∧ TakenFrame s s' a.pointers ∧
    a.strings ≠ a.pointers

variable {s₁ : Machine}

section
variable {kernel : ℕ → Prop} {roots : List Word} {s : Machine} {c : Word}
  {frames : Option ArgumentFrames}

theorem executed_root (h : Coherent kernel 1 roots s)
    (hok : (copyPageTables s s.pml4 4).1.shortages = s.shortages) :
    Executed kernel roots (copyPageTables s s.pml4 4).2 none s (copyPageTables s s.pml4 4).1 := by
  obtain ⟨hco,hnew,hnone⟩ := spawn_coherent h hok
  constructor
  case coherent => exact hco
  case new => exact hnew
  case others => exact fun y hy w => quiet_leaf h (spawn_quiet h hok) y (Or.inr ⟨hy,id⟩) w
  case own =>
    intro w hw
    rw [pte, hnone w hw]
    rfl
  case kernelTables => exact fun u hu j => quiet_kernel (spawn_quiet h hok) hu j
  case framesOk => exact h.forest.frames
  case later => exact keeps_copyPageTables s s.pml4 h.forest.frames
  case taken =>
    intro a ha
    cases ha

theorem executed_work (h : Executed kernel roots c frames s s₁) (hw : Work 1 s₁ s₂)
    (hok : s₂.shortages = s₁.shortages) : Executed kernel roots c frames s s₂ := by
  have hf₁ := h.coherent.forest.frames
  have hfresh := hw.fresh hf₁ hok
  obtain ⟨hco,hsame⟩ := fresh_leaf h.coherent s₂ hfresh
  have hkeep := taken_within s s s₁ s₂ h.framesOk (keeps_same s s rfl) hw.later hf₁
  constructor
  case coherent => exact hco
  case new => exact h.new
  case others =>
    intro y hy w
    rw [hsame y (List.mem_cons_of_mem _ hy) w, h.others y hy w]
  case own =>
    intro w hw
    rw [← h.own w hw, pte, pte, hsame c (by simp) w]
  case kernelTables =>
    intro u hu j
    rw [fresh_kernel h.coherent s₂ hfresh u hu j, h.kernelTables u hu j]
  case framesOk => exact h.framesOk
  case later => exact later_trans h.later (hw.later hf₁)
  case taken =>
    intro a ha
    obtain ⟨hs,hp,hne⟩ := h.taken a ha
    exact ⟨hkeep _ hs,hkeep _ hp,hne⟩

theorem executed_stack (h : Executed kernel roots c none s s₁) (hfit : ParamsFit argv envp)
    (hok : (doStackVma s₁ c vmas argv envp).1.shortages = s₁.shortages) :
    Executed kernel roots c (some ⟨physStrings s₁,physPointer s₁⟩) s
      (doStackVma s₁ c vmas argv envp).1 := by
  have hf₁ := h.coherent.forest.frames
  obtain ⟨hco,hothers,hown,hker⟩ := stack_leaves h.coherent (by simp) hfit hok
  obtain ⟨hframes,hlast⟩ := stack_keeps s₁ c vmas hfit
  have hf₂ := framesOk_congr (hframes hf₁).addresses hf₁
  obtain ⟨hle,hle'⟩ := stack_shortages s₁ c vmas hfit
  obtain ⟨hp,hs,hne⟩ := stackFrames_taken argv envp hf₁ (by omega)
  have hkeep := taken_within s s₁ _ _ h.framesOk (fun _ => h.later) hlast hf₂
  constructor
  case coherent => exact hco
  case new => exact h.new
  case others =>
    intro y hy w
    have hne : y ≠ c := fun he => h.new (he ▸ hy)
    rw [hothers y (List.mem_cons_of_mem _ hy) hne w, h.others y hy w]
  case own =>
    intro w hw
    have hzero : pte s₁.mem c w = 0 := h.own w hw
    rw [hown w hw, hzero, retarget_zero, retarget_zero]
    rfl
  case kernelTables => exact fun u hu j => (hker u hu j).trans (h.kernelTables u hu j)
  case framesOk => exact h.framesOk
  case later => exact later_trans h.later (keeps_trans _ _ _ hframes hlast hf₁)
  case taken =>
    intro a ha
    obtain rfl := Option.some.inj ha
    exact ⟨hkeep _ hs,hkeep _ hp,hne⟩

end

variable {c : Word}

theorem executed_from {s₀ : Machine} {frames : Option ArgumentFrames}
    (h : Executed kernel roots c frames s s') (hf : FramesOk s₀.pages) (hkeep : Keeps s₀ s)
    (hsame : ∀ y ∈ roots, ∀ w, leaf s.mem y w = leaf s₀.mem y w)
    (hker : ∀ u, kernel u → ∀ j, tables s.mem u j = tables s₀.mem u j) :
    Executed kernel roots c frames s₀ s' := by
  have htaken := taken_within s₀ s s' s' hf hkeep (keeps_same s' s' rfl) h.coherent.forest.frames
  constructor
  case coherent => exact h.coherent
  case new => exact h.new
  case others => exact fun y hy w => (h.others y hy w).trans (hsame y hy w)
  case own => exact h.own
  case kernelTables => exact fun u hu j => (h.kernelTables u hu j).trans (hker u hu j)
  case framesOk => exact hf
  case later => exact later_trans (hkeep hf) h.later
  case taken =>
    intro a ha
    obtain ⟨hs,hp,hne⟩ := h.taken a ha
    exact ⟨htaken _ hs,htaken _ hp,hne⟩

variable {args : ExecArgs}

theorem heapAndStack_shortages (s : Machine) (c : Word) (vmas : List Vma)
    (hfit : ParamsFit args.argv args.envp) :
    s.shortages ≤ (heapAndStack s c vmas args).1.shortages := by
  have hle := (work_doHeapVma s vmas).shortages
  rw [heapAndStack]
  generalize doHeapVma s vmas = x at *
  obtain ⟨s₁,stage⟩ := x
  cases stage with
  | ok vmas' =>
    obtain ⟨hle₁,hle₂⟩ := stack_shortages s₁ c vmas' hfit
    dsimp only at hle ⊢
    omega
  | failed vmas' => exact hle
  | wild => exact hle

theorem heapAndStack_executed (h : Executed kernel roots c none s s₁) (vmas : List Vma)
    (hfit : ParamsFit args.argv args.envp)
    (hok : (heapAndStack s₁ c vmas args).1.shortages = s₁.shortages) :
    ∃ frames, Executed kernel roots c frames s (heapAndStack s₁ c vmas args).1 ∧
      ∀ vmas', (heapAndStack s₁ c vmas args).2 = .ok vmas' → frames.isSome = true := by
  have hheap := work_doHeapVma s₁ vmas
  rw [heapAndStack] at hok ⊢
  generalize doHeapVma s₁ vmas = x at *
  obtain ⟨s₂,stage⟩ := x
  have hle := hheap.shortages
  cases stage with
  | ok vmas' =>
    obtain ⟨hle₁,hle₂⟩ := stack_shortages s₂ c vmas' hfit
    dsimp only at hle hheap hok ⊢
    have h₂ := executed_work h hheap (by omega)
    exact ⟨_,executed_stack h₂ hfit (by omega),fun _ _ => rfl⟩
  | failed vmas' => exact ⟨none,executed_work h hheap hok,by simp⟩
  | wild => exact ⟨none,executed_work h hheap hok,by simp⟩

theorem image_eq {x : Kernel × Stage} {cr3 : Word} {file : KernelPtr} {img : Image}
    (h : image x cr3 file = some img) :
    img.kernel = x.1 ∧ img.mm.cr3 = cr3 ∧ img.mm.file = some file ∧
    (img.ok = true → x.2 = .ok img.mm.vma) := by
  obtain ⟨k,stage⟩ := x
  cases stage with
  | wild => simp [image] at h
  | ok vmas =>
    obtain rfl := Option.some.inj h
    exact ⟨rfl,rfl,rfl,fun _ => rfl⟩
  | failed vmas =>
    obtain rfl := Option.some.inj h
    exact ⟨rfl,rfl,rfl,by simp⟩

section
variable {kernel : ℕ → Prop} {roots : List Word} {k : Kernel} (h : Coherent kernel 1 roots k.machine)
  (files : KernelPtr → FileData) (args : ExecArgs) (img : Image)
  (himg : doExecve files k args = some img)
  (hc : CommandApart kernel roots k.machine.mem args.command)
  (hh : ∀ fp ∈ img.mm.file, HeadersFit (files fp)) (hp : ParamsFit args.argv args.envp)
  (hok : img.kernel.machine.shortages = k.machine.shortages)
include h himg hc hh hp hok

/-- What an exec does, whether it succeeds or fails on the way. -/
theorem execve_executed : ∃ frames,
    Executed kernel roots img.mm.cr3 frames k.machine img.kernel.machine ∧
    (img.ok = true → frames.isSome = true) := by
  obtain ⟨hle₁,hbefore⟩ := beforeRoot_leaves h args hc
  rw [doExecve] at himg
  dsimp only at himg
  generalize beforeRoot k args = before at *
  obtain ⟨k₁,file⟩ := before
  dsimp only at himg hle₁ hbefore
  cases file with
  | none => simp at himg
  | some file =>
    have hle₂ := copyPageTables_shortages k₁.machine k₁.machine.pml4
    have hroot := fun hco : Coherent kernel 1 roots k₁.machine => executed_root hco
    generalize copyPageTables k₁.machine k₁.machine.pml4 4 = root at *
    obtain ⟨s₂,c⟩ := root
    dsimp only at himg hle₂ hroot
    have hfile : img.mm.file = some file := by
      split at himg
      · exact (image_eq himg).2.2.1
      · exact (image_eq himg).2.2.1
    have hload := work_loadElfBinary { k₁ with machine := s₂ } file (hh file hfile)
    have hle₃ := hload.shortages
    generalize loadElfBinary files { k₁ with machine := s₂ } file = loaded at *
    obtain ⟨k₃,stage⟩ := loaded
    dsimp only at himg hload hle₃
    -- from here on the shortages at the end decide those at every point before
    have hloaded : k₃.machine.shortages = k.machine.shortages →
        Executed kernel roots c none k.machine k₃.machine := by
      intro hsh
      obtain ⟨hco,hkeep,hsame,hker⟩ := hbefore (by omega)
      have hex := executed_work (hroot hco (by omega)) hload (by omega)
      exact executed_from hex h.forest.frames hkeep hsame hker
    cases stage with
    | wild => simp [image] at himg
    | failed vmas =>
      obtain ⟨hk,hcr3,_,hstage⟩ := image_eq himg
      rw [hk] at hok
      rw [hk, hcr3]
      exact ⟨none,hloaded hok,fun ht => absurd (hstage ht) (by simp)⟩
    | ok vmas =>
      obtain ⟨hk,hcr3,_,hstage⟩ := image_eq himg
      rw [hk] at hok
      rw [hk, hcr3]
      dsimp only at hok ⊢
      have hle₄ := heapAndStack_shortages k₃.machine c vmas hp
      obtain ⟨frames,hex,hsome⟩ := heapAndStack_executed (hloaded (by omega)) vmas hp (by omega)
      exact ⟨frames,hex,fun ht => hsome _ (hstage ht)⟩

end

end PreemptiveOS.ExecLeaves
