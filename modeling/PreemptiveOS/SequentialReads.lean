import PreemptiveOS.FilePages
import PreemptiveOS.OpenPaths

/-!
# Reading a file from its start

A read of a regular file copies bytes of the archive into the buffer, one by one,
as many as are asked for or as the file still has, and moves the position of the
open file behind them. Reads one after the other put together.
-/

set_option autoImplicit false

namespace PreemptiveOS.SequentialReads
open ByteMemory Vmas PageFaults
open Exec FilePages Tarfs TarfsLookup
open OpenPaths

def myMemcpy (m : Mem) (dest src : ℕ) : ℕ → Mem
  | 0 => m
  | n+1 => poke (myMemcpy m dest src n) (dest+n) (myMemcpy m dest src n (src+n))

theorem memcpy_apart (m : Mem) (dest src n : ℕ) (h : dest+n ≤ src ∨ src+n ≤ dest) (x : ℕ) :
    myMemcpy m dest src n x = if dest ≤ x ∧ x < dest+n then m (src+(x-dest)) else m x := by
  induction n generalizing x with
  | zero => rw [myMemcpy, if_neg (by omega)]
  | succ n ih =>
    have hsrc : myMemcpy m dest src n (src+n) = m (src+n) := by
      rw [ih (by omega), if_neg (by omega)]
    rw [myMemcpy, hsrc, poke, ih (by omega)]
    by_cases hx : x = dest+n
    · rw [if_pos hx, if_pos (by omega), hx, Nat.add_sub_cancel_left]
    · rw [if_neg hx]
      have hiff : dest ≤ x ∧ x < dest+n ↔ dest ≤ x ∧ x < dest+(n+1) := by omega
      simp only [hiff]

section
variable (fs : FileSystem) (behind : ℕ → ℕ → Byte)

def dataOf (m : Mem) (inode : Inode) : FileData :=
  ⟨inode.iSize,fun i => m (inode.iData.getD 0+i)⟩

def tarfsRead (m : Mem) (fp : File) (buf : ℕ) (size offset : Word) : Mem × File × Word :=
  let fpInode := getInodeFromDentry fs behind fp.fDentry
  let copySize := tarfsReadSize (dataOf m fpInode) size offset
  (myMemcpy m buf (fpInode.iData.getD 0+offset.toNat) (copySize.setWidth 32).toInt.toNat,
    { fp with fOffset := fp.fOffset+copySize },copySize)

theorem tarfsRead_vfsRead (m : Mem) (fp : File) (buf : ℕ) (size offset : Word) (n a : ℕ)
    (hdata : (getInodeFromDentry fs behind fp.fDentry).iData = some a)
    (hn : ((tarfsReadSize (dataOf m (getInodeFromDentry fs behind fp.fDentry)) size
      offset).setWidth 32).toInt.toNat = n)
    (hgap : buf+n ≤ a+offset.toNat ∨ a+offset.toNat+n ≤ buf) :
    (tarfsRead fs behind m fp buf size offset).1 =
      (vfsRead m buf (dataOf m (getInodeFromDentry fs behind fp.fDentry)) size offset).1 := by
  funext x
  dsimp only [tarfsRead, vfsRead]
  rw [hn, hdata, Option.getD_some, memcpy_apart m _ _ n hgap x]
  simp only [dataOf, hdata, Option.getD_some, Nat.add_assoc]

structure Reader where
  mem : Mem
  files : KernelPtr → File

def sysRead (table : List (Option KernelPtr)) (fd buf : ℕ) (count : Word) (r : Reader) :
    Reader × Word :=
  match table.getD fd none with
  | none => (r,-1)
  | some fp =>
    let read := tarfsRead fs behind r.mem (r.files fp) buf count (r.files fp).fOffset
    (⟨read.1,Function.update r.files fp read.2.1⟩,read.2.2)

structure Stored (m : Mem) (dentry a : ℕ) (c : List Byte) : Prop where
  size : (getInodeFromDentry fs behind dentry).iSize.toInt = c.length
  data : (getInodeFromDentry fs behind dentry).iData = some a
  holds : Holds m a c

structure Delivers (c : List Byte) (fp : KernelPtr) (buf done : ℕ) (bytes : List Byte)
    (r r' : Reader) (returned : Word) : Prop where
  reports : returned.toInt = bytes.length
  puts : Holds r'.mem buf bytes
  outside : ∀ x, x < buf ∨ buf+bytes.length ≤ x → r'.mem x = r.mem x
  moves : (r'.files fp).fOffset.toNat = done+bytes.length
  ends : c.length ≤ done → returned = 0

inductive Reads (table : List (Option KernelPtr)) (fd : ℕ) (c : List Byte) (fp : KernelPtr) :
    ℕ → List (ℕ × Word) → Reader → List Byte → Prop
  | done (n : ℕ) (r : Reader) : Reads table fd c fp n [] r []
  | read (n buf : ℕ) (count : Word) (calls : List (ℕ × Word)) (r : Reader)
      (bytes rest : List Byte) :
      Delivers c fp buf n bytes r (sysRead fs behind table fd buf count r).1
        (sysRead fs behind table fd buf count r).2 →
      Reads table fd c fp (n+bytes.length) calls (sysRead fs behind table fd buf count r).1 rest →
      Reads table fd c fp n ((buf,count)::calls) r (bytes++rest)

end

def total (calls : List (ℕ × Word)) : ℕ := (calls.map (fun call => call.2.toNat)).sum

def Apart (a : ℕ) (c : List Byte) (call : ℕ × Word) : Prop :=
  call.1+call.2.toNat ≤ a ∨ a+c.length ≤ call.1

theorem take_on (c : List Byte) (n i j : ℕ) : (c.drop n).take (i+j) =
    (c.drop n).take i++(c.drop (n+((c.drop n).take i).length)).take j := by
  rw [List.take_add, List.drop_drop, List.length_take, List.length_drop]
  by_cases hi : i ≤ c.length-n
  · rw [min_eq_left hi]
  · have hpast : c.drop (n+i) = [] := List.drop_eq_nil_of_le (by omega)
    have hend : c.drop (n+(c.length-n)) = [] := List.drop_eq_nil_of_le (by omega)
    rw [min_eq_right (by omega), hpast, hend]

theorem stored_small {fs : FileSystem} {behind : ℕ → ℕ → Byte} {m : Mem} {dentry a : ℕ}
    {c : List Byte} (h : Stored fs behind m dentry a c) : c.length < 2^31 ∧
      (getInodeFromDentry fs behind dentry).iSize.toNat = c.length := by
  have hsize := h.size
  have hcond := BitVec.toInt_eq_toNat_cond (getInodeFromDentry fs behind dentry).iSize
  have hlt := (getInodeFromDentry fs behind dentry).iSize.isLt
  split_ifs at hcond <;> omega

section
variable (fs : FileSystem) (behind : ℕ → ℕ → Byte) (table : List (Option KernelPtr)) (fd : ℕ)
  (fp : KernelPtr) (a : ℕ) (c : List Byte) (hfd : table.getD fd none = some fp) (r : Reader)
  (hstored : Stored fs behind r.mem (r.files fp).fDentry a c)
  (hdone : (r.files fp).fOffset.toNat ≤ c.length) (buf : ℕ) (count : Word)
  (hcount : count.toNat < 2^31) (hapart : Apart a c (buf,count))
include hfd hstored hdone hcount hapart

omit hfd hapart in
theorem copySize_exact : (tarfsReadSize (dataOf r.mem (getInodeFromDentry fs behind
      (r.files fp).fDentry)) count (r.files fp).fOffset).toNat =
        ((c.drop (r.files fp).fOffset.toNat).take count.toNat).length ∧
    ((tarfsReadSize (dataOf r.mem (getInodeFromDentry fs behind (r.files fp).fDentry)) count
      (r.files fp).fOffset).setWidth 32).toInt.toNat =
        ((c.drop (r.files fp).fOffset.toNat).take count.toNat).length := by
  obtain ⟨hsmall,hsize⟩ := stored_small hstored
  have hinside := readSize_inside
    (dataOf r.mem (getInodeFromDentry fs behind (r.files fp).fDentry)) count
    (r.files fp).fOffset (hsize ▸ hsmall) hcount (hsize ▸ hdone)
  rw [List.length_take, List.length_drop]
  rw [dataOf, hsize] at hinside
  refine ⟨hinside,?_⟩
  have hnarrow : ((tarfsReadSize (dataOf r.mem (getInodeFromDentry fs behind
      (r.files fp).fDentry)) count (r.files fp).fOffset).setWidth 32).toNat =
        min count.toNat (c.length-(r.files fp).fOffset.toNat) := by
    rw [BitVec.toNat_setWidth, dataOf, hinside]
    omega
  rw [toInt_nonneg (by omega), hnarrow, Int.toNat_natCast]

theorem read_delivers : Delivers c fp buf (r.files fp).fOffset.toNat
    ((c.drop (r.files fp).fOffset.toNat).take count.toNat) r
    (sysRead fs behind table fd buf count r).1 (sysRead fs behind table fd buf count r).2 ∧
    Stored fs behind (sysRead fs behind table fd buf count r).1.mem
      ((sysRead fs behind table fd buf count r).1.files fp).fDentry a c := by
  obtain ⟨hwide,hint⟩ := copySize_exact fs behind fp a c r hstored hdone count hcount
  have hsmall := (stored_small hstored).1
  have hlen := List.length_take (l := c.drop (r.files fp).fOffset.toNat) (i := count.toNat)
  rw [List.length_drop] at hlen
  have hgap : buf+count.toNat ≤ a ∨ a+c.length ≤ buf := hapart
  have hcopy := memcpy_apart r.mem buf (a+(r.files fp).fOffset.toNat)
    ((c.drop (r.files fp).fOffset.toNat).take count.toNat).length (by omega)
  rw [sysRead, hfd]
  dsimp only [tarfsRead]
  rw [hstored.data, Option.getD_some, hint]
  generalize hn : tarfsReadSize _ _ _ = n at hwide hint ⊢
  constructor
  · constructor
    case reports =>
      rw [BitVec.toInt_eq_toNat_cond, hwide]
      split_ifs <;> omega
    case puts =>
      intro i hi
      refine (hcopy _).trans ?_
      rw [if_pos (by omega), Nat.add_sub_cancel_left, Nat.add_assoc,
        hstored.holds _ (by omega), List.getD_eq_getElem?_getD, List.getD_eq_getElem?_getD,
        List.getElem?_take_of_lt (by omega), List.getElem?_drop]
    case outside =>
      intro x hx
      exact (hcopy x).trans (if_neg (by omega))
    case moves =>
      dsimp only
      rw [Function.update_self, BitVec.toNat_add, hwide]
      omega
    case ends =>
      intro hend
      apply BitVec.eq_of_toNat_eq
      rw [hwide, hlen, Nat.sub_eq_zero_of_le hend, Nat.min_zero]
      rfl
  · rw [Function.update_self]
    refine ⟨hstored.size,hstored.data,?_⟩
    intro i hi
    exact ((hcopy _).trans (if_neg (by omega))).trans (hstored.holds i hi)

end

section
variable (fs : FileSystem) (behind : ℕ → ℕ → Byte) (table : List (Option KernelPtr)) (fd : ℕ)
  (fp : KernelPtr) (a : ℕ) (c : List Byte) (hfd : table.getD fd none = some fp)
include hfd

theorem reads_on {calls : List (ℕ × Word)} (r : Reader)
    (hstored : Stored fs behind r.mem (r.files fp).fDentry a c)
    (hdone : (r.files fp).fOffset.toNat ≤ c.length)
    (hcalls : ∀ call ∈ calls, call.2.toNat < 2^31 ∧ Apart a c call) :
    Reads fs behind table fd c fp (r.files fp).fOffset.toNat calls r
      ((c.drop (r.files fp).fOffset.toNat).take (total calls)) := by
  induction calls generalizing r with
  | nil => simpa [total] using Reads.done (r.files fp).fOffset.toNat r
  | cons call calls ih =>
    obtain ⟨buf,count⟩ := call
    obtain ⟨hcount,hapart⟩ := hcalls (buf,count) List.mem_cons_self
    obtain ⟨hread,hkept⟩ := read_delivers fs behind table fd fp a c hfd r hstored hdone buf count
      hcount hapart
    have hmoves := hread.moves
    have hrest := ih _ hkept (by
      rw [hmoves, List.length_take, List.length_drop]
      omega) (fun call hcall => hcalls call (List.mem_cons_of_mem _ hcall))
    rw [hmoves] at hrest
    rw [total, List.map_cons, List.sum_cons, take_on]
    exact Reads.read _ buf count calls r _ _ hread hrest

/-- A file that has just been opened is delivered from its start. -/
theorem reads_deliver_file (calls : List (ℕ × Word)) (r : Reader)
    (hstored : Stored fs behind r.mem (r.files fp).fDentry a c)
    (hopened : (r.files fp).fOffset = 0)
    (hcalls : ∀ call ∈ calls, call.2.toNat < 2^31 ∧ Apart a c call) :
    Reads fs behind table fd c fp 0 calls r (c.take (min c.length (total calls))) := by
  have hstart : (r.files fp).fOffset.toNat = 0 := by rw [hopened]; rfl
  have hreads := reads_on fs behind table fd fp a c hfd r hstored (by omega) hcalls
  rw [hstart, List.drop_zero] at hreads
  rwa [List.take_eq_take_min, min_comm] at hreads

end

theorem decoded_regular {m : Mem} (start i : ℕ) {es : List UstarEntry} (hv : ∀ e ∈ es, Valid e)
    (h : Holds m start (encode es)) (k : ℕ) {e : UstarEntry} (he : es[k]? = some e)
    (hregular : e.typeflag = 48) : ∃ inode a, (decodedInodes start i es)[k]? = some inode ∧
      inode.iSize.toInt = e.data.length ∧ inode.iData = some a ∧ Holds m a e.data := by
  induction es generalizing start i k with
  | nil => cases he
  | cons first es ih =>
    have hparts : Holds m start (encodeEntry first++encode es) := by
      rwa [encode, List.map_cons, List.flatten_cons, List.append_assoc] at h
    obtain ⟨hentry,hrest⟩ := holds_append hparts
    cases k with
    | zero =>
      obtain rfl : first = e := Option.some.inj he
      have hsmall := (hv first List.mem_cons_self).small
      have hnat : (BitVec.ofNat 32 first.data.length).toNat = first.data.length := by
        rw [BitVec.toNat_ofNat]
        omega
      rw [decodedInodes, List.getElem?_cons_zero]
      refine ⟨_,_,rfl,?_,?_,header_data hentry⟩
      · dsimp only
        rw [toInt_nonneg (by omega), hnat]
      · exact if_pos hregular
    | succ k =>
      rw [List.getElem?_cons_succ] at he
      rw [decodedInodes, List.getElem?_cons_succ]
      exact ih _ _ (fun e he => hv e (List.mem_cons_of_mem _ he)) hrest k he

theorem archive_stored (m : Mem) (start : ℕ) (es : List UstarEntry) (hv : ∀ e ∈ es, Valid e)
    (h : Holds m start (encode es)) (fs : FileSystem) (behind : ℕ → ℕ → Byte)
    (cwd n : List Byte) (hexact : Exact fs behind cwd start es n) (k : ℕ) (e : UstarEntry)
    (he : es[k]? = some e) (hregular : e.typeflag = 48) :
    ∃ a, Stored fs behind m (k+1) a e.data := by
  obtain ⟨inode,a,hinode,hsize,hdata,hholds⟩ := decoded_regular start 1 hv h k he hregular
  have hfound := hexact.inode k inode hinode
  exact ⟨a,hfound ▸ hsize,hfound ▸ hdata,hholds⟩

def threeBytes : FileSystem := ⟨[⟨padded [97],none⟩],[⟨3,3,48,some 8192,some 0⟩],[]⟩

def threeStored : Mem := fun x => if x = 8192 then 1 else if x = 8193 then 2 else 3

theorem threeBytes_stored : Stored threeBytes (fun _ _ => 0) threeStored 0 8192 [1,2,3] := by
  have hinode : getInodeFromDentry threeBytes (fun _ _ => 0) 0 = ⟨3,3,48,some 8192,some 0⟩ := by
    decide
  constructor
  case size => rw [hinode]; rfl
  case data => rw [hinode]
  case holds =>
    intro i hi
    have hlt : i < 3 := hi
    interval_cases i <;> rfl

theorem reads_deliver_file_three :
    Reads threeBytes (fun _ _ => 0) [some (kernelPtr 4096)] 0 [1,2,3] (kernelPtr 4096) 0
      [(0,2),(16,2),(32,2)] ⟨threeStored,fun _ => ⟨0,1,0,0,0⟩⟩ [1,2,3] :=
  reads_deliver_file threeBytes (fun _ _ => 0) [some (kernelPtr 4096)] 0 (kernelPtr 4096) 8192
    [1,2,3] rfl [(0,2),(16,2),(32,2)] ⟨threeStored,fun _ => ⟨0,1,0,0,0⟩⟩ threeBytes_stored rfl
    (by simp [Apart])

end PreemptiveOS.SequentialReads
