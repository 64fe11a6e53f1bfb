import PreemptiveOS.ByteMemory

/-!
# Transfers between memory and disk

`do_write_to_disk` and `do_read_from_disk` describe a transfer by a list of entries, each
an address and the number of its bytes less one, and by a command with the first sector
and the number of sectors. An entry has 16 sectors, and the last one the rest. The next
entry starts 4096 bytes behind the start of the one before and not behind its end, the
last one has a byte too many, and the number of sectors is that of the last entry.
-/

set_option autoImplicit false

namespace PreemptiveOS.DiskTransfers
open ByteMemory

structure PrdtEntry where
  dba : Word
  dbc : BitVec 22
  i : BitVec 1
deriving DecidableEq

structure CmdHeader where
  cfl : BitVec 5
  w : BitVec 1
  c : BitVec 1
  prdtl : BitVec 16
deriving DecidableEq

structure FisRegH2d where
  fisType : Byte
  c : BitVec 1
  command : Byte
  lba0 : Byte
  lba1 : Byte
  lba2 : Byte
  device : Byte
  lba3 : Byte
  lba4 : Byte
  lba5 : Byte
  count : BitVec 16
deriving DecidableEq

structure Command where
  header : CmdHeader
  prdt : List PrdtEntry
  cfis : FisRegH2d
deriving DecidableEq

structure Operation where
  w : BitVec 1
  c : BitVec 1 → BitVec 1
  command : Byte
  noSlot : ℤ

/-- The registers of a port, and the headers of its slots. The last three are what the
disk shows at each of the readings while a function waits. -/
structure Port where
  sact : BitVec 32
  ci : BitVec 32
  headers : ℕ → CmdHeader
  tfd : ℕ → BitVec 32
  issued : ℕ → BitVec 32
  isRwc : ℕ → BitVec 32

def slotLoop : ℕ → BitVec 32 → ℤ → ℤ
  | 0, _, _ => -1
  | n+1, free, i => if free &&& 1 = 0 then i else slotLoop n (free>>>1) (i+1)

def findSlot (port : Port) : ℤ := slotLoop 32 (port.sact ||| port.ci) 0

def prdtLoop : ℕ → BitVec 16 → Word → List PrdtEntry × BitVec 16 × Word
  | 0, count, buf => ([],count,buf)
  | n+1, count, buf =>
    let r := prdtLoop n (count-16) (buf+4*1024)
    (⟨buf,8*1024-1,0⟩::r.1,r.2)

def prdtEntries (n : ℕ) (count : BitVec 16) (buf : Word) : List PrdtEntry :=
  let r := prdtLoop n count buf
  r.1++[⟨r.2.2,(r.2.1.setWidth 32<<<9).setWidth 22,0⟩]

def prdtLength (count : BitVec 16) : BitVec 16 :=
  ((count.setWidth 32-1).sshiftRight 4+1).setWidth 16

def buildCommand (op : Operation) (header : CmdHeader) (startl starth : BitVec 32)
    (count : BitVec 16) (buf : Word) : Command :=
  let prdtl := prdtLength count
  { header := ⟨5,op.w,op.c header.c,prdtl⟩
    prdt := prdtEntries (prdtl.toNat-1) count buf
    cfis :=
      { fisType := 0x27
        c := 1
        command := op.command
        lba0 := (startl &&& 0xff).setWidth 8
        lba1 := (startl>>>8 &&& 0xff).setWidth 8
        lba2 := (startl>>>16 &&& 0xff).setWidth 8
        device := 1<<<6
        lba3 := (startl>>>24 &&& 0xff).setWidth 8
        lba4 := (starth &&& 0xff).setWidth 8
        lba5 := (starth>>>8 &&& 0xff).setWidth 8
        count := (prdtLoop (prdtl.toNat-1) count buf).2.1 } }

def spinLoop (tfd : ℕ → BitVec 32) : ℕ → ℕ → ℕ
  | 0, spin => spin
  | n+1, spin => if tfd spin &&& (0x80 ||| 0x08) ≠ 0 then spinLoop tfd n (spin+1) else spin

def waitLoop (port : Port) (slot : ℕ) : ℕ → ℕ → Option ℤ
  | 0, _ => none
  | n+1, k =>
    if port.issued k &&& 1<<<slot = 0 then
      some (if port.isRwc k &&& 1<<<30 ≠ 0 then 0 else 1)
    else if port.isRwc k &&& 1<<<30 ≠ 0 then some 0
    else waitLoop port slot n (k+1)

structure Outcome where
  ret : Option ℤ
  built : Option (ℕ × Command)
  issued : Bool

def transfer (op : Operation) (port : Port) (startl starth : BitVec 32) (count : BitVec 16)
    (buf : Word) (readings : ℕ) : Outcome :=
  let slot := findSlot port
  if slot = -1 then ⟨some op.noSlot,none,false⟩
  else
    let built := some (slot.toNat,buildCommand op (port.headers slot.toNat) startl starth count buf)
    if spinLoop port.tfd 1000000 0 = 1000000 then ⟨some 0,built,false⟩
    else ⟨waitLoop port slot.toNat readings 0,built,true⟩

def doWriteToDisk := transfer ⟨1,fun _ => 1,0x35,-1⟩
def doReadFromDisk := transfer ⟨0,id,0x25,0⟩

def PrdtEntry.size (e : PrdtEntry) : ℕ := e.dbc.toNat+1

def Consecutive : Word → List PrdtEntry → Prop
  | _, [] => True
  | a, e::es => e.dba = a ∧ Consecutive (a+BitVec.ofNat 64 e.size) es

def total (es : List PrdtEntry) : ℕ := (es.map PrdtEntry.size).sum

def Covers (es : List PrdtEntry) (buf : Word) (n : ℕ) : Prop := Consecutive buf es ∧ total es = n

theorem prdtLoop_count (n : ℕ) (count : BitVec 16) (buf : Word) :
    (prdtLoop n count buf).2.1 = count-BitVec.ofNat 16 (16*n) := by
  induction n generalizing count buf with
  | zero => exact (sub_zero count).symm
  | succ n ih =>
    rw [prdtLoop, ih, sub_sub, Nat.mul_add, Nat.add_comm, BitVec.ofNat_add]
    rfl

theorem prdtEntries_succ (n : ℕ) (count : BitVec 16) (buf : Word) :
    prdtEntries (n+1) count buf = ⟨buf,8*1024-1,0⟩::prdtEntries n (count-16) (buf+4*1024) := rfl

theorem prdtEntries_head (n : ℕ) (count : BitVec 16) (buf : Word) :
    ∃ e es, prdtEntries n count buf = e::es ∧ e.dba = buf := by
  cases n with
  | zero => exact ⟨_,[],rfl,rfl⟩
  | succ n => exact ⟨_,_,prdtEntries_succ n count buf,rfl⟩

theorem consecutive_iff (n : ℕ) (count : BitVec 16) (buf : Word) :
    Consecutive buf (prdtEntries n count buf) ↔ n = 0 := by
  cases n with
  | zero => exact iff_of_true ⟨rfl,trivial⟩ rfl
  | succ n =>
    refine iff_of_false ?_ (Nat.succ_ne_zero n)
    obtain ⟨e,es,hes,hdba⟩ := prdtEntries_head n (count-16) (buf+4*1024)
    rw [prdtEntries_succ, hes]
    rintro ⟨-,hnext,-⟩
    rw [hdba] at hnext
    have hsame : (4*1024 : Word) = BitVec.ofNat 64 8192 := add_left_cancel hnext
    exact absurd hsame (by decide)

theorem total_entries (n : ℕ) (count : BitVec 16) (buf : Word) :
    total (prdtEntries n count buf) =
      8192*n+((((prdtLoop n count buf).2.1.setWidth 32<<<9).setWidth 22 : BitVec 22).toNat+1) := by
  induction n generalizing count buf with
  | zero => exact (Nat.zero_add _).symm
  | succ n ih =>
    have hsize : PrdtEntry.size ⟨buf,8*1024-1,0⟩ = 8192 := rfl
    have hrest := ih (count-16) (buf+4*1024)
    rw [total] at hrest
    rw [prdtEntries_succ, total, List.map_cons, List.sum_cons, hsize, hrest, prdtLoop]
    dsimp only
    omega

theorem prdtLength_toNat {count : BitVec 16} (hcount : 1 ≤ count.toNat) :
    (prdtLength count).toNat = (count.toNat-1)/16+1 := by
  have hlt := count.isLt
  have hone : (count.setWidth 32-1).toNat = count.toNat-1 := by
    rw [BitVec.toNat_sub, BitVec.toNat_setWidth]
    simp
    omega
  have hmsb : (count.setWidth 32-1).msb = false := by
    rw [BitVec.msb_eq_decide, hone]
    simp
    omega
  rw [prdtLength, BitVec.toNat_setWidth, BitVec.toNat_add, BitVec.sshiftRight_eq_of_msb_false hmsb,
    BitVec.toNat_ushiftRight, hone, Nat.shiftRight_eq_div_pow]
  simp
  omega

theorem rest_toNat (count : BitVec 16) (n : ℕ) (h : 16*n < count.toNat) :
    (count-BitVec.ofNat 16 (16*n)).toNat = count.toNat-16*n := by
  have hlt := count.isLt
  rw [BitVec.toNat_sub, BitVec.toNat_ofNat]
  omega

theorem last_bytes {rest : BitVec 16} (h : rest.toNat ≤ 16) :
    ((rest.setWidth 32<<<9).setWidth 22 : BitVec 22).toNat = 512*rest.toNat := by
  rw [BitVec.toNat_setWidth, BitVec.toNat_shiftLeft, BitVec.toNat_setWidth, Nat.shiftLeft_eq]
  omega

section
variable (op : Operation) (header : CmdHeader) (startl starth : BitVec 32) (count : BitVec 16)
  (buf : Word) (hcount : 1 ≤ count.toNat)
include hcount

theorem built_consecutive_iff :
    Consecutive buf (buildCommand op header startl starth count buf).prdt ↔ count.toNat ≤ 16 := by
  rw [buildCommand]
  dsimp only
  rw [consecutive_iff, prdtLength_toNat hcount]
  omega

theorem built_total :
    total (buildCommand op header startl starth count buf).prdt = 512*count.toNat+1 := by
  have hrest := rest_toNat count ((count.toNat-1)/16) (by omega)
  rw [buildCommand]
  dsimp only
  rw [total_entries, prdtLoop_count, prdtLength_toNat hcount, Nat.add_sub_cancel,
    last_bytes (by omega), hrest]
  omega

theorem built_count_iff :
    (buildCommand op header startl starth count buf).cfis.count = count ↔ count.toNat ≤ 16 := by
  have hrest := rest_toNat count ((count.toNat-1)/16) (by omega)
  rw [buildCommand]
  dsimp only
  rw [prdtLoop_count, prdtLength_toNat hcount, Nat.add_sub_cancel, ← BitVec.toNat_inj, hrest]
  omega

end

theorem slotLoop_cases (n : ℕ) (free : BitVec 32) (i : ℤ) :
    (∃ k < n, slotLoop n free i = i+k ∧ free.getLsbD k = false ∧ ∀ j < k, free.getLsbD j = true) ∨
      (slotLoop n free i = -1 ∧ ∀ j < n, free.getLsbD j = true) := by
  induction n generalizing free i with
  | zero => exact Or.inr ⟨rfl,fun j hj => absurd hj (Nat.not_lt_zero j)⟩
  | succ n ih =>
    have hbit : free &&& 1#32 = 0 ↔ free.getLsbD 0 = false := by
      rw [BitVec.and_one_eq_setWidth_ofBool_getLsbD]
      cases free.getLsbD 0 <;> decide
    rw [slotLoop]
    split_ifs with h
    · exact Or.inl ⟨0,Nat.succ_pos n,(add_zero i).symm,hbit.mp h,
        fun j hj => absurd hj (Nat.not_lt_zero j)⟩
    · have hset : free.getLsbD 0 = true := by
        cases hb : free.getLsbD 0 with
        | false => exact absurd (hbit.mpr hb) h
        | true => rfl
      have hshift : ∀ j, (free>>>1).getLsbD j = free.getLsbD (j+1) := by
        intro j
        rw [BitVec.getLsbD_ushiftRight, Nat.add_comm]
      have hall : ∀ k, (∀ j < k, (free>>>1).getLsbD j = true) → ∀ j < k+1, free.getLsbD j = true := by
        intro k hk j hj
        cases j with
        | zero => exact hset
        | succ j => exact (hshift j).symm.trans (hk j (by omega))
      rcases ih (free>>>1) (i+1) with ⟨k,hk,hret,hfree,hbelow⟩ | ⟨hret,hbelow⟩
      · refine Or.inl ⟨k+1,by omega,?_,(hshift k).symm.trans hfree,hall k hbelow⟩
        rw [hret]
        push_cast
        ring
      · exact Or.inr ⟨hret,hall n hbelow⟩

theorem findSlot_cases (port : Port) : (∃ k < 32, findSlot port = (k : ℕ) ∧
      (port.sact ||| port.ci).getLsbD k = false) ∨
    (findSlot port = -1 ∧ ∀ j < 32, (port.sact ||| port.ci).getLsbD j = true) := by
  rcases slotLoop_cases 32 (port.sact ||| port.ci) 0 with ⟨k,hk,hret,hfree,-⟩ | hnone
  · exact Or.inl ⟨k,hk,hret.trans (zero_add _),hfree⟩
  · exact Or.inr hnone

section
variable (op : Operation) (port : Port) (startl starth : BitVec 32) (count : BitVec 16) (buf : Word)
  (readings : ℕ)

theorem transfer_free {slot : ℕ} (h : findSlot port = slot) :
    transfer op port startl starth count buf readings =
      if spinLoop port.tfd 1000000 0 = 1000000 then
        ⟨some 0,some (slot,buildCommand op (port.headers slot) startl starth count buf),false⟩
      else ⟨waitLoop port slot readings 0,
        some (slot,buildCommand op (port.headers slot) startl starth count buf),true⟩ := by
  rw [transfer]
  dsimp only
  rw [if_neg (by omega), h, Int.toNat_natCast]

theorem transfer_full (h : findSlot port = -1) :
    transfer op port startl starth count buf readings = ⟨some op.noSlot,none,false⟩ := if_pos h

theorem transfer_built_iff (slot : ℕ) (cmd : Command) :
    (transfer op port startl starth count buf readings).built = some (slot,cmd) ↔
      findSlot port = slot ∧ buildCommand op (port.headers slot) startl starth count buf = cmd := by
  rcases findSlot_cases port with ⟨k,-,hk,-⟩ | ⟨hnone,-⟩
  · have hbuilt : (transfer op port startl starth count buf readings).built =
        some (k,buildCommand op (port.headers k) startl starth count buf) := by
      rw [transfer_free op port startl starth count buf readings hk]
      split_ifs <;> rfl
    rw [hbuilt, hk, Option.some.injEq, Prod.mk.injEq, Nat.cast_inj]
    constructor
    · rintro ⟨rfl,hcmd⟩
      exact ⟨rfl,hcmd⟩
    · rintro ⟨rfl,hcmd⟩
      exact ⟨rfl,hcmd⟩
  · rw [transfer_full op port startl starth count buf readings hnone, hnone]
    exact iff_of_false (Option.some_ne_none _).symm (fun h => by omega)

end

theorem waitLoop_one_iff (port : Port) (slot n k : ℕ) : waitLoop port slot n k = some 1 ↔
    ∃ j < n, port.issued (k+j) &&& 1<<<slot = 0 ∧
      (∀ i < j, port.issued (k+i) &&& 1<<<slot ≠ 0) ∧
      ∀ i ≤ j, port.isRwc (k+i) &&& 1<<<30 = 0 := by
  induction n generalizing k with
  | zero => exact iff_of_false (Option.some_ne_none _).symm (fun ⟨j,hj,_⟩ => Nat.not_lt_zero j hj)
  | succ n ih =>
    have hnext : ∀ j, k+1+j = k+(j+1) := fun j => by omega
    rw [waitLoop]
    by_cases hdone : port.issued k &&& 1<<<slot = 0
    · rw [if_pos hdone]
      by_cases herr : port.isRwc k &&& 1<<<30 = 0
      · rw [if_neg (not_not_intro herr)]
        refine iff_of_true rfl ⟨0,Nat.succ_pos n,hdone,fun i hi => absurd hi (Nat.not_lt_zero i),?_⟩
        intro i hi
        rwa [Nat.le_zero.mp hi]
      · rw [if_pos herr]
        refine iff_of_false (by decide) ?_
        rintro ⟨j,-,-,-,hclean⟩
        exact herr (hclean 0 (Nat.zero_le j))
    · rw [if_neg hdone]
      by_cases herr : port.isRwc k &&& 1<<<30 = 0
      · rw [if_neg (not_not_intro herr), ih (k+1)]
        simp only [hnext]
        constructor
        · rintro ⟨j,hj,hend,hbusy,hclean⟩
          refine ⟨j+1,by omega,hend,fun i hi => ?_,fun i hi => ?_⟩
          · cases i with
            | zero => exact hdone
            | succ i => exact hbusy i (by omega)
          · cases i with
            | zero => exact herr
            | succ i => exact hclean i (by omega)
        · rintro ⟨j,hj,hend,hbusy,hclean⟩
          cases j with
          | zero => exact absurd hend hdone
          | succ j =>
            exact ⟨j,by omega,hend,fun i hi => hbusy (i+1) (by omega),
              fun i hi => hclean (i+1) (by omega)⟩
      · rw [if_pos herr]
        refine iff_of_false (by decide) ?_
        rintro ⟨j,-,-,-,hclean⟩
        exact herr (hclean 0 (Nat.zero_le j))

/-- A transfer is reported as done just if its command was issued in a slot that was not
in use, and the disk took it back without an error. -/
theorem transfer_done_iff
    (run : Port → BitVec 32 → BitVec 32 → BitVec 16 → Word → ℕ → Outcome)
    (hrun : run = doWriteToDisk ∨ run = doReadFromDisk)
    (port : Port) (startl starth : BitVec 32) (count : BitVec 16) (buf : Word) (readings : ℕ) :
    (run port startl starth count buf readings).ret = some 1 ↔
      (run port startl starth count buf readings).issued = true ∧
      ∃ slot < 32, findSlot port = (slot : ℕ) ∧ (port.sact ||| port.ci).getLsbD slot = false ∧
        ∃ j < readings, port.issued j &&& 1<<<slot = 0 ∧
          (∀ i < j, port.issued i &&& 1<<<slot ≠ 0) ∧ ∀ i ≤ j, port.isRwc i &&& 1<<<30 = 0 := by
  obtain ⟨op,hop,hfull⟩ : ∃ op, run = transfer op ∧ op.noSlot ≠ 1 := by
    rcases hrun with rfl | rfl
    · exact ⟨_,rfl,by decide⟩
    · exact ⟨_,rfl,by decide⟩
  rw [hop]
  rcases findSlot_cases port with ⟨k,hk,hslot,hfree⟩ | ⟨hnone,-⟩
  · rw [transfer_free op port startl starth count buf readings hslot]
    by_cases hspin : spinLoop port.tfd 1000000 0 = 1000000
    · rw [if_pos hspin]
      have hret : some (0 : ℤ) ≠ some 1 := by decide
      exact iff_of_false hret (fun h => absurd h.1 Bool.false_ne_true)
    · rw [if_neg hspin, waitLoop_one_iff]
      simp only [Nat.zero_add]
      constructor
      · intro h
        exact ⟨trivial,k,hk,hslot,hfree,h⟩
      · rintro ⟨-,slot,-,hslot',-,h⟩
        rwa [Nat.cast_inj.mp (hslot.symm.trans hslot')]
  · rw [transfer_full op port startl starth count buf readings hnone]
    refine iff_of_false (fun h => hfull (Option.some.inj h)) ?_
    rintro ⟨h,-⟩
    exact absurd h Bool.false_ne_true

/-- The entries always have one byte more than the transfer. They lie one behind the
other, and the command has the number of sectors, just for a single entry. -/
theorem transfer_ranges
    (run : Port → BitVec 32 → BitVec 32 → BitVec 16 → Word → ℕ → Outcome)
    (hrun : run = doWriteToDisk ∨ run = doReadFromDisk)
    (port : Port) (startl starth : BitVec 32) (count : BitVec 16) (buf : Word) (readings : ℕ)
    (hcount : 1 ≤ count.toNat) (slot : ℕ) (cmd : Command)
    (hbuilt : (run port startl starth count buf readings).built = some (slot,cmd)) :
    total cmd.prdt = 512*count.toNat+1 ∧ ¬ Covers cmd.prdt buf (512*count.toNat) ∧
      (Consecutive buf cmd.prdt ↔ count.toNat ≤ 16) ∧
      (cmd.cfis.count = count ↔ count.toNat ≤ 16) := by
  obtain ⟨op,hop⟩ : ∃ op, run = transfer op := by
    rcases hrun with rfl | rfl
    · exact ⟨_,rfl⟩
    · exact ⟨_,rfl⟩
  rw [hop] at hbuilt
  obtain ⟨-,rfl⟩ := (transfer_built_iff op port startl starth count buf readings slot cmd).mp hbuilt
  have htotal := built_total op (port.headers slot) startl starth count buf hcount
  refine ⟨htotal,?_,built_consecutive_iff op _ startl starth count buf hcount,
    built_count_iff op _ startl starth count buf hcount⟩
  rintro ⟨-,hexact⟩
  omega

def idlePort : Port := ⟨0,0,fun _ => ⟨0,0,0,0⟩,fun _ => 0,fun _ => 0,fun _ => 0⟩

theorem transfer_done_iff_idle : (doReadFromDisk idlePort 0 0 1 0x600f000 1).ret = some 1 :=
  (transfer_done_iff doReadFromDisk (Or.inr rfl) idlePort 0 0 1 0x600f000 1).mpr
    ⟨rfl,0,by decide,rfl,rfl,0,by decide,by decide,by simp,fun _ _ => BitVec.zero_and⟩

theorem idle_built {op : Operation} (count : BitVec 16) (buf : Word) :
    (transfer op idlePort 0 0 count buf 1).built =
      some (0,buildCommand op ⟨0,0,0,0⟩ 0 0 count buf) :=
  (transfer_built_iff op idlePort 0 0 count buf 1 0 _).mpr ⟨rfl,rfl⟩

/-- The transfer of 800 sectors that the kernel makes. -/
theorem transfer_ranges_kernel : ∃ cmd,
    (doWriteToDisk idlePort 0 0 800 0x600f000 1).built = some (0,cmd) ∧
      total cmd.prdt = 409601 ∧ cmd.cfis.count ≠ 800 := by
  refine ⟨_,idle_built 800 0x600f000,?_⟩
  obtain ⟨htotal,-,-,hcount⟩ := transfer_ranges doWriteToDisk (Or.inl rfl) idlePort 0 0 800
    0x600f000 1
    (by decide) 0 _ (idle_built 800 0x600f000)
  exact ⟨htotal,fun h => absurd (hcount.mp h) (by decide)⟩

/-- A transfer of 32 sectors: the second entry starts in the first one, the last byte is
behind the buffer, and the command is for 16 sectors. -/
theorem entries_overlap : ∃ cmd,
    (doWriteToDisk idlePort 0 0 32 0x600f000 1).built = some (0,cmd) ∧
      cmd.prdt = [⟨0x600f000,8191,0⟩,⟨0x6010000,8192,0⟩] ∧
      ¬ Covers cmd.prdt 0x600f000 (512*32) ∧ cmd.cfis.count = 16 := by
  refine ⟨_,idle_built 32 0x600f000,by decide,?_,by decide⟩
  rintro ⟨-,htotal⟩
  exact absurd htotal (by decide)

end PreemptiveOS.DiskTransfers
