import PreemptiveOS.Console
import PreemptiveOS.UserBuffers

/-!
# Listing the processes

`sys_getprocs64` clears the buffer, checks whether it may write to it, and then
writes a record of 32 bytes for each process of `allproc` and of `zombproc`: two
numbers and the command as strings, in fields of 6, 6 and 20 bytes. `ps` reads
the records back. Records that fit are read as they were meant, if the commands
fit too. But the buffer is cleared with the byte behind it, before the check.
-/

set_option autoImplicit false

namespace PreemptiveOS.ProcessListing
open ByteMemory Vmas ExecWrites Console UserBuffers

structure ProcessInfo where
  pid : BitVec 16
  ppid : BitVec 16
  command : List Byte

def itoa (i : BitVec 32) : List Byte := numeral 10 i.toNat

def recordWrites (buf n : ℕ) (process : ProcessInfo) : List Write :=
  copyWrites buf n (itoa (process.pid.setWidth 32)++[0])++
    copyWrites buf (n+6) (itoa (process.ppid.setWidth 32)++[0])++
    copyWrites buf (n+12) (process.command++[0])

def listLoop (buf size : ℕ) : ℕ → List ProcessInfo → List Write × Option ℕ
  | nWritten, [] => ([],some nWritten)
  | nWritten, process::rest =>
    if size < nWritten then ([],none)
    else (recordWrites buf nWritten process++(listLoop buf size (nWritten+32) rest).1,
      (listLoop buf size (nWritten+32) rest).2)

/-- The walk over both lists and what is returned after it. The guard in front of the
second walk changes nothing: that walk ends at once where the guard would leave. -/
def listProcesses (buf size : ℕ) (allproc zombproc : List ProcessInfo) : List Write × ℤ :=
  let live := listLoop buf size 0 allproc
  match live.2 with
  | none => (live.1,size)
  | some nWritten =>
    let zombies := listLoop buf size nWritten zombproc
    (live.1++zombies.1,((zombies.2.getD size : ℕ) : ℤ))

def sysGetprocs64 (vmas : List Vma) (allproc zombproc : List ProcessInfo) (buf size : ℕ) :
    List Write × ℤ :=
  let cleared := clearWrites buf size
  if isUserspaceAccessValid vmas (BitVec.ofNat 64 buf) (BitVec.ofNat 64 size) .verifyWrite = 0 then
    (cleared,-1)
  else (cleared++(listProcesses buf size allproc zombproc).1,
    (listProcesses buf size allproc zombproc).2)

def Sound (vmas : List Vma) (addr n : Word) (type : Access) : Prop :=
  isUserspaceAccessValid vmas addr n type ≠ 0 → Accessible vmas addr n type

def KeepsBuffer (vmas : List Vma) (allproc zombproc : List ProcessInfo) (buf size : ℕ) (m : Mem) :
    Prop :=
  (sysGetprocs64 vmas allproc zombproc buf size).2 = -1 → ∀ x, buf ≤ x → x < buf+size →
    performAll (sysGetprocs64 vmas allproc zombproc buf size).1 m x = m x

def RefusedBuffer (vmas : List Vma) (buf size : ℕ) : Prop :=
  Refused vmas (BitVec.ofNat 64 buf) (BitVec.ofNat 64 size) .verifyWrite

section
variable (vmas : List Vma) (allproc zombproc : List ProcessInfo) (buf size : ℕ)

theorem getprocs_refused (h : RefusedBuffer vmas buf size) :
    sysGetprocs64 vmas allproc zombproc buf size = (clearWrites buf size,-1) := by
  rw [sysGetprocs64, if_pos ((access_refused).mpr h)]

theorem getprocs_accepted (h : ¬ RefusedBuffer vmas buf size) :
    sysGetprocs64 vmas allproc zombproc buf size =
      (clearWrites buf size++(listProcesses buf size allproc zombproc).1,
        (listProcesses buf size allproc zombproc).2) := by
  rw [sysGetprocs64, if_neg (fun hzero => h ((access_refused).mp hzero))]

theorem list_nonneg : 0 ≤ (listProcesses buf size allproc zombproc).2 := by
  rw [listProcesses]
  dsimp only
  cases (listLoop buf size 0 allproc).2 with
  | none => exact Int.natCast_nonneg size
  | some n => exact Int.natCast_nonneg _

theorem getprocs_fails_iff :
    (sysGetprocs64 vmas allproc zombproc buf size).2 = -1 ↔ RefusedBuffer vmas buf size := by
  constructor
  · intro hfail
    by_contra haccepted
    rw [getprocs_accepted vmas allproc zombproc buf size haccepted] at hfail
    have hnonneg := list_nonneg allproc zombproc buf size
    rw [hfail] at hnonneg
    exact absurd hnonneg (by decide)
  · intro h
    rw [getprocs_refused vmas allproc zombproc buf size h]

theorem keeps_buffer_iff (m : Mem) : KeepsBuffer vmas allproc zombproc buf size m ↔
    (RefusedBuffer vmas buf size → buf = 0 ∨ ∀ x, buf ≤ x → x < buf+size → m x = 0) := by
  rw [KeepsBuffer, getprocs_fails_iff]
  refine forall_congr' (fun hrefused => ?_)
  rw [getprocs_refused vmas allproc zombproc buf size hrefused]
  by_cases hnull : buf = 0
  · have hnone : clearWrites buf size = [] := if_pos (Or.inr hnull)
    rw [hnone]
    exact iff_of_true (fun x _ _ => rfl) (Or.inl hnull)
  · rw [or_iff_right hnull]
    refine forall_congr' (fun x => forall₂_congr (fun hlow hhigh => ?_))
    rw [cleared_byte m (by omega) hlow hhigh, eq_comm]

end

/-- When a check can be trusted, and when a call that fails leaves its buffer alone. -/
theorem buffer_checks_iff (vmas : List Vma) (addr n : Word) (type : Access) (hn : 1 ≤ n.toNat)
    (allproc zombproc : List ProcessInfo) (buf size : ℕ) (m : Mem) :
    (Sound vmas addr n type ↔ Trusted vmas addr n type) ∧
      (KeepsBuffer vmas allproc zombproc buf size m ↔
        (RefusedBuffer vmas buf size → buf = 0 ∨ ∀ x, buf ≤ x → x < buf+size → m x = 0)) :=
  ⟨trusted_iff hn,keeps_buffer_iff vmas allproc zombproc buf size m⟩

/-- A heap and the stack, which starts at its upper end. -/
def heapAndStack : List Vma :=
  [⟨kernelPtr 0x6000,0x400000,0x400FFF,0,4096,0,protWrite,none,.doAnonFault⟩,
    ⟨kernelPtr 0x7000,stackStart,stackStart-3*4096,0,3*4096,0,protWrite,none,.doAnonFault⟩]

theorem buffer_checks_iff_stack :
    Sound heapAndStack (stackStart-4096) 1024 .verifyWrite ∧
      KeepsBuffer heapAndStack [] [] 0x400010 64 (fun _ => 1) := by
  obtain ⟨hsound,hkeeps⟩ := buffer_checks_iff heapAndStack (stackStart-4096) 1024 .verifyWrite
    (by decide) [] [] 0x400010 64 (fun _ => 1)
  refine ⟨hsound.mpr ?_,hkeeps.mpr ?_⟩
  · exact ⟨_,List.mem_cons_of_mem _ (List.mem_singleton_self _),by decide,by decide⟩
  · rintro ⟨v,hv,hzero⟩
    obtain rfl := Option.some.inj hv
    exact absurd hzero (by decide)

/-- Without any VMA the check returns -1, which is not zero. -/
theorem nothing_mapped_accepted : ¬ Sound [] 4096 1 .verifyWrite := by
  intro h
  obtain ⟨v,hv,-⟩ := h (by decide)
  cases hv

@[ext]
structure Printed where
  pid : List Byte
  ppid : List Byte
  command : List Byte
  deriving DecidableEq

structure PsPrints (m : Mem) (buf n : ℕ) (records : List Printed) : Prop where
  count : records.length = (n+31)/32
  pid : ∀ i r, records[i]? = some r → CString m (buf+32*i) r.pid
  ppid : ∀ i r, records[i]? = some r → CString m (buf+32*i+6) r.ppid
  command : ∀ i r, records[i]? = some r → CString m (buf+32*i+12) r.command

def decimal (n : ℕ) : List Byte := (Nat.toDigits 10 n).map (fun c => BitVec.ofNat 8 c.toNat)

def shown (process : ProcessInfo) : Printed :=
  ⟨decimal process.pid.toNat,decimal process.ppid.toNat,process.command.take 19⟩

def PsAgrees (vmas : List Vma) (allproc zombproc : List ProcessInfo) (b : UserBuffer) (m : Mem) :
    Prop :=
  Stays b (sysGetprocs64 vmas allproc zombproc b.addr b.size).1 ∧
    PsPrints (performAll (sysGetprocs64 vmas allproc zombproc b.addr b.size).1 m) b.addr
      ((sysGetprocs64 vmas allproc zombproc b.addr b.size).2%2^64).toNat
      (((allproc++zombproc).take (b.size/32)).map shown)

theorem getprocs_clears {vmas : List Vma} {allproc zombproc : List ProcessInfo} {b : UserBuffer}
    (h : Stays b (sysGetprocs64 vmas allproc zombproc b.addr b.size).1) :
    Stays b (clearWrites b.addr b.size) := by
  rw [sysGetprocs64] at h
  split_ifs at h
  · exact h
  · exact ((stays_append b).mp h).1

theorem record_leaves {b : UserBuffer} (hempty : b.size = 0) (process : ProcessInfo)
    (rest : List ProcessInfo) : ¬ Stays b (listLoop b.addr b.size 0 (process::rest)).1 := by
  intro h
  rw [listLoop, if_neg (Nat.not_lt_zero _), recordWrites, stays_append, stays_append,
    stays_append] at h
  have hfirst := (stays_copy b 0 (by simp)).mp h.1.1.1
  rw [List.length_append, List.length_singleton] at hfirst
  omega

theorem empty_list_iff {b : UserBuffer} (hempty : b.size = 0)
    (allproc zombproc : List ProcessInfo) :
    Stays b (listProcesses b.addr b.size allproc zombproc).1 ↔ allproc = [] ∧ zombproc = [] := by
  rw [listProcesses]
  cases allproc with
  | nil =>
    dsimp only [listLoop]
    cases zombproc with
    | nil => simp [Stays, listLoop]
    | cons process rest =>
      refine iff_of_false (fun h => record_leaves hempty process rest h) ?_
      rintro ⟨-,hnil⟩
      cases hnil
  | cons process rest =>
    refine iff_of_false (fun h => record_leaves hempty process rest ?_) (fun h => nomatch h.1)
    dsimp only at h
    cases hlive : (listLoop b.addr b.size 0 (process::rest)).2 with
    | none =>
      rw [hlive] at h
      exact h
    | some n =>
      rw [hlive] at h
      exact ((stays_append b).mp h).1

/-- The call and `ps` agree on no process in an empty buffer, and on nothing else. A
buffer that is not empty is cleared too far. -/
theorem ps_agrees_iff (vmas : List Vma) (allproc zombproc : List ProcessInfo) (b : UserBuffer)
    (m : Mem) : PsAgrees vmas allproc zombproc b m ↔
      b.size = 0 ∧ allproc = [] ∧ zombproc = [] ∧ ¬ RefusedBuffer vmas b.addr b.size := by
  constructor
  · rintro ⟨hstays,hprints⟩
    have hempty : b.size = 0 := by
      by_contra hsize
      exact clear_leaves (by omega) (getprocs_clears hstays)
    have hcount := hprints.count
    rw [show b.size/32 = 0 by omega, List.take_zero, List.map_nil, List.length_nil] at hcount
    by_cases hrefused : RefusedBuffer vmas b.addr b.size
    · have hall : ((-1 : ℤ)%2^64).toNat = 2^64-1 := by decide
      rw [getprocs_refused vmas allproc zombproc _ _ hrefused, hall] at hcount
      omega
    · rw [getprocs_accepted vmas allproc zombproc _ _ hrefused] at hstays
      have hlist := (empty_list_iff hempty allproc zombproc).mp ((stays_append b).mp hstays).2
      exact ⟨hempty,hlist.1,hlist.2,hrefused⟩
  · rintro ⟨hempty,rfl,rfl,haccepted⟩
    have hnothing : sysGetprocs64 vmas [] [] b.addr b.size = ([],0) := by
      rw [getprocs_accepted vmas [] [] _ _ haccepted, hempty, clearWrites, if_pos (Or.inl rfl)]
      rfl
    rw [PsAgrees, hnothing]
    refine ⟨by simp [Stays],?_⟩
    constructor
    case count => simp
    case pid => simp
    case ppid => simp
    case command => simp

def twoProcesses : List ProcessInfo × List ProcessInfo := ([⟨1,0,[112,115]⟩],[⟨2,1,[108,115]⟩])

/-- The clearing of a buffer of 1024 bytes goes one byte too far. -/
theorem ps_buffer_overrun :
    ¬ Stays listingBuffer (sysGetprocs64 [] twoProcesses.1 twoProcesses.2 listingBuffer.addr
        listingBuffer.size).1 ∧
      ¬ PsAgrees [] twoProcesses.1 twoProcesses.2 listingBuffer (fun _ => 0) := by
  have hleaves : ¬ Stays listingBuffer (sysGetprocs64 [] twoProcesses.1 twoProcesses.2
      listingBuffer.addr listingBuffer.size).1 :=
    fun h => clear_leaves (by decide) (getprocs_clears h)
  exact ⟨hleaves,fun h => hleaves h.1⟩

theorem listLoop_room (buf : ℕ) {size : ℕ} (n : ℕ) {ps : List ProcessInfo}
    (h : n+32*ps.length ≤ size) :
    listLoop buf size n ps = (slotWrites (recordWrites buf) n ps,some (n+32*ps.length)) := by
  induction ps generalizing n with
  | nil => rfl
  | cons p ps ih =>
    rw [List.length_cons] at h ⊢
    rw [listLoop, if_neg (by omega), ih (n+32) (by omega), slotWrites,
      show n+32+32*ps.length = n+32*(ps.length+1) by ring]

theorem listProcesses_room (buf : ℕ) {size : ℕ} {allproc zombproc : List ProcessInfo}
    (h : 32*(allproc++zombproc).length ≤ size) :
    listProcesses buf size allproc zombproc = (slotWrites (recordWrites buf) 0 (allproc++zombproc),
      ((32*(allproc++zombproc).length : ℕ) : ℤ)) := by
  rw [List.length_append] at h
  rw [listProcesses, listLoop_room buf 0 (by omega)]
  dsimp only
  rw [listLoop_room buf _ (by omega), slotWrites_append, Option.getD_some, Nat.zero_add,
    List.length_append, Nat.mul_add]

theorem digit_text {d : ℕ} (hd : d < 10) : digit d ≠ 0 ∧
    digit d = BitVec.ofNat 8 (Nat.digitChar d).toNat := by
  interval_cases d <;> decide

theorem digitsBefore_decimal {k : ℕ} (n : ℕ) (p : List Byte) (hpos : 0 < n) (hn : n < 10^k) :
    digitsBefore 10 k n p = decimal n++p := by
  induction k generalizing n p with
  | zero => omega
  | succ k ih =>
    have hdigit := (digit_text (Nat.mod_lt n (by decide))).2
    rw [digitsBefore, if_neg (by omega)]
    by_cases hsmall : n < 10
    · rw [Nat.div_eq_of_lt hsmall, Nat.mod_eq_of_lt hsmall, decimal,
        Nat.toDigits_of_lt_base hsmall, (digit_text hsmall).2]
      cases k <;> rfl
    · rw [ih (n/10) _ (by omega) (by rw [Nat.pow_succ] at hn; omega), hdigit, decimal, decimal,
        Nat.toDigits_of_base_le (by decide) (not_lt.mp hsmall)]
      simp

theorem itoa_decimal (i : BitVec 16) : itoa (i.setWidth 32) = decimal i.toNat := by
  have hlt := i.isLt
  have hwide : (i.setWidth 32).toNat = i.toNat := by
    rw [BitVec.toNat_setWidth]
    omega
  rw [itoa, numeral, hwide]
  by_cases hzero : i.toNat = 0
  · rw [if_pos hzero, hzero]
    decide
  · rw [if_neg hzero, digitsBefore_decimal _ _ (by omega) (by omega), List.append_nil]

theorem decimal_text {n : ℕ} : ∀ b ∈ decimal n, b ≠ 0 := by
  induction n using Nat.strong_induction_on with
  | _ n ih =>
    intro b hb
    by_cases hsmall : n < 10
    · rw [decimal, Nat.toDigits_of_lt_base hsmall, List.map_singleton, List.mem_singleton] at hb
      rw [hb, ← (digit_text hsmall).2]
      exact (digit_text hsmall).1
    · rw [decimal, Nat.toDigits_of_base_le (by decide) (not_lt.mp hsmall), List.map_append] at hb
      rcases List.mem_append.mp hb with hb | hb
      · exact ih (n/10) (by omega) b hb
      · have hdigit := digit_text (Nat.mod_lt n (by decide))
        rw [List.map_singleton, List.mem_singleton] at hb
        rw [hb, ← hdigit.2]
        exact hdigit.1

theorem decimal_length {k : ℕ} (n : ℕ) (hn : n < 10^(k+1)) : (decimal n).length ≤ k+1 := by
  induction k generalizing n with
  | zero => rw [decimal, Nat.toDigits_of_lt_base (by omega)]; rfl
  | succ k ih =>
    by_cases hsmall : n < 10
    · rw [decimal, Nat.toDigits_of_lt_base hsmall, List.map_singleton, List.length_singleton]
      omega
    · have hrest := ih (n/10) (by rw [Nat.pow_succ] at hn; omega)
      rw [decimal, List.length_map] at hrest
      rw [decimal, Nat.toDigits_of_base_le (by decide) (not_lt.mp hsmall), List.length_map,
        List.length_append, List.length_singleton]
      omega

structure Fitting (process : ProcessInfo) : Prop where
  text : ∀ b ∈ process.command, b ≠ 0
  short : process.command.length ≤ 19

structure Recorded (m : Mem) (a : ℕ) (r : Printed) : Prop where
  pid : CString m a r.pid
  ppid : CString m (a+6) r.ppid
  command : CString m (a+12) r.command

theorem number_length (i : BitVec 16) : (decimal i.toNat).length ≤ 5 :=
  decimal_length i.toNat (by have hlt := i.isLt; omega)

theorem shown_lengths (process : ProcessInfo) : (shown process).pid.length ≤ 5 ∧
    (shown process).ppid.length ≤ 5 ∧ (shown process).command.length ≤ 19 :=
  ⟨number_length process.pid,number_length process.ppid,List.length_take_le 19 _⟩

theorem record_inside (buf n : ℕ) (process : ProcessInfo) (hf : Fitting process) :
    ∀ w ∈ recordWrites buf n process, buf+n ≤ place w ∧ place w < buf+n+32 := by
  have hpid := number_length process.pid
  have hppid := number_length process.ppid
  have hcommand := hf.short
  intro w hw
  rw [recordWrites, itoa_decimal, itoa_decimal] at hw
  simp only [List.mem_append] at hw
  rcases hw with (hw | hw) | hw
  · have hplace := copy_places buf n _ w hw
    rw [List.length_append, List.length_singleton] at hplace
    omega
  · have hplace := copy_places buf (n+6) _ w (by exact_mod_cast hw)
    rw [List.length_append, List.length_singleton] at hplace
    omega
  · have hplace := copy_places buf (n+12) _ w (by exact_mod_cast hw)
    rw [List.length_append, List.length_singleton] at hplace
    omega

theorem record_read (buf n : ℕ) (m : Mem) {process : ProcessInfo} (hf : Fitting process) :
    Recorded (performAll (recordWrites buf n process) m) (buf+n) (shown process) := by
  obtain ⟨hpid,hppid,-⟩ := shown_lengths process
  rw [recordWrites, performAll_append, performAll_append, itoa_decimal, itoa_decimal]
  -- each field is kept by the fields that are written behind it
  constructor
  case pid =>
    refine cString_kept (cString_kept
      (cString_copied buf n m (decimal_text)) (fun w hw => Or.inr ?_)) (fun w hw => Or.inr ?_)
    · have hplace := copy_places buf (n+6) _ w (by exact_mod_cast hw)
      omega
    · have hplace := copy_places buf (n+12) _ w (by exact_mod_cast hw)
      omega
  case ppid =>
    refine cString_kept
      (by exact_mod_cast cString_copied buf (n+6) _ (decimal_text)) (fun w hw => Or.inr ?_)
    have hplace := copy_places buf (n+12) _ w (by exact_mod_cast hw)
    omega
  case command =>
    rw [shown, List.take_of_length_le hf.short]
    exact_mod_cast cString_copied buf (n+12) _ hf.text

theorem record_format (buf : ℕ) : SlotFormat buf (recordWrites buf) Fitting
    (fun m a process => Recorded m a (shown process)) := by
  constructor
  case inside => exact record_inside buf
  case written => exact fun n process m hf _ => record_read buf n m hf
  case kept =>
    intro ws m a process _ hr hws
    obtain ⟨hpid,hppid,hcommand⟩ := shown_lengths process
    have hbehind : ∀ k s, k+s.length < 32 → CString m (a+k) s →
        CString (performAll ws m) (a+k) s := by
      intro k s hk hs
      refine cString_kept hs (fun w hw => Or.inr ?_)
      have hplace := hws w hw
      omega
    constructor
    case pid => exact hbehind 0 _ (by omega) hr.pid
    case ppid => exact hbehind 6 _ (by omega) hr.ppid
    case command => exact hbehind 12 _ (by omega) hr.command

/-- If there is room for all processes, then `ps` prints each of them with its command.
Only the byte behind the buffer is lost. -/
theorem records_printed (vmas : List Vma) (allproc zombproc : List ProcessInfo) (b : UserBuffer)
    (m : Mem) (haccepted : ¬ RefusedBuffer vmas b.addr b.size)
    (hroom : 32*(allproc++zombproc).length ≤ b.size) (hf : ∀ p ∈ allproc++zombproc, Fitting p) :
    (sysGetprocs64 vmas allproc zombproc b.addr b.size).2 =
        ((32*(allproc++zombproc).length : ℕ) : ℤ) ∧
      PsPrints (performAll (sysGetprocs64 vmas allproc zombproc b.addr b.size).1 m) b.addr
        (32*(allproc++zombproc).length) ((allproc++zombproc).map shown) := by
  rw [getprocs_accepted vmas allproc zombproc _ _ haccepted, listProcesses_room b.addr hroom,
    performAll_append]
  have hread : ∀ i r, ((allproc++zombproc).map shown)[i]? = some r → Recorded (performAll
      (slotWrites (recordWrites b.addr) 0 (allproc++zombproc))
        (performAll (clearWrites b.addr b.size) m)) (b.addr+32*i) r := by
    intro i r hr
    rw [List.getElem?_map, Option.map_eq_some_iff] at hr
    obtain ⟨process,hprocess,rfl⟩ := hr
    exact slots_read (record_format b.addr) 0 hf _
      (fun x hlow hhigh => cleared_byte m b.nonnull hlow (by omega)) i hprocess
  refine ⟨rfl,?_⟩
  constructor
  case count =>
    rw [List.length_map]
    omega
  case pid => exact fun i r hr => (hread i r hr).pid
  case ppid => exact fun i r hr => (hread i r hr).ppid
  case command => exact fun i r hr => (hread i r hr).command

theorem records_printed_two :
    PsPrints (performAll (sysGetprocs64 [] twoProcesses.1 twoProcesses.2 0x7000 1024).1
      (fun _ => 0)) 0x7000 64 [⟨[49],[48],[112,115]⟩,⟨[50],[49],[108,115]⟩] := by
  have hfit : ∀ p ∈ twoProcesses.1++twoProcesses.2, Fitting p := by
    intro p hp
    simp only [twoProcesses, List.cons_append, List.nil_append, List.mem_cons, List.not_mem_nil,
      or_false] at hp
    rcases hp with rfl | rfl
    · exact ⟨by decide,by decide⟩
    · exact ⟨by decide,by decide⟩
  exact (records_printed [] twoProcesses.1 twoProcesses.2 listingBuffer (fun _ => 0)
    (fun ⟨_,h,_⟩ => nomatch h) (by decide) hfit).2

end PreemptiveOS.ProcessListing
