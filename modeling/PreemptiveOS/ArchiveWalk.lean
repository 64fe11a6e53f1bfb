import Mathlib.Algebra.BigOperators.Ring.Finset
import Mathlib.Tactic.Ring
import PreemptiveOS.Tarfs

/-!
# The walk over the headers

The address of the next header is computed from the eleven bytes of the size
field, whatever they are. A byte below the digit zero counts as a negative digit,
so the size may be negative. The step is then zero for the sizes from -1023 to
-512, and below that it leads backwards.

Both walks, that of `tarfs_init` and that of `tarfs_print_all_contents`, end if
no step of them is like that, and on archives none is.
-/

set_option autoImplicit false

namespace PreemptiveOS.ArchiveWalk
open ByteMemory KernelObjects Tarfs

def IsHeader (m : Mem) (temp : Word) : Prop :=
  myMemcmp (bytesAt m (temp.toNat+257) 5) ustar 5 = 0

instance instDecidableIsHeader (m : Mem) (temp : Word) : Decidable (IsHeader m temp) :=
  inferInstanceAs (Decidable (_ = _))

def nextHeader (m : Mem) (temp : Word) : Word :=
  temp+((oct2dec m (temp.toNat+124) 11 0+511)/512+1)*512

def tarfsPrintAllContents (m : Mem) : ℕ → Word → Option (List Word)
  | 0, _ => none
  | steps+1, temp =>
    if IsHeader m temp then
      (tarfsPrintAllContents m steps (nextHeader m temp)).map (fun passed => temp::passed)
    else some []

def addHeaders (m : Mem) : List Word → BitVec 32 → FileSystem → Option FileSystem
  | [], _, fs => some fs
  | temp::rest, inodeNum, fs =>
    (addHeader m temp.toNat inodeNum fs).bind (addHeaders m rest (inodeNum+1))

def Advances (m : Mem) (temp : Word) : Prop :=
  ∃ k, 0 < k ∧ (nextHeader m temp).toNat = temp.toNat+512*k

inductive Reached (m : Mem) (start : Word) : Word → Prop
  | first : Reached m start start
  | next (temp : Word) (h : Reached m start temp) (hheader : IsHeader m temp) :
      Reached m start (nextHeader m temp)

structure MovesForward (m : Mem) (start : Word) : Prop where
  advances : ∀ temp, Reached m start temp → IsHeader m temp → Advances m temp
  ends : ∃ steps passed, tarfsPrintAllContents m steps start = some passed ∧
    ∀ inodeNum fs, tarfsLoop m steps start.toNat inodeNum fs = addHeaders m passed inodeNum fs

def octalValue (m : Mem) (a k : ℕ) : ℤ :=
  ∑ i ∈ Finset.range k, ((m (a+i)).toNat-48)*8^(k-1-i)

theorem octalValue_succ (m : Mem) (a k : ℕ) :
    octalValue m a (k+1) = octalValue m a k*8+((m (a+k)).toNat-48) := by
  rw [octalValue, Finset.sum_range_succ, octalValue, Finset.sum_mul]
  congr 1
  · refine Finset.sum_congr rfl (fun i hi => ?_)
    rw [Finset.mem_range] at hi
    rw [show k+1-1-i = k-1-i+1 by omega, pow_succ]
    ring
  · rw [show k+1-1-k = 0 by omega, pow_zero, mul_one]

theorem octalValue_bounds (m : Mem) (a k : ℕ) :
    -48*(8^k-1) ≤ 7*octalValue m a k ∧ 7*octalValue m a k ≤ 207*(8^k-1) := by
  induction k with
  | zero => simp [octalValue]
  | succ k ih =>
    have hbyte := (m (a+k)).isLt
    rw [octalValue_succ, pow_succ]
    omega

theorem oct2dec_value (m : Mem) (a k : ℕ) :
    oct2dec m a k 0 = BitVec.ofInt 64 (octalValue m a k) := by
  induction k with
  | zero => rfl
  | succ k ih =>
    have hbyte : (m (a+k)).setWidth 64 = BitVec.ofInt 64 (m (a+k)).toNat := by
      rw [BitVec.ofInt_natCast]
      exact BitVec.eq_of_toNat_eq (by simp)
    rw [oct2dec_append, ih, octalValue_succ, BitVec.ofInt_add, BitVec.ofInt_mul, hbyte,
      sub_eq_add_neg ((m (a+k)).toNat : ℤ), BitVec.ofInt_add, BitVec.sub_eq_add_neg]
    rfl

def blockStep (size : ℤ) : ℤ := ((size+511)/512+1)*512

theorem step_word (size : ℤ) (hlow : -2^38 ≤ size) (hhigh : size < 2^38) :
    ((((BitVec.ofInt 64 size+511)/512+1)*512 : Word).toNat : ℤ) = blockStep size%2^64 := by
  rw [BitVec.toNat_mul, BitVec.toNat_add, BitVec.toNat_udiv, BitVec.toNat_add, BitVec.toNat_ofInt,
    show (511 : Word).toNat = 511 from rfl, show (512 : Word).toNat = 512 from rfl,
    show (1 : Word).toNat = 1 from rfl, blockStep]
  omega

theorem nextHeader_value (m : Mem) (temp : Word) : ((nextHeader m temp).toNat : ℤ) =
    (temp.toNat+blockStep (octalValue m (temp.toNat+124) 11))%2^64 := by
  have hbounds := octalValue_bounds m (temp.toNat+124) 11
  have hstep := step_word (octalValue m (temp.toNat+124) 11) (by omega) (by omega)
  rw [nextHeader, oct2dec_value, BitVec.toNat_add, Int.natCast_mod, Nat.cast_add, hstep]
  simp

def Forward (m : Mem) (temp : Word) : Prop :=
  let size := octalValue m (temp.toNat+124) 11
  (-511 ≤ size ∧ temp.toNat+blockStep size < 2^64) ∨ temp.toNat+blockStep size < 0

theorem advances_iff (m : Mem) (temp : Word) : Advances m temp ↔ Forward m temp := by
  have hnext := nextHeader_value m temp
  have hbounds := octalValue_bounds m (temp.toNat+124) 11
  have htemp := temp.isLt
  rw [Advances, Forward]
  generalize octalValue m (temp.toNat+124) 11 = size at hnext hbounds ⊢
  rw [blockStep] at hnext ⊢
  constructor
  · rintro ⟨k,hk,hmoved⟩
    omega
  · intro hforward
    refine ⟨((nextHeader m temp).toNat-temp.toNat)/512,?_,?_⟩ <;> omega

variable {m : Mem} {temp : Word}

theorem loop_step (hheader : IsHeader m temp) (hadvances : Advances m temp) (steps : ℕ)
    (inodeNum : BitVec 32) (fs : FileSystem) :
    tarfsLoop m (steps+1) temp.toNat inodeNum fs = (addHeader m temp.toNat inodeNum fs).bind
      (tarfsLoop m steps (nextHeader m temp).toNat (inodeNum+1)) := by
  obtain ⟨k,-,hmoved⟩ := hadvances
  have hsum : (nextHeader m temp).toNat =
      temp.toNat+(((oct2dec m (temp.toNat+124) 11 0+511)/512+1)*512).toNat := by
    rw [nextHeader, BitVec.toNat_add] at hmoved ⊢
    have htemp := temp.isLt
    omega
  rw [IsHeader] at hheader
  rw [tarfsLoop, if_pos hheader, hsum]

variable {start : Word}

/-- A walk that only moves forward ends, since there are finitely many addresses. The
induction is on those that are left. -/
theorem walk_ends (h : ∀ temp, Reached m start temp → IsHeader m temp → Advances m temp)
    (left : ℕ) (temp : Word) (hreached : Reached m start temp) (hleft : 2^64 ≤ temp.toNat+left) :
    ∃ steps passed, tarfsPrintAllContents m steps temp = some passed ∧
      ∀ inodeNum fs, tarfsLoop m steps temp.toNat inodeNum fs = addHeaders m passed inodeNum fs := by
  induction left generalizing temp with
  | zero =>
    have htemp := temp.isLt
    omega
  | succ left ih =>
    by_cases hheader : IsHeader m temp
    · have hadvances := h temp hreached hheader
      obtain ⟨k,hk,hmoved⟩ := id hadvances
      obtain ⟨steps,passed,hwalk,hloop⟩ := ih (nextHeader m temp)
        (Reached.next temp hreached hheader) (by omega)
      refine ⟨steps+1,temp::passed,?_,fun inodeNum fs => ?_⟩
      · rw [tarfsPrintAllContents, if_pos hheader, hwalk, Option.map_some]
      · rw [loop_step hheader hadvances, addHeaders]
        exact congrArg _ (funext (fun fs' => hloop (inodeNum+1) fs'))
    · refine ⟨1,[],?_,fun inodeNum fs => ?_⟩
      · rw [tarfsPrintAllContents, if_neg hheader]
      · rw [IsHeader] at hheader
        rw [tarfsLoop, if_neg hheader, addHeaders]

theorem moves_forward (h : ∀ temp, Reached m start temp → IsHeader m temp → Advances m temp) :
    MovesForward m start := by
  constructor
  case advances => exact h
  case ends => exact walk_ends h (2^64) start Reached.first (by omega)

/-- The walk moves forward exactly where the size field of every header that it reaches
lets it. -/
theorem moves_forward_iff (m : Mem) (start : Word) : MovesForward m start ↔
    ∀ temp, Reached m start temp → IsHeader m temp → Forward m temp := by
  constructor
  · intro hmoves temp hreached hheader
    exact (advances_iff m temp).mp (hmoves.advances temp hreached hheader)
  · intro hforward
    refine moves_forward (fun temp hreached hheader => ?_)
    exact (advances_iff m temp).mpr (hforward temp hreached hheader)

def AtEntry (m : Mem) (es : List UstarEntry) (limit : ℕ) (temp : Word) : Prop :=
  ∃ rest, (∀ e ∈ rest, e ∈ es) ∧ Holds m temp.toNat (encode rest) ∧
    temp.toNat+(encode rest).length ≤ limit

theorem last_block (h : Holds m temp.toNat (encode [])) : ¬ IsHeader m temp := by
  rw [IsHeader, last_magic h]
  decide

theorem entry_step {es : List UstarEntry} (hv : ∀ e ∈ es, Storable e) {limit : ℕ}
    (hlimit : limit ≤ 2^64) (h : AtEntry m es limit temp) (hheader : IsHeader m temp) :
    Advances m temp ∧ AtEntry m es limit (nextHeader m temp) := by
  obtain ⟨rest,hrest,hholds,hroom⟩ := h
  cases rest with
  | nil => exact absurd hheader (last_block hholds)
  | cons e rest =>
    obtain ⟨he,hothers⟩ := List.forall_mem_cons.mp hrest
    obtain ⟨hentry,hbehind⟩ := holds_cons hholds
    have hlength : (encode (e::rest)).length = (encodeEntry e).length+(encode rest).length := by
      rw [encode, List.map_cons, List.flatten_cons, List.append_assoc, List.length_append, encode]
    have hblock : 512 ≤ (encode rest).length := by
      rw [encode, List.length_append, List.length_replicate]
      omega
    have hnext : (nextHeader m temp).toNat = temp.toNat+(encodeEntry e).length := by
      rw [nextHeader, header_size hentry (hv e he), BitVec.toNat_add,
        next_header (hv e he).octal, ← entry_length]
      exact Nat.mod_eq_of_lt (by omega)
    refine ⟨⟨(e.data.length+511)/512+1,by omega,?_⟩,rest,hothers,?_,?_⟩
    · rw [hnext, entry_length, Nat.mul_comm]
    · rw [hnext]
      exact hbehind
    · rw [hnext]
      omega

theorem archive_moves_forward (m : Mem) (start : Word) (es : List UstarEntry)
    (hv : ∀ e ∈ es, Storable e) (h : Holds m start.toNat (encode es))
    (hroom : start.toNat+(encode es).length ≤ 2^64) : MovesForward m start := by
  have hat : ∀ temp, Reached m start temp → AtEntry m es (2^64) temp := by
    intro temp hreached
    induction hreached with
    | first => exact ⟨es,fun e he => he,h,hroom⟩
    | next temp _ hheader ih => exact (entry_step hv le_rfl ih hheader).2
  refine moves_forward (fun temp hreached hheader => ?_)
  exact (entry_step hv le_rfl (hat temp hreached) hheader).1

def stuckImage : Mem := fun i =>
  if i = 132 then 33 else if i = 133 then 43 else if 257 ≤ i then ustar.getD (i-257) 0 else 48

theorem stuck_next : IsHeader stuckImage 0 ∧ nextHeader stuckImage 0 = 0 := by decide

/-- The walk stays at the header. -/
theorem walk_stuck : ¬ MovesForward stuckImage 0 ∧
    ∀ steps, tarfsPrintAllContents stuckImage steps 0 = none := by
  obtain ⟨hheader,hnext⟩ := stuck_next
  constructor
  · intro hmoves
    obtain ⟨k,hk,hmoved⟩ := hmoves.advances 0 Reached.first hheader
    rw [hnext] at hmoved
    omega
  · intro steps
    induction steps with
    | zero => rfl
    | succ steps ih => rw [tarfsPrintAllContents, if_pos hheader, hnext, ih, Option.map_none]

end PreemptiveOS.ArchiveWalk
