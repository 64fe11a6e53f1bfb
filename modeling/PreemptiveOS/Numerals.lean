import Mathlib.Data.Nat.Digits.Lemmas
import PreemptiveOS.Console

/-!
# Numbers and their text

The kernel and the library have a `convert_to_base` each. Both fill a local array
from its end with the digits of a number, the last one first, and copy the digits
out up to the zero at the end. The arrays differ in size only, and both have room
for the digits of any number in any base. `atoi` gets the number back from its
decimal text, as long as it is an `int`.
-/

set_option autoImplicit false

namespace PreemptiveOS.Numerals
open ByteMemory Console

def digitLoop (base : ℕ) : ℕ → ℕ → List Byte → Option (ℕ × List Byte)
  | 0, ret, p => if ret = 0 then some (0,p) else none
  | j+1, ret, p =>
    if ret = 0 then some (j+1,p) else digitLoop base j (ret/base) (p.set j (digit (ret%base)))

def copyOut : List Byte → Option (List Byte)
  | [] => none
  | b::bs => if b = 0 then some [0] else (copyOut bs).map (fun s => b::s)

def convertWith (size : ℕ) (old : ℕ → Byte) (i : BitVec 32) (base : ℕ) : Option (List Byte) :=
  let p := ((List.range size).map old).set (size-1) 0
  let start := if i = 0 then (size-2,p.set (size-2) (digit 0)) else (size-1,p)
  (digitLoop base start.1 i.toNat start.2).bind (fun r => copyOut (r.2.drop r.1))

def kernelConvertToBase (old : ℕ → Byte) (i : BitVec 32) (base : ℕ) : Option (List Byte) :=
  convertWith 128 old i base

def libcConvertToBase (old : ℕ → Byte) (i : BitVec 32) (base : ℕ) : Option (List Byte) :=
  convertWith 64 old i base

def atoi : Option (List Byte) → BitVec 32
  | none => 0
  | some nptr => nptr.foldl (fun value c => value*10+(c.signExtend 32-48)) 0

def digitsOf (base n : ℕ) : List ℕ := if n = 0 then [0] else (Nat.digits base n).reverse

structure Denotes (base : ℕ) (ds : List ℕ) (n : ℕ) : Prop where
  below : ∀ d ∈ ds, d < base
  leading : ds.head? = some 0 → ds = [0]
  nonempty : ds ≠ []
  value : Nat.ofDigits base ds.reverse = n

variable {base : ℕ}

theorem digitsOf_denotes (n : ℕ) (hb : 2 ≤ base) : Denotes base (digitsOf base n) n := by
  by_cases hn : n = 0
  · subst hn
    rw [digitsOf, if_pos rfl]
    constructor
    case below => simpa using (by omega : 0 < base)
    case leading => exact fun _ => rfl
    case nonempty => exact List.cons_ne_nil _ _
    case value => simp
  · have hne : Nat.digits base n ≠ [] := Nat.digits_ne_nil_iff_ne_zero.mpr hn
    rw [digitsOf, if_neg hn]
    constructor
    case below =>
      intro d hd
      exact Nat.digits_lt_base (by omega) (List.mem_reverse.mp hd)
    case leading =>
      intro hz
      rw [List.head?_reverse, List.getLast?_eq_getLast_of_ne_nil hne] at hz
      exact absurd (Option.some.inj hz) (Nat.getLast_digit_ne_zero base hn)
    case nonempty => exact List.reverse_ne_nil_iff.mpr hne
    case value => rw [List.reverse_reverse, Nat.ofDigits_digits]

theorem digit_ne_zero {d : ℕ} (hd : d < 16) : digit d ≠ 0 := by
  interval_cases d <;> decide

theorem copyOut_text {text rest : List Byte} (ht : ∀ b ∈ text, b ≠ 0) :
    copyOut (text++0::rest) = some (text++[0]) := by
  induction text with
  | nil => rfl
  | cons b text ih =>
    rw [List.cons_append, copyOut, if_neg (ht b List.mem_cons_self),
      ih (fun c hc => ht c (List.mem_cons_of_mem b hc))]
    rfl

variable {j : ℕ}

theorem drop_set_self {p : List Byte} {b : Byte} (hj : j < p.length) :
    (p.set j b).drop j = b::p.drop (j+1) := by
  rw [List.drop_set, if_neg (lt_irrefl j), Nat.sub_self, List.drop_eq_getElem_cons hj]
  rfl

theorem digitLoop_digits (n : ℕ) (p : List Byte) (hb : 2 ≤ base)
    (hj : (Nat.digits base n).length ≤ j) (hp : j ≤ p.length) :
    ∃ k p', digitLoop base j n p = some (k,p') ∧
      p'.drop k = (Nat.digits base n).reverse.map digit++p.drop j := by
  induction j generalizing n p with
  | zero =>
    have hnil : Nat.digits base n = [] := List.length_eq_zero_iff.mp (Nat.le_zero.mp hj)
    have hn : n = 0 := Nat.digits_eq_nil_iff_eq_zero.mp hnil
    exact ⟨0,p,by rw [digitLoop, if_pos hn],by simp [hn]⟩
  | succ j ih =>
    by_cases hn : n = 0
    · exact ⟨j+1,p,by rw [digitLoop, if_pos hn],by simp [hn]⟩
    · have hdigits : Nat.digits base n = n%base::Nat.digits base (n/base) :=
        Nat.digits_def' (by omega) (by omega)
      rw [hdigits, List.length_cons] at hj
      obtain ⟨k,p',hloop,hdrop⟩ := ih (n/base) (p.set j (digit (n%base))) (by omega)
        (by rw [List.length_set]; omega)
      refine ⟨k,p',by rw [digitLoop, if_neg hn, hloop],?_⟩
      rw [hdrop, hdigits, List.reverse_cons, List.map_append, List.append_assoc,
        drop_set_self hp]
      rfl

theorem convertWith_digits {size : ℕ} (old : ℕ → Byte) (i : BitVec 32) (hsize : 34 ≤ size)
    (hb : 2 ≤ base) (hb' : base ≤ 16) :
    convertWith size old i base = some ((digitsOf base i.toNat).map digit++[0]) := by
  have hlen : (Nat.digits base i.toNat).length ≤ 32 := by
    rw [Nat.digits_length_le_iff (by omega)]
    exact i.isLt.trans_le (Nat.pow_le_pow_left hb 32)
  have htext : ∀ b ∈ (digitsOf base i.toNat).map digit, b ≠ 0 := by
    intro b hmem
    obtain ⟨d,hd,rfl⟩ := List.mem_map.mp hmem
    exact digit_ne_zero (((digitsOf_denotes i.toNat hb).below d hd).trans_le hb')
  rw [convertWith]
  generalize hp : ((List.range size).map old).set (size-1) 0 = p
  have hplen : p.length = size := by rw [← hp, List.length_set, List.length_map, List.length_range]
  have hlast : p.drop (size-1) = [0] := by
    rw [← hp, drop_set_self (by rw [List.length_map, List.length_range]; omega),
      List.drop_of_length_le (by rw [List.length_map, List.length_range]; omega)]
  have hstart : ∀ j q, j ≤ q.length → 32 ≤ j →
      q.drop j = (if i = 0 then [digit 0] else [])++[0] →
      (digitLoop base j i.toNat q).bind (fun r => copyOut (r.2.drop r.1)) =
        some ((digitsOf base i.toNat).map digit++[0]) := by
    intro j q hq hj hdrop
    obtain ⟨k,p',hloop,hdrop'⟩ := digitLoop_digits i.toNat q hb (hlen.trans hj) hq
    have hwhole : p'.drop k = (digitsOf base i.toNat).map digit++0::[] := by
      rw [hdrop', hdrop, digitsOf]
      by_cases hi : i = 0
      · simp [hi]
      · have hne : i.toNat ≠ 0 := fun hz => hi (BitVec.eq_of_toNat_eq hz)
        rw [if_neg hi, if_neg hne]
        rfl
    rw [hloop, Option.bind_some, hwhole, copyOut_text htext]
  by_cases hi : i = 0
  · rw [if_pos hi]
    apply hstart (size-2) _ (by rw [List.length_set]; omega) (by omega)
    rw [if_pos hi, drop_set_self (by omega), show size-2+1 = size-1 by omega, hlast]
    rfl
  · rw [if_neg hi]
    apply hstart (size-1) p (by omega) (by omega)
    rw [if_neg hi, hlast]
    rfl

theorem digitsBefore_digits {k : ℕ} (n : ℕ) (p : List Byte) (hb : 2 ≤ base)
    (hk : (Nat.digits base n).length ≤ k) :
    digitsBefore base k n p = (Nat.digits base n).reverse.map digit++p := by
  induction k generalizing n p with
  | zero =>
    rw [List.length_eq_zero_iff.mp (Nat.le_zero.mp hk)]
    rfl
  | succ k ih =>
    by_cases hn : n = 0
    · simp [digitsBefore, hn]
    · have hdigits : Nat.digits base n = n%base::Nat.digits base (n/base) :=
        Nat.digits_def' (by omega) (by omega)
      rw [hdigits, List.length_cons] at hk
      rw [digitsBefore, if_neg hn, ih (n/base) _ (by omega), hdigits, List.reverse_cons,
        List.map_append, List.append_assoc]
      rfl

theorem numeral_digits {n : ℕ} (hb : 2 ≤ base) (hn : n < 2^32) :
    numeral base n = (digitsOf base n).map digit := by
  have hlen : (Nat.digits base n).length ≤ 32 := by
    rw [Nat.digits_length_le_iff (by omega)]
    exact hn.trans_le (Nat.pow_le_pow_left hb 32)
  rw [numeral, digitsOf]
  by_cases hz : n = 0
  · rw [if_pos hz, if_pos hz]
    rfl
  · rw [if_neg hz, if_neg hz, digitsBefore_digits n [] hb hlen, List.append_nil]

theorem converted (old old' : ℕ → Byte) (i : BitVec 32) (base : ℕ) (hb : 2 ≤ base)
    (hb' : base ≤ 16) : kernelConvertToBase old i base = some (convertToBase i base++[0]) ∧
      libcConvertToBase old' i base = some (convertToBase i base++[0]) := by
  rw [convertToBase, numeral_digits hb i.isLt]
  exact ⟨convertWith_digits old i (by decide) hb hb',
    convertWith_digits old' i (by decide) hb hb'⟩

theorem digit_value (d : ℕ) (hd : d < 10) :
    (digit d).signExtend 32-48 = BitVec.ofNat 32 d := by
  interval_cases d <;> decide

theorem atoi_digits {ds : List ℕ} (hds : ∀ d ∈ ds, d < 10) (v : ℕ) :
    (ds.map digit).foldl (fun value c => value*10+(c.signExtend 32-48)) (BitVec.ofNat 32 v) =
      BitVec.ofNat 32 (v*10^ds.length+Nat.ofDigits 10 ds.reverse) := by
  induction ds generalizing v with
  | nil => simp
  | cons d ds ih =>
    have hstep : BitVec.ofNat 32 v*10+((digit d).signExtend 32-48) = BitVec.ofNat 32 (v*10+d) := by
      rw [digit_value d (hds d List.mem_cons_self), BitVec.ofNat_add, BitVec.ofNat_mul]
      rfl
    rw [List.map_cons, List.foldl_cons, hstep, ih (fun e he => hds e (List.mem_cons_of_mem d he)),
      List.reverse_cons, Nat.ofDigits_append, List.length_reverse, Nat.ofDigits_singleton,
      List.length_cons]
    congr 1
    ring

/-- A number is written the same way by the kernel and by the library, with its digits in
the base, and its decimal text is read back if it is an `int`. -/
theorem numbers_round_trip (old old' : ℕ → Byte) (i : BitVec 32) (base : ℕ) (hb : 2 ≤ base)
    (hb' : base ≤ 16) : ∃ ds, Denotes base ds i.toNat ∧
      kernelConvertToBase old i base = some (ds.map digit++[0]) ∧
      libcConvertToBase old' i base = some (ds.map digit++[0]) ∧
      (base = 10 → i.toNat < 2^31 → (atoi (some (ds.map digit))).toInt = i.toNat) := by
  have hden := digitsOf_denotes i.toNat hb
  refine ⟨digitsOf base i.toNat,hden,convertWith_digits old i (by decide) hb hb',
    convertWith_digits old' i (by decide) hb hb',?_⟩
  rintro rfl hi
  have hatoi := atoi_digits hden.below 0
  rw [hden.value, Nat.zero_mul, Nat.zero_add, BitVec.ofNat_toNat, BitVec.setWidth_eq] at hatoi
  have hread : atoi (some ((digitsOf 10 i.toNat).map digit)) = i := hatoi
  rw [hread, BitVec.toInt_eq_toNat_of_lt (by omega)]

theorem numbers_round_trip_decimal : ∃ ds, Denotes 10 ds 1047 ∧
    kernelConvertToBase (fun _ => 7) 1047 10 = some (ds.map digit++[0]) ∧
    libcConvertToBase (fun _ => 9) 1047 10 = some (ds.map digit++[0]) ∧
    (atoi (some (ds.map digit))).toInt = 1047 := by
  obtain ⟨ds,hden,hkernel,hlibc,hread⟩ :=
    numbers_round_trip (fun _ => 7) (fun _ => 9) 1047 10 (by decide) (by decide)
  exact ⟨ds,hden,hkernel,hlibc,hread rfl (by decide)⟩

end PreemptiveOS.Numerals
