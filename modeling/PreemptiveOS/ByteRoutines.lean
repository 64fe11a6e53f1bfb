import PreemptiveOS.TarfsLookup

/-!
# Setting and comparing bytes

`my_memset` writes a zero behind the bytes that it sets, so that a table behind a
frame that is cleared loses the low byte of its first entry. `my_memcmp` adds up the
differences of the bytes in an `int`. The sum is zero whenever the bytes have the
same sum, in whatever order they are.
-/

set_option autoImplicit false

namespace PreemptiveOS.ByteRoutines
open ByteMemory VirtMmgr KernelObjects TarfsLookup

structure SetsRange (m : Mem) (s n : ℕ) (c : Byte) (m' : Mem) : Prop where
  inside : ∀ x, s ≤ x → x < s+n → m' x = c
  outside : ∀ x, x < s ∨ s+n ≤ x → m' x = m x

theorem memset_byte (m : Mem) (s n : ℕ) (c : Byte) (hs : s ≠ 0) (hn : 1 ≤ n) (x : ℕ) :
    myMemset m s c n x = if x = s+n then 0 else if s ≤ x ∧ x < s+n then c else m x := by
  rw [myMemset, if_neg (by omega), memsetLoop_eq]
  rfl

theorem load_low (m : Mem) (a : ℕ) : (load m a).setWidth 8 = m a := by
  apply BitVec.eq_of_getLsbD_eq
  intro i hi
  rw [BitVec.getLsbD_setWidth, load_getLsbD (by omega), Nat.div_eq_of_lt hi,
    Nat.mod_eq_of_lt hi]
  simp [hi]

/-- The range is set exactly if the byte behind it was zero before, and the same goes for
the word that starts there. -/
theorem memset_exact_iff (m : Mem) (s n : ℕ) (c : Byte) (hs : s ≠ 0) (hn : 1 ≤ n) :
    (SetsRange m s n c (myMemset m s c n) ↔ m (s+n) = 0) ∧
    (load (myMemset m s c n) (s+n) = load m (s+n) ↔ m (s+n) = 0) := by
  have hbyte := memset_byte m s n c hs hn
  have hlast : myMemset m s c n (s+n) = 0 := by rw [hbyte, if_pos rfl]
  have hkept : m (s+n) = 0 → ∀ x, x < s ∨ s+n ≤ x → myMemset m s c n x = m x := by
    intro hz x hx
    rw [hbyte]
    by_cases he : x = s+n
    · rw [if_pos he, he, hz]
    · rw [if_neg he, if_neg (by omega)]
  constructor
  · constructor
    · intro h
      rw [← h.outside (s+n) (Or.inr le_rfl), hlast]
    · intro hz
      constructor
      case inside =>
        intro x hlow hhigh
        rw [hbyte, if_neg (by omega), if_pos ⟨hlow,hhigh⟩]
      case outside => exact hkept hz
  · constructor
    · intro h
      have hlow := congrArg (BitVec.setWidth 8) h
      rw [load_low, load_low, hlast] at hlow
      exact hlow.symm
    · intro hz
      apply load_congr
      intro k _
      exact hkept hz _ (Or.inr (Nat.le_add_right _ _))

def usedFrame : Mem := poke (fun _ => 7) 0x3000 0

theorem memset_exact_iff_frame : usedFrame 0x2000 = 7 ∧ usedFrame 0x2fff = 7 ∧
    SetsRange usedFrame 0x2000 4096 0 (myMemset usedFrame 0x2000 0 4096) :=
  ⟨rfl,rfl,(memset_exact_iff usedFrame 0x2000 4096 0 (by decide) (by decide)).1.mpr rfl⟩

def tableBehind : Mem := store (fun _ => 0) 0x3000 0x5007

/-- The entry loses its flags when the frame in front of the table is cleared. -/
theorem entry_behind_altered : load tableBehind 0x3000 = 0x5007 ∧
    load (clearTable tableBehind 0x2000) 0x3000 = 0x5000 ∧
    ¬ SetsRange tableBehind 0x2000 4096 0 (clearTable tableBehind 0x2000) := by
  have hbyte := memset_byte tableBehind 0x2000 4096 0 (by decide) (by decide)
  refine ⟨load_store_same _ _ _,?_,?_⟩
  · have hrest : load (clearTable tableBehind 0x2000) 0x3000 =
        load (store (fun _ => 0) 0x3000 0x5000) 0x3000 := by
      apply load_congr
      intro k hk
      rw [clearTable, hbyte, tableBehind]
      interval_cases k <;> decide
    rw [hrest, load_store_same]
  · intro h
    have hsame := h.outside 0x3000 (Or.inr le_rfl)
    rw [clearTable, hbyte, if_pos rfl] at hsame
    exact absurd hsame (by decide)

def memcmpLoop (s t : ℕ → Byte) : ℕ → ℕ → BitVec 32 → BitVec 32
  | 0, _, diff => diff
  | n+1, i, diff =>
    memcmpLoop s t n (i+1) (diff+(((s i).setWidth 32-48)-((t i).setWidth 32-48)))

def myMemcmpInt (s t : ℕ → Byte) (n : BitVec 32) : BitVec 32 :=
  memcmpLoop s t n.toInt.toNat 0 0

def SameBytes (s t : ℕ → Byte) (n : BitVec 32) : Prop := ∀ i < n.toInt.toNat, s i = t i

def firstOf (s : ℕ → Byte) (n : BitVec 32) : List Byte := (List.range n.toInt.toNat).map s

def SumsAgree (s t : ℕ → Byte) (n : BitVec 32) : Prop :=
  byteSum (firstOf s n) ≡ byteSum (firstOf t n) [MOD 2^32]

def Decides (s t : ℕ → Byte) (n : BitVec 32) : Prop := myMemcmpInt s t n = 0 ↔ SameBytes s t n

theorem memcmpLoop_sums (s t : ℕ → Byte) (n i : ℕ) (diff : BitVec 32) :
    memcmpLoop s t n i diff = diff+BitVec.ofNat 32 (byteSum ((List.range' i n).map s))-
      BitVec.ofNat 32 (byteSum ((List.range' i n).map t)) := by
  induction n generalizing i diff with
  | zero => simp [memcmpLoop, byteSum]
  | succ n ih =>
    have hbyte : ∀ b : Byte, b.setWidth 32 = BitVec.ofNat 32 b.toNat := fun b => by simp
    rw [memcmpLoop, ih, List.range'_succ, List.map_cons, List.map_cons, hbyte, hbyte]
    simp only [byteSum, List.map_cons, List.sum_cons, BitVec.ofNat_add]
    ring

theorem memcmp_zero_iff (s t : ℕ → Byte) (n : BitVec 32) :
    myMemcmpInt s t n = 0 ↔ SumsAgree s t n := by
  rw [myMemcmpInt, memcmpLoop_sums, zero_add, sub_eq_zero, ← List.range_eq_range', SumsAgree,
    Nat.ModEq, ← BitVec.toNat_inj, BitVec.toNat_ofNat, BitVec.toNat_ofNat]
  rfl

variable {n : BitVec 32}

theorem decides_iff (s t : ℕ → Byte) (n : BitVec 32) :
    Decides s t n ↔ (SumsAgree s t n → SameBytes s t n) := by
  rw [Decides, memcmp_zero_iff]
  constructor
  · exact fun h => h.mp
  · intro h
    refine ⟨h,fun hsame => ?_⟩
    rw [SumsAgree, firstOf, List.map_congr_left (fun i hi => hsame i (List.mem_range.mp hi)), firstOf]

def swapped (first second : Byte) (i : ℕ) : Byte :=
  if i = 0 then first else if i = 1 then second else 0

theorem swapped_sum (n : ℕ) (a b : Byte) : byteSum ((List.range (n+2)).map (swapped a b)) =
    byteSum ((List.range (n+2)).map (swapped b a)) := by
  have hrest : ∀ c d : Byte, byteSum ((List.range (n+2)).map (swapped c d)) =
      c.toNat+d.toNat+byteSum ((List.range n).map (fun _ => 0)) := by
    intro c d
    rw [List.range_succ_eq_map, List.range_succ_eq_map]
    simp [byteSum, swapped, Function.comp_def, Nat.add_assoc]
  rw [hrest, hrest, Nat.add_comm a.toNat]

theorem one_byte_decides (s t : ℕ → Byte) (hn : n.toInt ≤ 1) : Decides s t n := by
  rw [decides_iff]
  intro hsum i hi
  have hone : n.toInt.toNat = 1 := by omega
  obtain rfl : i = 0 := by omega
  rw [SumsAgree, firstOf, firstOf, hone, List.range_one] at hsum
  have hs := (s 0).isLt
  have ht := (t 0).isLt
  have hsum' : (s 0).toNat ≡ (t 0).toNat [MOD 2^32] := by simpa [byteSum] using hsum
  exact BitVec.eq_of_toNat_eq (Nat.ModEq.eq_of_lt_of_lt hsum' (by omega) (by omega))

/-- The comparison is right for bytes whose sums differ, and for all bytes only if it looks
at no more than one. -/
theorem memcmp_decides_iff (n : BitVec 32) :
    (∀ s t, Decides s t n ↔ (SumsAgree s t n → SameBytes s t n)) ∧
    ((∀ s t, Decides s t n) ↔ n.toInt ≤ 1) := by
  refine ⟨fun s t => decides_iff s t n,?_,fun hn s t => one_byte_decides s t hn⟩
  intro h
  by_contra hn
  obtain ⟨k,hk⟩ : ∃ k, n.toInt.toNat = k+2 := ⟨n.toInt.toNat-2,by omega⟩
  have hagree : SumsAgree (swapped 97 98) (swapped 98 97) n := by
    rw [SumsAgree, firstOf, firstOf, hk, swapped_sum]
  have hsame := (decides_iff _ _ n).mp (h _ _) hagree 0 (by omega)
  exact absurd hsame (by decide)

/-- The names `ab` and `ba` are equal for the comparison. -/
theorem swapped_names_equal : myMemcmpInt (swapped 97 98) (swapped 98 97) 2 = 0 ∧
    ¬ SameBytes (swapped 97 98) (swapped 98 97) 2 := by
  refine ⟨by decide,fun h => ?_⟩
  exact absurd (h 0 (by decide)) (by decide)

theorem byteSum_le (l : List Byte) : byteSum l ≤ 255*l.length := by
  induction l with
  | nil => exact Nat.zero_le _
  | cons b l ih =>
    have hb := b.isLt
    rw [byteSum, List.map_cons, List.sum_cons, List.length_cons]
    rw [byteSum] at ih
    omega

theorem memcmp_short (s t : ℕ → Byte) (n : BitVec 32) (hn : n.toInt ≤ 2^23) :
    (myMemcmpInt s t n).toInt = myMemcmp (firstOf s n) (firstOf t n) n.toInt.toNat := by
  have hlen : ∀ r : ℕ → Byte, (firstOf r n).length = n.toInt.toNat := by
    intro r
    rw [firstOf, List.length_map, List.length_range]
  have hsums := memcmp_sums (firstOf s n) ((hlen s).trans (hlen t).symm)
  have hs := byteSum_le (firstOf s n)
  have ht := byteSum_le (firstOf t n)
  rw [hlen] at hsums hs ht
  have hint : myMemcmpInt s t n =
      BitVec.ofInt 32 ((byteSum (firstOf s n) : ℤ)-byteSum (firstOf t n)) := by
    rw [myMemcmpInt, memcmpLoop_sums, zero_add, ← List.range_eq_range', Int.sub_eq_add_neg,
      BitVec.ofInt_add, BitVec.ofInt_neg, BitVec.ofInt_natCast, BitVec.ofInt_natCast,
      ← sub_eq_add_neg]
    rfl
  rw [hint, hsums, BitVec.toInt_ofInt_eq_self (by decide)] <;> omega

end PreemptiveOS.ByteRoutines
