import Mathlib.Data.BitVec
import Mathlib.Tactic

/-!
# Fields of a word

A mask selects a field of a bit vector. The rules say what the field holds
after it is replaced, after other bits are set and after other bits are
cleared. Low masks are remainders and shifted low masks are digits.
-/

set_option autoImplicit false

namespace PreemptiveOS.BitFields

variable {w : ℕ} {A f : BitVec w}

theorem set_outside (e : BitVec w) (hf : f &&& A = 0#w) : (e ||| f) &&& A = e &&& A := by
  rw [BitVec.and_or_distrib_right, hf, BitVec.or_zero]

variable {b : BitVec w}

theorem set_inside (e : BitVec w) (hf : f &&& b = b) : (e ||| f) &&& b = b := by
  rw [BitVec.and_or_distrib_right, hf]
  apply BitVec.eq_of_getLsbD_eq
  intro i hi
  simp only [BitVec.getLsbD_or, BitVec.getLsbD_and]
  cases b.getLsbD i <;> simp

theorem cleared_inside (e A : BitVec w) : (e &&& ~~~A) &&& A = 0#w := by
  rw [BitVec.and_assoc, BitVec.and_comm (~~~A) A, BitVec.and_not_self]
  exact BitVec.and_zero

theorem cleared_outside (e : BitVec w) (h : b &&& A = 0#w) : (e &&& ~~~A) &&& b = e &&& b := by
  apply BitVec.eq_of_getLsbD_eq
  intro i hi
  have hb := congrArg (fun x => BitVec.getLsbD x i) h
  simp only [BitVec.getLsbD_and, BitVec.getLsbD_not, hi] at hb ⊢
  cases h1 : b.getLsbD i <;> cases h2 : A.getLsbD i <;> simp_all

variable {p : BitVec w}

theorem replaced_field (e : BitVec w) (hp : p &&& A = p) (hf : f &&& A = 0#w) :
    (((e &&& ~~~A) ||| p) ||| f) &&& A = p := by
  rw [set_outside _ hf, BitVec.and_or_distrib_right, hp, cleared_inside, BitVec.zero_or]

theorem replaced_outside (e : BitVec w) (f : BitVec w) (hb : b &&& A = 0#w) (hp : p &&& A = p) :
    (((e &&& ~~~A) ||| p) ||| f) &&& b = (e ||| f) &&& b := by
  have hpb : p &&& b = 0#w := by
    rw [← hp, BitVec.and_assoc, BitVec.and_comm A b, hb, BitVec.and_zero]
  rw [BitVec.and_or_distrib_right, BitVec.and_or_distrib_right, cleared_outside e hb, hpb,
    BitVec.or_zero, ← BitVec.and_or_distrib_right]

theorem and_low_mask (v : BitVec w) (k : ℕ) (hk : k < w) :
    (v &&& BitVec.ofNat w (2^k-1)).toNat = v.toNat%2^k := by
  have hlt : 2^k-1 < 2^w := by
    exact lt_of_le_of_lt (Nat.sub_le _ _) (Nat.pow_lt_pow_right (by decide) hk)
  rw [BitVec.toNat_and, BitVec.toNat_ofNat, Nat.mod_eq_of_lt hlt, Nat.and_two_pow_sub_one_eq_mod]

theorem low_mask_zero (v : BitVec w) (k : ℕ) (hk : k < w) :
    v &&& BitVec.ofNat w (2^k-1) = 0#w ↔ v.toNat%2^k = 0 := by
  rw [← and_low_mask v k hk, ← BitVec.toNat_inj]
  simp

theorem shifted_mask_toNat (v : BitVec w) (s k : ℕ) (hk : k < w) :
    ((v >>> s) &&& BitVec.ofNat w (2^k-1)).toNat = v.toNat/2^s%2^k := by
  rw [and_low_mask _ k hk, BitVec.toNat_ushiftRight, Nat.shiftRight_eq_div_pow]

end PreemptiveOS.BitFields
