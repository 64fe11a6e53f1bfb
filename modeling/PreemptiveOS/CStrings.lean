import PreemptiveOS.ByteMemory

/-!
# Strings of the library

A string is a list of characters without its zero, or the bytes from a pointer on.
`strncmp` compares characters as signed numbers. It stops behind the given number of
characters, and then still looks at one more.
-/

set_option autoImplicit false

namespace PreemptiveOS.CStrings
open ByteMemory

structure Text where
  chars : List Byte
  text : ∀ c ∈ chars, c ≠ 0
  short : chars.length < 2^31

def Text.bytes (s : Text) (i : ℕ) : Byte := s.chars.getD i 0

def strlen (s : Text) : ℕ := s.chars.length

def strncmpEnd (p1 p2 : ℕ → Byte) (i : ℕ) : ℤ := if p2 i ≠ 0 ∧ p1 i = 0 then -1 else 0

def strncmpLoop (p1 p2 : ℕ → Byte) : ℕ → ℕ → ℤ
  | 0, i => strncmpEnd p1 p2 i
  | n+1, i =>
    if p1 i = 0 then strncmpEnd p1 p2 i
    else if p2 i = 0 then 1
    else if (p1 i).toInt < (p2 i).toInt then -1
    else if (p2 i).toInt < (p1 i).toInt then 1
    else strncmpLoop p1 p2 n (i+1)

def strncmp (cs ct : ℕ → Byte) (n : BitVec 32) : ℤ := strncmpLoop cs ct n.toInt.toNat 0

def strcmpLoop (p1 p2 : ℕ → Byte) : ℕ → ℕ → Option ℤ
  | 0, _ => none
  | n+1, i =>
    if p1 i = 0 then some (if p2 i ≠ 0 then -1 else 0)
    else if p2 i = 0 then some 1
    else if (p1 i).toInt < (p2 i).toInt then some (-1)
    else if (p2 i).toInt < (p1 i).toInt then some 1
    else strcmpLoop p1 p2 n (i+1)

def strcmp (rounds : ℕ) (cs ct : ℕ → Byte) : Option ℤ := strcmpLoop cs ct rounds 0

def sign (a b : Byte) : ℤ := if a = 0 ∨ b ≠ 0 ∧ a.toInt < b.toInt then -1 else 1

variable {i n : ℕ}

section
variable {p1 p2 : ℕ → Byte}

theorem strncmpLoop_same (h : p1 i = p2 i) (hz : p1 i ≠ 0) :
    strncmpLoop p1 p2 (n+1) i = strncmpLoop p1 p2 n (i+1) := by
  rw [strncmpLoop, if_neg hz, if_neg (h ▸ hz), h, if_neg (lt_irrefl _), if_neg (lt_irrefl _)]

theorem strncmpLoop_differ (h : p1 i ≠ p2 i) : strncmpLoop p1 p2 (n+1) i = sign (p1 i) (p2 i) := by
  have hint : (p1 i).toInt ≠ (p2 i).toInt := fun he => h (BitVec.toInt_inj.mp he)
  rw [strncmpLoop, sign]
  by_cases h1 : p1 i = 0
  · have h2 : p2 i ≠ 0 := fun he => h (h1.trans he.symm)
    rw [if_pos h1, strncmpEnd, if_pos ⟨h2,h1⟩, if_pos (Or.inl h1)]
  · rw [if_neg h1]
    by_cases h2 : p2 i = 0
    · rw [if_pos h2, if_neg (not_or.mpr ⟨h1,fun hb => hb.1 h2⟩)]
    · rw [if_neg h2]
      rcases lt_or_gt_of_ne hint with hlt | hgt
      · rw [if_pos hlt, if_pos (Or.inr ⟨h2,hlt⟩)]
      · have hnot := lt_asymm hgt
        rw [if_neg hnot, if_pos hgt, if_neg (not_or.mpr ⟨h1,fun hb => hnot hb.2⟩)]

theorem sign_ne_zero (a b : Byte) : sign a b ≠ 0 := by
  rw [sign]
  split_ifs <;> decide

theorem strcmpLoop_stops {m : ℕ} (i : ℕ) (h : i+m = n) (h1 : p1 n = 0) (h2 : p2 n = 0) :
    strcmpLoop p1 p2 (m+1) i = some (strncmpLoop p1 p2 m i) := by
  induction m generalizing i with
  | zero =>
    obtain rfl : i = n := h
    simp [strcmpLoop, strncmpLoop, strncmpEnd, h1, h2]
  | succ m ih =>
    rw [strcmpLoop, strncmpLoop, ih (i+1) (by omega)]
    by_cases hz : p1 i = 0
    · simp [hz, strncmpEnd]
    · rw [if_neg hz, if_neg hz]
      split_ifs <;> rfl

end

theorem strncmpLoop_zero_iff {p1 p2 : ℕ → Byte} (i : ℕ) (htext : ∀ j < n, p2 (i+j) ≠ 0) :
    strncmpLoop p1 p2 n i = 0 ↔
      (∀ j < n, p1 (i+j) = p2 (i+j)) ∧ ¬ (p2 (i+n) ≠ 0 ∧ p1 (i+n) = 0) := by
  induction n generalizing i with
  | zero =>
    rw [strncmpLoop, strncmpEnd, Nat.add_zero]
    split_ifs with h
    · exact iff_of_false (by decide) (fun hboth => hboth.2 h)
    · exact iff_of_true rfl ⟨fun j hj => absurd hj (Nat.not_lt_zero j),h⟩
  | succ n ih =>
    have hfirst : p2 i ≠ 0 := htext 0 (Nat.succ_pos n)
    have hnext : ∀ j, i+1+j = i+(j+1) := fun j => by omega
    have hrest := ih (i+1) (fun j hj => hnext j ▸ htext (j+1) (by omega))
    simp only [hnext] at hrest
    by_cases heq : p1 i = p2 i
    · rw [strncmpLoop_same heq (heq ▸ hfirst), hrest]
      refine and_congr_left' ⟨fun h j hj => ?_,fun h j hj => h (j+1) (by omega)⟩
      cases j with
      | zero => exact heq
      | succ j => exact h j (by omega)
    · refine iff_of_false ?_ (fun h => heq (h.1 0 (Nat.succ_pos n)))
      rw [strncmpLoop_differ heq]
      exact sign_ne_zero _ _

def Match (cs ct : ℕ → Byte) (k : ℕ) : Prop := ∀ j < k, cs j = ct j ∧ cs j ≠ 0

def Differ (cs ct : ℕ → Byte) (i : ℕ) : Prop := Match cs ct i ∧ cs i ≠ ct i

def Agree (cs ct : ℕ → Byte) (n : ℕ) : Prop :=
  (∀ i < n, cs i = ct i) ∨ ∃ k < n, cs k = 0 ∧ ∀ i ≤ k, cs i = ct i

def cut (n : ℕ) (s : ℕ → Byte) (i : ℕ) : Byte := if i < n then s i else 0

structure Compares (cs ct : ℕ → Byte) (n : ℕ) (r : ℤ) : Prop where
  zero : r = 0 ↔ Agree cs ct n
  differ : ∀ i < n, Differ cs ct i → r = sign (cs i) (ct i)
  cut : strcmp (n+1) (cut n cs) (cut n ct) = some r

def Short (cs ct : ℕ → Byte) (n : ℕ) : Prop := Match cs ct n ∧ cs n = 0 ∧ ct n ≠ 0

section
variable {cs ct : ℕ → Byte} {k n : ℕ}

theorem strncmpLoop_match (m : ℕ) (h : Match cs ct k) :
    strncmpLoop cs ct (k+m) 0 = strncmpLoop cs ct m k := by
  induction k generalizing m with
  | zero => rw [Nat.zero_add]
  | succ k ih =>
    obtain ⟨heq,hz⟩ := h k (Nat.lt_succ_self k)
    rw [Nat.add_right_comm, Nat.add_assoc, ih (m+1) (fun j hj => h j (by omega)),
      strncmpLoop_same heq hz]

theorem match_differ (hk : k < n) (h : Match cs ct k) (hne : cs k ≠ ct k) :
    strncmpLoop cs ct n 0 = sign (cs k) (ct k) := by
  obtain ⟨m,rfl⟩ := Nat.exists_eq_add_of_lt hk
  rw [Nat.add_assoc, strncmpLoop_match _ h, strncmpLoop_differ hne]

theorem match_end (hk : k ≤ n) (h : Match cs ct k) (h1 : cs k = 0) (h2 : ct k = 0) :
    strncmpLoop cs ct n 0 = 0 := by
  obtain ⟨m,rfl⟩ := Nat.exists_eq_add_of_le hk
  rw [strncmpLoop_match _ h]
  cases m with
  | zero => simp [strncmpLoop, strncmpEnd, h2]
  | succ m => simp [strncmpLoop, strncmpEnd, h1, h2]

theorem match_cases (cs ct : ℕ → Byte) (n : ℕ) :
    Match cs ct n ∨ ∃ k < n, Match cs ct k ∧ (cs k ≠ ct k ∨ cs k = 0 ∧ ct k = 0) := by
  induction n with
  | zero => exact Or.inl (fun j hj => absurd hj (Nat.not_lt_zero j))
  | succ n ih =>
    rcases ih with hm | ⟨k,hk,h⟩
    · by_cases heq : cs n = ct n
      · by_cases hz : cs n = 0
        · exact Or.inr ⟨n,Nat.lt_succ_self n,hm,Or.inr ⟨hz,heq ▸ hz⟩⟩
        · refine Or.inl (fun j hj => ?_)
          rcases Nat.lt_succ_iff_lt_or_eq.mp hj with hj | rfl
          · exact hm j hj
          · exact ⟨heq,hz⟩
      · exact Or.inr ⟨n,Nat.lt_succ_self n,hm,Or.inl heq⟩
    · exact Or.inr ⟨k,by omega,h⟩

theorem cut_match (hk : k ≤ n) (h : Match cs ct k) : Match (cut n cs) (cut n ct) k := by
  intro j hj
  rw [cut, cut, if_pos (by omega), if_pos (by omega)]
  exact h j hj

theorem strcmp_cut (cs ct : ℕ → Byte) (n : ℕ) :
    strcmp (n+1) (cut n cs) (cut n ct) = some (strncmpLoop (cut n cs) (cut n ct) n 0) := by
  have hz : ∀ s, cut n s n = 0 := fun s => if_neg (lt_irrefl n)
  exact strcmpLoop_stops 0 (Nat.zero_add n) (hz cs) (hz ct)

theorem compares_zero (hk : k ≤ n) (h : Match cs ct k) (hend : k = n ∨ cs k = 0 ∧ ct k = 0) :
    Agree cs ct n ∧ Compares cs ct n 0 := by
  have hagree : Agree cs ct n := by
    rcases hend with rfl | ⟨h1,h2⟩
    · exact Or.inl (fun i hi => (h i hi).1)
    · rcases Nat.lt_or_eq_of_le hk with hlt | rfl
      · refine Or.inr ⟨k,hlt,h1,fun i hi => ?_⟩
        rcases Nat.lt_or_eq_of_le hi with hi | rfl
        · exact (h i hi).1
        · exact h1.trans h2.symm
      · exact Or.inl (fun i hi => (h i hi).1)
  have hz : cut n cs k = 0 ∧ cut n ct k = 0 := by
    rw [cut, cut]
    rcases hend with rfl | ⟨h1,h2⟩
    · simp
    · simp [h1, h2]
  refine ⟨hagree,?_⟩
  constructor
  case zero => exact iff_of_true rfl hagree
  case differ =>
    intro i hi hd
    rcases Nat.lt_trichotomy i k with hlt | rfl | hgt
    · exact absurd (h i hlt).1 hd.2
    · exact absurd (hend.elim (fun he => absurd hi (he ▸ lt_irrefl i))
        (fun hz => hz.1.trans hz.2.symm)) hd.2
    · exact absurd (hend.elim (fun he => by omega) And.left) (hd.1 k hgt).2
  case cut => rw [strcmp_cut, match_end hk (cut_match hk h) hz.1 hz.2]

theorem compares_differ (hk : k < n) (h : Match cs ct k) (hne : cs k ≠ ct k) :
    Compares cs ct n (strncmpLoop cs ct n 0) := by
  have hcut : ∀ s, cut n s k = s k := fun s => if_pos hk
  rw [match_differ hk h hne]
  constructor
  case zero =>
    refine iff_of_false (sign_ne_zero _ _) ?_
    rintro (hall | ⟨j,_,hz,hall⟩)
    · exact hne (hall k hk)
    · rcases Nat.lt_or_ge j k with hj | hj
      · exact (h j hj).2 hz
      · exact hne (hall k hj)
  case differ =>
    intro i _ hi
    rcases Nat.lt_trichotomy i k with hlt | rfl | hgt
    · exact absurd (h i hlt).1 hi.2
    · rfl
    · exact absurd (hi.1 k hgt).1 hne
  case cut =>
    rw [strcmp_cut, match_differ hk (cut_match hk.le h) (by rwa [hcut, hcut]), hcut, hcut]

end

/-- `strncmp` compares the first characters unless the first string ends behind
them and the second one does not. -/
theorem strncmp_compares_iff (cs ct : ℕ → Byte) (n : BitVec 32) :
    Compares cs ct n.toInt.toNat (strncmp cs ct n) ↔ ¬ Short cs ct n.toInt.toNat := by
  rw [strncmp]
  generalize n.toInt.toNat = n
  rcases match_cases cs ct n with hm | ⟨k,hk,hm,h⟩
  · rw [show strncmpLoop cs ct n 0 = strncmpEnd cs ct n from strncmpLoop_match 0 hm, strncmpEnd]
    obtain ⟨hagree,hc⟩ := compares_zero (le_refl n) hm (Or.inl rfl)
    by_cases hend : ct n ≠ 0 ∧ cs n = 0
    · rw [if_pos hend]
      refine iff_of_false (fun hc => ?_) (fun hs => hs ⟨hm,hend.2,hend.1⟩)
      exact absurd (hc.zero.mpr hagree) (by decide)
    · rw [if_neg hend]
      exact iff_of_true hc (fun hs => hend ⟨hs.2.2,hs.2.1⟩)
  · rcases h with hne | hz
    · exact iff_of_true (compares_differ hk hm hne) (fun hs => hne (hs.1 k hk).1)
    · rw [match_end hk.le hm hz.1 hz.2]
      exact iff_of_true (compares_zero hk.le hm (Or.inr hz)).2 (fun hs => (hs.1 k hk).2 hz.1)

/-- Two characters of `ab` and `abc` are compared. -/
theorem short_string_below : Agree ([97,98].getD · 0) ([97,98,99].getD · 0) 2 ∧
    strncmp ([97,98].getD · 0) ([97,98,99].getD · 0) 2 = -1 ∧
    ¬ Compares ([97,98].getD · 0) ([97,98,99].getD · 0) 2
      (strncmp ([97,98].getD · 0) ([97,98,99].getD · 0) 2) := by
  have hagree : Agree ([97,98].getD · 0) ([97,98,99].getD · 0) 2 := Or.inl (by decide)
  have hr : strncmp ([97,98].getD · 0) ([97,98,99].getD · 0) 2 = -1 := by decide
  refine ⟨hagree,hr,fun h => ?_⟩
  rw [hr] at h
  exact absurd (h.zero.mpr hagree) (by decide)

end PreemptiveOS.CStrings
