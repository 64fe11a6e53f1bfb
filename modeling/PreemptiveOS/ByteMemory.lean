import Mathlib.Data.BitVec
import Mathlib.Tactic

/-!
# Byte memory with little-endian words

A memory is a total map from addresses to bytes. Eight-byte words are read
and written little end first. A word read survives a write exactly when the
two windows are apart; clearing a single byte clears the low end of the word
that starts there. Words that are pushed on a stack, stored at places of a frame
or copied one by one are found there again, and what is elsewhere is kept.
-/

set_option autoImplicit false

namespace PreemptiveOS.ByteMemory

abbrev Byte := BitVec 8
abbrev Word := BitVec 64
abbrev Mem := ℕ → Byte

instance word_lawful : LawfulBEq Word := inferInstance
instance byte_lawful : LawfulBEq Byte := inferInstance

def load (m : Mem) (a : ℕ) : Word :=
  m (a+7) ++ m (a+6) ++ m (a+5) ++ m (a+4) ++ m (a+3) ++ m (a+2) ++ m (a+1) ++ m a

def store (m : Mem) (a : ℕ) (w : Word) : Mem :=
  fun x => if a ≤ x ∧ x < a+8 then w.extractLsb' (8*(x-a)) 8 else m x

def poke (m : Mem) (a : ℕ) (b : Byte) : Mem := fun x => if x = a then b else m x

def fill (m : Mem) (a n : ℕ) (b : Byte) : Mem :=
  fun x => if a ≤ x ∧ x < a+n then b else m x

variable {m : Mem} {a b : ℕ}

theorem load_shift {m' : Mem} (h : ∀ k < 8, m (a+k) = m' (b+k)) : load m a = load m' b := by
  have h0 := h 0 (by decide)
  simp only [Nat.add_zero] at h0
  simp only [load, h0, h 1 (by decide), h 2 (by decide), h 3 (by decide), h 4 (by decide),
    h 5 (by decide), h 6 (by decide), h 7 (by decide)]

theorem load_congr (m m' : Mem) (a : ℕ) (h : ∀ k < 8, m (a+k) = m' (a+k)) :
    load m a = load m' a := load_shift h

theorem load_getLsbD {i : ℕ} (hi : i < 64) : (load m a).getLsbD i = (m (a+i/8)).getLsbD (i%8) := by
  have hk : i/8 < 8 := by omega
  simp only [load, BitVec.getLsbD_append]
  split_ifs <;> interval_cases hk' : i/8 <;> first | (exfalso; omega) | (congr 1; omega)

theorem load_store_same (m : Mem) (a : ℕ) (w : Word) : load (store m a w) a = w := by
  apply BitVec.eq_of_getLsbD_eq
  intro i hi
  rw [load_getLsbD hi, store, if_pos (by omega), BitVec.getLsbD_extractLsb']
  have hlt : i%8 < 8 := Nat.mod_lt _ (by decide)
  simp only [hlt, decide_true, Bool.true_and, Nat.add_sub_cancel_left]
  congr 1
  omega

theorem load_store_apart (m : Mem) (w : Word) (h : a+8 ≤ b ∨ b+8 ≤ a) :
    load (store m a w) b = load m b := by
  apply load_congr
  intro k hk
  rw [store, if_neg (by omega)]

variable {c : Byte}

theorem load_poke_apart (h : a < b ∨ b+8 ≤ a) : load (poke m a c) b = load m b := by
  apply load_congr
  intro k hk
  rw [poke, if_neg (by omega)]

variable {n : ℕ}

theorem load_fill_zero (m : Mem) (h : a ≤ b ∧ b+8 ≤ a+n) : load (fill m a n 0) b = 0 := by
  have hz : load (fill m a n 0) b = load (fun _ => 0) b := by
    apply load_congr
    intro k hk
    rw [fill, if_pos (by omega)]
  rw [hz]
  simp only [load]
  decide

theorem load_fill_apart (m : Mem) (h : a+n ≤ b ∨ b+8 ≤ a) : load (fill m a n c) b = load m b := by
  apply load_congr
  intro k hk
  rw [fill, if_neg (by omega)]

structure Stack where
  rsp : ℕ
  mem : Mem

def Stack.push (c : Stack) (w : Word) : Stack := ⟨c.rsp-8,store c.mem (c.rsp-8) w⟩

def Stack.reserve (c : Stack) (n : ℕ) : Stack := { c with rsp := c.rsp-n }

def Stack.pushAll (c : Stack) (ws : List Word) : Stack := ws.foldl Stack.push c

theorem pushAll_rsp (ws : List Word) (c : Stack) : (c.pushAll ws).rsp = c.rsp-8*ws.length := by
  induction ws generalizing c with
  | nil => simp [Stack.pushAll]
  | cons w ws ih =>
    show ((c.push w).pushAll ws).rsp = _
    rw [ih, Stack.push, List.length_cons]
    show c.rsp-8-8*ws.length = _
    omega

variable {ws : List Word} {b : ℕ}

theorem pushAll_apart (c : Stack) (hroom : 8*ws.length ≤ c.rsp)
    (hb : c.rsp ≤ b ∨ b+8 ≤ c.rsp-8*ws.length) : load (c.pushAll ws).mem b = load c.mem b := by
  induction ws generalizing c with
  | nil => rfl
  | cons w ws ih =>
    rw [List.length_cons] at hroom hb
    have hrsp : (c.push w).rsp = c.rsp-8 := rfl
    show load ((c.push w).pushAll ws).mem b = _
    rw [ih (c.push w) (by omega) (by omega)]
    exact load_store_apart c.mem w (by omega)

variable {w : Word}

theorem pushAll_load (c : Stack) (i : ℕ) (hroom : 8*ws.length ≤ c.rsp) (hi : ws[i]? = some w) :
    load (c.pushAll ws).mem (c.rsp-8*(i+1)) = w := by
  induction ws generalizing c i with
  | nil => cases hi
  | cons v ws ih =>
    rw [List.length_cons] at hroom
    have hrsp : (c.push v).rsp = c.rsp-8 := rfl
    show load ((c.push v).pushAll ws).mem _ = _
    cases i with
    | zero =>
      obtain rfl := Option.some.inj hi
      rw [pushAll_apart (c.push v) (by omega) (by omega)]
      exact load_store_same c.mem (c.rsp-8) v
    | succ i =>
      have hlater := ih (c.push v) i (by omega) hi
      rw [hrsp, show c.rsp-8-8*(i+1) = c.rsp-8*(i+1+1) by omega] at hlater
      exact hlater

def storeAt (m : Mem) (a : ℕ) (slots : List (ℕ × Word)) : Mem :=
  slots.foldl (fun m slot => store m (a+8*slot.1) slot.2) m

theorem storeAt_apart (slots : List (ℕ × Word)) (m : Mem) (a b : ℕ)
    (hb : ∀ slot ∈ slots, a+8*slot.1+8 ≤ b ∨ b+8 ≤ a+8*slot.1) :
    load (storeAt m a slots) b = load m b := by
  induction slots generalizing m with
  | nil => rfl
  | cons slot slots ih =>
    show load (storeAt (store m (a+8*slot.1) slot.2) a slots) b = _
    rw [ih _ (fun later h => hb later (List.mem_cons_of_mem _ h)),
      load_store_apart _ _ (hb slot List.mem_cons_self)]

theorem storeAt_load {slots : List (ℕ × Word)} (m : Mem) (a : ℕ) {i : ℕ}
    (hd : (slots.map Prod.fst).Nodup) (hi : (i,w) ∈ slots) :
    load (storeAt m a slots) (a+8*i) = w := by
  induction slots generalizing m with
  | nil => exact absurd hi List.not_mem_nil
  | cons slot slots ih =>
    rw [List.map_cons, List.nodup_cons] at hd
    show load (storeAt (store m (a+8*slot.1) slot.2) a slots) _ = _
    rcases List.mem_cons.mp hi with rfl | hlater
    · rw [storeAt_apart, load_store_same]
      intro later h
      have hne : later.1 ≠ i := fun he => hd.1 (List.mem_map.mpr ⟨later,h,he⟩)
      omega
    · exact ih _ hd.2 hlater

def copyWords (source target : ℕ) (n : ℕ) (m : Mem) : Mem :=
  (List.range n).foldl (fun m i => store m (target+8*i) (load m (source+8*i))) m

theorem copyWords_succ (source target n : ℕ) (m : Mem) : copyWords source target (n+1) m =
    store (copyWords source target n m) (target+8*n)
      (load (copyWords source target n m) (source+8*n)) := by
  rw [copyWords, List.range_succ, List.foldl_append]
  rfl

theorem copyWords_apart {source : ℕ} {target n : ℕ} {m : Mem} (hb : b+8 ≤ target ∨ target+8*n ≤ b) :
    load (copyWords source target n m) b = load m b := by
  induction n with
  | zero => rfl
  | succ n ih =>
    rw [copyWords_succ, load_store_apart _ _ (by omega)]
    exact ih (by omega)

end PreemptiveOS.ByteMemory
