import Mathlib.Data.List.Basic

/-!
# Arrays with bounds and blocks of zeros

An array is a list that keeps its length. A write outside of it has no result. A heap
is a list of arrays: a new block is an array of zeros behind all others, so that blocks
are different by construction, and it is known by its place in the list.
-/

set_option autoImplicit false

namespace PreemptiveOS.HeapBlocks

section
variable {α : Type}

def put (xs : List α) (i : ℕ) (a : α) : Option (List α) :=
  if i < xs.length then some (xs.set i a) else none

def putAll : List α → ℕ → List α → Option (List α)
  | xs, _, [] => some xs
  | xs, i, a::as => (put xs i a).bind (fun ys => putAll ys (i+1) as)

theorem put_between (before : List α) (b : α) (behind : List α) (a : α) :
    put (before++b::behind) before.length a = some (before++a::behind) := by
  rw [put, if_pos (by simp), List.set_append_right _ _ (Nat.le_refl _), Nat.sub_self]
  rfl

theorem putAll_between (before old as behind : List α) (hlen : old.length = as.length) :
    putAll (before++old++behind) before.length as = some (before++as++behind) := by
  induction as generalizing before old with
  | nil =>
    rw [List.length_eq_zero_iff.mp hlen]
    rfl
  | cons a as ih =>
    obtain ⟨b,old',rfl⟩ : ∃ b old', old = b::old' :=
      List.exists_cons_of_length_eq_add_one (hlen.trans List.length_cons)
    have hput : put (before++(b::old')++behind) before.length a =
        some ((before++[a])++old'++behind) := by
      simpa using put_between before b (old'++behind) a
    have hrest := ih (before++[a]) old' (by simpa using hlen)
    rw [List.length_append, List.length_singleton] at hrest
    rw [putAll, hput, Option.bind_some, hrest]
    simp

def malloc (zero : α) (heap : List (List α)) (n : ℕ) : List (List α) × ℕ :=
  (heap++[List.replicate n zero],heap.length)

end

end PreemptiveOS.HeapBlocks
