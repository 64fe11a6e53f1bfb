import Mathlib.Data.List.Basic
import Mathlib.Data.List.TakeWhile

/-!
# Tables of slots

A table of a fixed number of slots, some of them free. An insertion takes the
first free slot, and a scan stops at the first free slot. As long as the used
slots come first, an insertion appends to them and a scan sees all of them.
-/

set_option autoImplicit false

namespace PreemptiveOS.SlotTables

variable {α : Type} (free : α → Bool)

def insertSlot : List α → α → Option (List α)
  | [], _ => none
  | s::slots, x => if free s then some (x::slots) else (insertSlot slots x).map (fun t => s::t)

def occupied (slots : List α) : List α := slots.takeWhile (fun s => !free s)

variable (used : List α) (hused : ∀ u ∈ used, free u = false) (blank : α) (hblank : free blank = true)
include hused

theorem insertSlot_none (x : α) : insertSlot free used x = none := by
  induction used with
  | nil => rfl
  | cons u used ih =>
    have hu : ¬ free u = true := by simp [hused u List.mem_cons_self]
    rw [insertSlot, if_neg hu, ih (fun v hv => hused v (List.mem_cons_of_mem _ hv))]
    rfl

include hblank

theorem insertSlot_next (n : ℕ) (x : α) :
    insertSlot free (used++List.replicate (n+1) blank) x =
      some (used++[x]++List.replicate n blank) := by
  induction used with
  | nil =>
    rw [List.nil_append, List.replicate_succ, insertSlot, if_pos hblank]
    rfl
  | cons u used ih =>
    have hu : ¬ free u = true := by simp [hused u List.mem_cons_self]
    rw [List.cons_append, insertSlot, if_neg hu,
      ih (fun v hv => hused v (List.mem_cons_of_mem _ hv))]
    rfl

theorem occupied_used {n : ℕ} : occupied free (used++List.replicate n blank) = used := by
  rw [occupied, List.takeWhile_append_of_pos (by simpa using hused)]
  cases n with
  | zero => simp
  | succ n => simp [List.replicate_succ, hblank]

end PreemptiveOS.SlotTables
