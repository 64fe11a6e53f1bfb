import Mathlib.Data.Fintype.Basic
import Mathlib.Data.Finset.Card
import Mathlib.Algebra.BigOperators.Group.List.Basic
import Mathlib.Tactic.Ring

/-!
# Counting the cells that hold a value

A table has rows of finitely many cells each. For a value, the cells that hold
it are counted row by row. The count follows from what is done to the table:
one cell is rewritten, one row is changed, a row comes or goes.
-/

set_option autoImplicit false

namespace PreemptiveOS.CellCounts

variable {ι κ α : Type} [Fintype κ] [DecidableEq α]

def uses (row : κ → α) (a : α) : ℕ := (Finset.univ.filter (fun k => row k = a)).card

def total (table : ι → κ → α) (rows : List ι) (a : α) : ℕ :=
  (rows.map (fun i => uses (table i) a)).sum

variable {a : α} {row : κ → α}

theorem uses_pos_iff : 0 < uses row a ↔ ∃ k, row k = a := by
  rw [uses, Finset.card_pos]
  constructor
  · rintro ⟨k,hk⟩
    exact ⟨k,(Finset.mem_filter.mp hk).2⟩
  · rintro ⟨k,hk⟩
    exact ⟨k,Finset.mem_filter.mpr ⟨Finset.mem_univ k,hk⟩⟩

variable {row' : κ → α}

theorem uses_congr (h : ∀ k, row' k = a ↔ row k = a) : uses row' a = uses row a := by
  rw [uses, uses]
  congr 1
  ext k
  rw [Finset.mem_filter, Finset.mem_filter, h k]

theorem uses_rewrite [DecidableEq κ] {k : κ} (h : ∀ l, l ≠ k → row' l = row l) (a : α) :
    uses row' a+(if row k = a then 1 else 0) = uses row a+(if row' k = a then 1 else 0) := by
  have hsplit : ∀ f : κ → α, uses f a =
      ((Finset.univ.erase k).filter (fun l => f l = a)).card+(if f k = a then 1 else 0) := by
    intro f
    rw [uses]
    conv_lhs => rw [← Finset.insert_erase (Finset.mem_univ k)]
    rw [Finset.filter_insert]
    split_ifs
    · rw [Finset.card_insert_of_notMem (by simp)]
    · rfl
  have hrest : (Finset.univ.erase k).filter (fun l => row' l = a) =
      (Finset.univ.erase k).filter (fun l => row l = a) := by
    apply Finset.filter_congr
    intro l hl
    rw [h l (Finset.ne_of_mem_erase hl)]
  rw [hsplit row', hsplit row, hrest]
  ring

theorem uses_listed (row : κ → α) (a : α) (cells : List κ) (hd : cells.Nodup)
    (h : ∀ k, k ∈ cells ↔ row k = a) : uses row a = cells.length := by
  classical
  rw [← List.toFinset_card_of_nodup hd, uses]
  congr 1
  ext k
  rw [Finset.mem_filter, List.mem_toFinset, h k]
  exact ⟨fun hk => hk.2,fun hk => ⟨Finset.mem_univ k,hk⟩⟩

variable {rows : List ι} {r : ι}

section
variable (table table' : ι → κ → α) (a : α)

theorem total_cons (i : ι) (rows : List ι) :
    total table (i::rows) a = uses (table i) a+total table rows a := by
  rw [total, List.map_cons, List.sum_cons]
  rfl

theorem total_pos_iff : 0 < total table rows a ↔ ∃ i ∈ rows, ∃ k, table i k = a := by
  induction rows with
  | nil => simp [total]
  | cons i rows ih =>
    rw [total_cons, Nat.add_pos_iff_pos_or_pos, ih, uses_pos_iff]
    simp only [List.mem_cons, exists_eq_or_imp]

theorem total_congr (h : ∀ i ∈ rows, ∀ k, table' i k = a ↔ table i k = a) :
    total table' rows a = total table rows a := by
  induction rows with
  | nil => rfl
  | cons i rows ih =>
    rw [total_cons, total_cons, uses_congr (h i List.mem_cons_self),
      ih (fun j hj => h j (List.mem_cons_of_mem _ hj))]

theorem total_row (hd : rows.Nodup) (hr : r ∈ rows)
    (h : ∀ i ∈ rows, i ≠ r → ∀ k, table' i k = a ↔ table i k = a) :
    total table' rows a+uses (table r) a = total table rows a+uses (table' r) a := by
  induction rows with
  | nil => cases hr
  | cons i rows ih =>
    obtain ⟨hnew,hd'⟩ := List.nodup_cons.mp hd
    rw [total_cons, total_cons]
    rcases List.mem_cons.mp hr with rfl | hmem
    · rw [total_congr table table' a (fun j hj =>
        h j (List.mem_cons_of_mem _ hj) (fun he => hnew (he ▸ hj)))]
      ring
    · have hne : i ≠ r := fun he => hnew (he ▸ hmem)
      have hrest := ih hd' hmem (fun j hj => h j (List.mem_cons_of_mem _ hj))
      rw [uses_congr (h i List.mem_cons_self hne)]
      omega

theorem total_rewrite [DecidableEq κ] (hd : rows.Nodup) (hr : r ∈ rows) (k : κ)
    (hothers : ∀ i ∈ rows, i ≠ r → ∀ l, table' i l = a ↔ table i l = a)
    (hrow : ∀ l, l ≠ k → table' r l = table r l) :
    total table' rows a+(if table r k = a then 1 else 0) =
      total table rows a+(if table' r k = a then 1 else 0) := by
  have htotal := total_row table table' a hd hr hothers
  have huses := uses_rewrite hrow a
  omega

end

end PreemptiveOS.CellCounts
