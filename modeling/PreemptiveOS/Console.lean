import PreemptiveOS.ByteMemory

/-!
# The text screen

`kputchar` puts a character into the cell at the cursor and moves the cursor, to
the next row at the end of one. Nothing scrolls, and the cursor's row grows
without end. The keyboard's backspace moves the cursor back by an unsigned
subtraction, from the first column to one that is far to the right; the cell that
is then reached is the last one of the row above, as the index wraps around.
-/

set_option autoImplicit false

namespace PreemptiveOS.Console
open ByteMemory

structure Screen where
  x : BitVec 32
  y : BitVec 32
  deriving DecidableEq, Repr

structure Cell where
  index : BitVec 32
  value : BitVec 16
  deriving DecidableEq, Repr

def color : BitVec 16 := 0x0A

def setX (x : BitVec 32) (s : Screen) : Screen := { s with x := x }

/-- A `char` is signed, so that bytes from 128 on are not printed. -/
def Printing (c : Byte) : Prop := 32 ≤ c.toInt

instance printing_decidable (c : Byte) : Decidable (Printing c) := by
  unfold Printing
  infer_instance

def endOfRow (s : Screen) : Screen := if 80 ≤ s.x then ⟨0,s.y+1⟩ else s

def kputchar (c : Byte) (s : Screen) : Screen × List Cell :=
  if Printing c then
    (endOfRow ⟨s.x+1,s.y⟩,[⟨s.y*80+s.x,c.setWidth 16 ||| (color <<< 8)⟩])
  else if c = 13 then (endOfRow ⟨0,s.y⟩,[])
  else if c = 10 then (endOfRow ⟨0,s.y+1⟩,[])
  else (endOfRow s,[])

def kputs : List Byte → Screen → Screen × List Cell
  | [], s => (s,[])
  | c::cs, s => ((kputs cs (kputchar c s).1).1,(kputchar c s).2++(kputs cs (kputchar c s).1).2)

def digit (d : ℕ) : Byte := if d < 10 then BitVec.ofNat 8 (48+d) else BitVec.ofNat 8 (55+d)

def digitsBefore (base : ℕ) : ℕ → ℕ → List Byte → List Byte
  | 0, _, p => p
  | k+1, ret, p => if ret = 0 then p else digitsBefore base k (ret/base) (digit (ret%base)::p)

def numeral (base n : ℕ) : List Byte := if n = 0 then [digit 0] else digitsBefore base 32 n []

def convertToBase (i : BitVec 32) (base : ℕ) : List Byte := numeral base i.toNat

inductive Arg where
  | int (i : BitVec 32)
  | str (s : List Byte)

def Arg.toInt : Arg → BitVec 32
  | .int i => i
  | .str _ => 0

def Arg.toStr : Arg → List Byte
  | .int _ => []
  | .str s => s

def directive (c : Byte) (arg : Arg) : Option (List Byte) :=
  if c = 100 then
    some (if arg.toInt.toInt < 0 then 45::convertToBase (-arg.toInt) 10
      else convertToBase arg.toInt 10)
  else if c = 99 then some [arg.toInt.setWidth 8]
  else if c = 120 ∨ c = 112 then some (convertToBase arg.toInt 16)
  else if c = 115 then some arg.toStr
  else if c = 111 then some (convertToBase arg.toInt 8)
  else none

def formatted : List Byte → List Arg → List Byte
  | [], _ => []
  | [b], _ => if b = 37 then [] else [b]
  | b::c::rest, args =>
    if b = 37 then
      match directive c (args.headD (.int 0)) with
      | none => formatted rest args
      | some text => text++formatted rest args.tail
    else b::formatted (c::rest) args

def kprintf (fmt : List Byte) (args : List Arg) (s : Screen) : Screen × List Cell :=
  kputs (formatted fmt args) s

def backspace (s : Screen) : Screen × List Cell :=
  let printed := kprintf [32] [] (setX (s.x-1) s)
  (setX (printed.1.x-1) printed.1,printed.2)

inductive Output where
  | kputchar (c : Byte)
  | backspace
  deriving DecidableEq, Repr

def outputStep (s : Screen) : Output → Screen × List Cell
  | .kputchar c => kputchar c s
  | .backspace => backspace s

def outputRun : List Output → Screen → Screen × List Cell
  | [], s => (s,[])
  | o::os, s =>
    ((outputRun os (outputStep s o).1).1,(outputStep s o).2++(outputRun os (outputStep s o).1).2)

def Fits (s : Screen) : Output → Prop
  | .kputchar c => Printing c → s.y.toNat < 25
  | .backspace => s.y.toNat < 25 ∧ ¬ (s.x = 0 ∧ s.y = 0)

def RunFits : List Output → Screen → Prop
  | [], _ => True
  | o::os, s => Fits s o ∧ RunFits os (outputStep s o).1

def OnGrid (s : Screen) : Prop := s.x.toNat < 80 ∨ s.x = -1 ∧ 1 ≤ s.y.toNat

variable {s : Screen}

theorem endOfRow_grid : (endOfRow s).x.toNat < 80 := by
  rw [endOfRow]
  split_ifs with h
  · exact show 0 < 80 by decide
  · exact not_le.mp h

theorem kputchar_grid (c : Byte) (s : Screen) : (kputchar c s).1.x.toNat < 80 := by
  rw [kputchar]
  split_ifs <;> exact endOfRow_grid

theorem cell_index {x y : BitVec 32} (hy : y.toNat < 25)
    (hx : x.toNat < 80 ∨ (x = -1 ∨ x = -2) ∧ 1 ≤ y.toNat) : (y*80+x).toNat < 80*25 := by
  rw [BitVec.toNat_add, BitVec.toNat_mul, show (80 : BitVec 32).toNat = 80 from rfl,
    Nat.mod_eq_of_lt (show y.toNat*80 < 2^32 by omega)]
  rcases hx with hx | ⟨rfl | rfl,hy'⟩
  · rw [Nat.mod_eq_of_lt (by omega)]
    omega
  · rw [show (-1 : BitVec 32).toNat = 2^32-1 from rfl,
      show y.toNat*80+(2^32-1) = y.toNat*80-1+2^32 by omega, Nat.add_mod_right,
      Nat.mod_eq_of_lt (by omega)]
    omega
  · rw [show (-2 : BitVec 32).toNat = 2^32-2 from rfl,
      show y.toNat*80+(2^32-2) = y.toNat*80-2+2^32 by omega, Nat.add_mod_right,
      Nat.mod_eq_of_lt (by omega)]
    omega

theorem kputchar_cells {c : Byte} (hy : Printing c → s.y.toNat < 25)
    (hx : s.x.toNat < 80 ∨ (s.x = -1 ∨ s.x = -2) ∧ 1 ≤ s.y.toNat) :
    ∀ cell ∈ (kputchar c s).2, cell.index.toNat < 80*25 := by
  intro cell hcell
  by_cases hc : Printing c
  · rw [kputchar, if_pos hc] at hcell
    rw [List.mem_singleton.mp hcell]
    exact cell_index (hy hc) hx
  · rw [kputchar, if_neg hc] at hcell
    split_ifs at hcell <;> exact absurd hcell (by simp)

theorem backspace_eq (s : Screen) : backspace s =
    (setX ((kputchar 32 (setX (s.x-1) s)).1.x-1) (kputchar 32 (setX (s.x-1) s)).1,
      (kputchar 32 (setX (s.x-1) s)).2) := by
  have hblank : formatted [32] [] = [32] := by decide
  simp only [backspace, kprintf, hblank, kputs, List.append_nil]

theorem left_of_grid (hg : OnGrid s) (hf : Fits s .backspace) :
    (s.x-1).toNat < 80 ∨ (s.x-1 = -1 ∨ s.x-1 = -2) ∧ 1 ≤ s.y.toNat := by
  rcases hg with hx | ⟨hx,hy⟩
  · by_cases h0 : s.x = 0
    · have hy : s.y ≠ 0 := fun hy => hf.2 ⟨h0,hy⟩
      have hpos : s.y.toNat ≠ 0 := fun hz => hy (BitVec.eq_of_toNat_eq hz)
      rw [h0]
      exact Or.inr ⟨Or.inl (by decide),by omega⟩
    · have hpos : s.x.toNat ≠ 0 := fun hz => h0 (BitVec.eq_of_toNat_eq hz)
      left
      rw [BitVec.toNat_sub, show (1 : BitVec 32).toNat = 1 from rfl]
      omega
  · rw [hx]
    exact Or.inr ⟨Or.inr (by decide),hy⟩

theorem blank_row (s : Screen) (hy : s.y.toNat < 25) (hx : s.x.toNat < 80 ∨ 1 ≤ s.y.toNat)
    (hzero : (kputchar 32 s).1.x = 0) : 1 ≤ (kputchar 32 s).1.y.toNat := by
  rw [kputchar, if_pos (by decide), endOfRow] at hzero ⊢
  dsimp only at hzero ⊢
  have hnext : (s.y+1).toNat = s.y.toNat+1 := by
    rw [BitVec.toNat_add, show (1 : BitVec 32).toNat = 1 from rfl]
    omega
  split_ifs at hzero ⊢ with hrow
  · rw [hnext]
    omega
  · rcases hx with hx | hy'
    · have hcolumn := congrArg BitVec.toNat hzero
      rw [BitVec.toNat_add, show (1 : BitVec 32).toNat = 1 from rfl,
        show (0 : BitVec 32).toNat = 0 from rfl] at hcolumn
      omega
    · exact hy'

variable {o : Output}

theorem step_grid (hg : OnGrid s) (hf : Fits s o) : OnGrid (outputStep s o).1 := by
  cases o with
  | kputchar c => exact Or.inl (kputchar_grid c s)
  | backspace =>
    have hleft := left_of_grid hg hf
    have hgrid := kputchar_grid 32 (setX (s.x-1) s)
    have hrow := blank_row (setX (s.x-1) s) hf.1 (hleft.imp id And.right)
    rw [outputStep, backspace_eq]
    generalize (kputchar 32 (setX (s.x-1) s)).1 = t at hgrid hrow ⊢
    by_cases h0 : t.x = 0
    · refine Or.inr ⟨?_,hrow h0⟩
      rw [setX, h0]
      rfl
    · have hpos : t.x.toNat ≠ 0 := fun hz => h0 (BitVec.eq_of_toNat_eq hz)
      left
      rw [setX, BitVec.toNat_sub, show (1 : BitVec 32).toNat = 1 from rfl]
      omega

theorem step_cells (hg : OnGrid s) (hf : Fits s o) :
    ∀ cell ∈ (outputStep s o).2, cell.index.toNat < 80*25 := by
  cases o with
  | kputchar c => exact kputchar_cells hf (hg.imp id (fun h => ⟨Or.inl h.1,h.2⟩))
  | backspace =>
    rw [outputStep, backspace_eq]
    exact kputchar_cells (fun _ => hf.1) (left_of_grid hg hf)

theorem run_cells {os : List Output} (s : Screen) (hg : OnGrid s) (hf : RunFits os s) :
    ∀ cell ∈ (outputRun os s).2, cell.index.toNat < 80*25 := by
  induction os generalizing s with
  | nil => simp [outputRun]
  | cons o os ih =>
    intro cell hcell
    rcases List.mem_append.mp hcell with hfirst | hrest
    · exact step_cells hg hf.1 cell hfirst
    · exact ih _ (step_grid hg hf.1) hf.2 cell hrest

/-- Output stays on the screen as long as the cursor's row does and nothing is
erased in the corner. -/
theorem output_on_screen (os : List Output) (hf : RunFits os ⟨0,0⟩) :
    ∀ cell ∈ (outputRun os ⟨0,0⟩).2, cell.index.toNat < 80*25 :=
  run_cells ⟨0,0⟩ (Or.inl (by decide)) hf

/-- A letter, a new line and a backspace, which goes to the end of the first row. -/
theorem output_on_screen_line :
    (outputRun [.kputchar 97,.kputchar 10,.backspace] ⟨0,0⟩).2 = [⟨0,0x0A61⟩,⟨79,0x0A20⟩] ∧
      ∀ cell ∈ (outputRun [.kputchar 97,.kputchar 10,.backspace] ⟨0,0⟩).2,
        cell.index.toNat < 80*25 := by
  refine ⟨by decide,output_on_screen _ ?_⟩
  simp only [RunFits, Fits]
  decide

/-- A letter below the last row, and a backspace in the corner. -/
theorem output_leaves_screen :
    ¬ (∀ cell ∈ (outputRun (List.replicate 25 (.kputchar 10)++[.kputchar 97]) ⟨0,0⟩).2,
        cell.index.toNat < 80*25) ∧
      ¬ ∀ cell ∈ (outputRun [.backspace] ⟨0,0⟩).2, cell.index.toNat < 80*25 := by
  decide

end PreemptiveOS.Console
