import PreemptiveOS.Console
import PreemptiveOS.TerminalLine

/-!
# Keys

The handler of the keyboard's interrupt reads a scan code. It keeps track of the
shift and control keys and turns the others into characters for the terminal's
buffer, which it also prints unless the output is stopped. What the keys mean is
written down a second time, by the rows of the keyboard and from the scan codes
that came before: a key is held if the last code about it was a press.
-/

set_option autoImplicit false

namespace PreemptiveOS.KeyboardDriver
open ByteMemory VirtMmgr Console TerminalLine UserBuffers

structure Keyboard where
  shift : Bool
  ctrl : Bool
  stopBufferOutput : Bool
  tty : Tty
  screen : Screen

def text (cs : List Char) : List Byte := cs.map (fun c => BitVec.ofNat 8 c.toNat)

/-- The rows of the keyboard with the codes of their first keys. -/
def rows : List (ℕ × List Byte) :=
  [(2,text ['1','2','3','4','5','6','7','8','9','0','-','=']),
    (16,text ['q','w','e','r','t','y','u','i','o','p','[',']']),
    (30,text ['a','s','d','f','g','h','j','k','l',';']++[39,96]),
    (43,92::text ['z','x','c','v','b','n','m',',','.','/']),
    (1,[27]),(14,[8,9]),(28,[10]),(55,text ['*']),(57,text [' ']),(73,text ['-']),(77,text ['+'])]

/-- One of the keys is held: the newest code about them is a press. -/
def held (keys older : List Byte) : Bool :=
  ((older.find? (fun c => c &&& 0x7F ∈ keys)).map (fun c => decide (c &&& 0x80 = 0))).getD false

def shiftHeld : List Byte → Bool := held [42,54]

def controlHeld : List Byte → Bool := held [29]

/-- The output is stopped by control with S and started again by control with Q. -/
def stopped : List Byte → Bool
  | [] => false
  | c::older =>
    if controlHeld older ∧ ¬ shiftHeld older ∧ (c = 31 ∨ c = 16) then c = 31 else stopped older

def Keeps (k : Keyboard) (older : List Byte) : Prop :=
  k.shift = shiftHeld older ∧ k.ctrl = controlHeld older ∧ k.stopBufferOutput = stopped older

section
variable {k : Keyboard} {older : List Byte} (h : Keeps k older)
include h

end

end PreemptiveOS.KeyboardDriver
