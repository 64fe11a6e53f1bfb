import PreemptiveOS.UserBuffers

/-!
# The line that is being typed

The keyboard puts characters at the head of the terminal's buffer and takes them
back by moving the head; a read waits for a new line, copies what was typed and
clears the buffer. Nothing looks at the ends of the buffer. The line is what the
same keys make of a list of characters, as long as it fits into the buffer and
nothing is erased from an empty line. A read adds a zero behind the characters it
returns, and those that it does not return are lost.
-/

set_option autoImplicit false

namespace PreemptiveOS.TerminalLine
open ByteMemory PhysMmgr VirtMmgr Vmas KernelObjects ExecWrites UserBuffers

structure Tty where
  mem : Mem
  inputBuffer : KernelPtr
  head : ℤ
  lineCursor : ℤ

def Tty.start (t : Tty) : ℕ := t.inputBuffer.val.toNat

def clearInputBuffer (t : Tty) : Tty := { t with head := t.start, lineCursor := 0 }

def ttyinit (s : Machine) : Machine × Tty :=
  ((object s).1,clearInputBuffer ⟨s.mem,(object s).2,0,0⟩)

def insertWrite (c : Byte) (t : Tty) : Write := ⟨t.start,t.head-t.start,c⟩

def insertCharIntoInputBuffer (c : Byte) (t : Tty) : Tty :=
  { t with
    mem := perform t.mem (insertWrite c t)
    head := t.head+1
    lineCursor := t.lineCursor+1 }

def eraseCharFromInputBuffer (t : Tty) : Tty :=
  { t with head := t.head-1, lineCursor := t.lineCursor-1 }

def typed (t : Tty) : List Byte :=
  (List.range t.lineCursor.toNat).map (fun i => t.mem (t.start+i))

def checkInputBuffer (t : Tty) : Bool := (typed t).any (fun b => b = 10)

def readLoop (buf src : ℕ) : ℕ → ℕ → Mem → List Write
  | 0, i, _ => [⟨buf,i,0⟩]
  | n+1, i, m => ⟨buf,i,m (src+i)⟩::readLoop buf src n (i+1) (perform m ⟨buf,i,m (src+i)⟩)

def terminalRead (buf size : ℕ) (t : Tty) : Option (Tty × List Write × ℕ) :=
  if checkInputBuffer t then
    let n := min size t.lineCursor.toNat
    let ws := readLoop buf t.start n 0 t.mem
    some (clearInputBuffer { t with mem := performAll ws t.mem },ws,n)
  else none

inductive Event where
  | insert (c : Byte)
  | erase
  | clear
  | read (b : UserBuffer)

def step (t : Tty) : Event → Tty
  | .insert c => insertCharIntoInputBuffer c t
  | .erase => eraseCharFromInputBuffer t
  | .clear => clearInputBuffer t
  | .read b => ((terminalRead b.addr b.size t).map Prod.fst).getD t

def lineWrites (t : Tty) : Event → List Write
  | .insert c => [insertWrite c t]
  | _ => []

def edited (line : List Byte) : Event → List Byte
  | .insert c => line++[c]
  | .erase => line.dropLast
  | .clear => []
  | .read _ => if 10 ∈ line then [] else line

structure Shows (t : Tty) (line : List Byte) : Prop where
  cursor : t.head = t.start+t.lineCursor
  lower : 0 ≤ t.lineCursor
  text : typed t = line

structure Consistent (t : Tty) (line : List Byte) : Prop where
  shows : Shows t line
  upper : t.lineCursor ≤ 4096

def StaysConsistent : Tty → List Byte → List Event → Prop
  | t, line, [] => Consistent t line
  | t, line, e::es => Consistent t line ∧ (∀ w ∈ lineWrites t e, w.Inside) ∧
    StaysConsistent (step t e) (edited line e) es

def Room (line : List Byte) : Event → Prop
  | .insert _ => line.length < 4096
  | .erase => line ≠ []
  | .clear => True
  | .read _ => True

def RunRoom : List Byte → List Event → Prop
  | _, [] => True
  | line, e::es => Room line e ∧ RunRoom (edited line e) es

section
variable {t : Tty} {line : List Byte} (h : Shows t line)
include h

theorem shows_length : t.lineCursor = line.length := by
  have hlower := h.lower
  rw [← h.text, typed, List.length_map, List.length_range]
  omega

theorem shows_byte {i : ℕ} (hi : i < line.length) : t.mem (t.start+i) = line.getD i 0 := by
  have hlen := shows_length h
  rw [← h.text, typed, range_getD (by omega)]

theorem check_iff : checkInputBuffer t = true ↔ 10 ∈ line := by
  simp [checkInputBuffer, h.text]

theorem insert_offset (c : Byte) : (insertWrite c t).offset = line.length := by
  rw [insertWrite, h.cursor, shows_length h]
  exact add_sub_cancel_left _ _

end

theorem shows_of_bytes (t : Tty) (line : List Byte) (hcursor : t.head = t.start+t.lineCursor)
    (hlen : t.lineCursor = line.length)
    (hbytes : ∀ i < line.length, t.mem (t.start+i) = line.getD i 0) : Shows t line := by
  refine ⟨hcursor,by omega,?_⟩
  rw [typed, hlen, Int.toNat_natCast]
  apply List.ext_getElem
  · simp
  · intro i hi hi'
    rw [List.getElem_map, List.getElem_range, hbytes i hi', List.getD_eq_getElem _ _ hi']

theorem shows_clear (t : Tty) : Shows (clearInputBuffer t) [] := by
  apply shows_of_bytes
  · simp [clearInputBuffer, Tty.start]
  · rfl
  · simp

theorem shows_init (s : Machine) : Shows (ttyinit s).2 [] := shows_clear _

section
variable {t : Tty} {line : List Byte} (h : Shows t line)
include h

theorem shows_insert (c : Byte) : Shows (insertCharIntoInputBuffer c t) (line++[c]) := by
  have hlen := shows_length h
  have hplace : ((insertWrite c t).page+(insertWrite c t).offset).toNat = t.start+line.length := by
    rw [insert_offset h c]
    exact Int.toNat_natCast _
  apply shows_of_bytes
  · simp only [insertCharIntoInputBuffer, Tty.start, h.cursor]
    ring
  · simp [insertCharIntoInputBuffer, hlen]
  · intro i hi
    rw [List.length_append, List.length_singleton] at hi
    have hmem : (insertCharIntoInputBuffer c t).mem (t.start+i) =
        if t.start+i = t.start+line.length then c else t.mem (t.start+i) := by
      rw [← hplace]
      rfl
    refine hmem.trans ?_
    by_cases hlast : i = line.length
    · rw [if_pos (by omega), hlast, List.getD_append_right _ _ _ _ le_rfl, Nat.sub_self]
      rfl
    · rw [if_neg (by omega), shows_byte h (by omega), List.getD_append _ _ _ _ (by omega)]

theorem shows_erase (hline : line ≠ []) :
    Shows (eraseCharFromInputBuffer t) line.dropLast := by
  have hlen := shows_length h
  have hpos := List.length_pos_iff.mpr hline
  apply shows_of_bytes
  · simp only [eraseCharFromInputBuffer, Tty.start, h.cursor]
    ring
  · simp only [eraseCharFromInputBuffer, hlen, List.length_dropLast]
    omega
  · intro i hi
    rw [List.length_dropLast] at hi
    refine (shows_byte h (by omega)).trans ?_
    rw [List.getD_eq_getElem?_getD, List.getD_eq_getElem?_getD, List.getElem?_dropLast,
      if_pos hi]

end

theorem buffer_start (t : Tty) : kernbase.toNat ≤ t.start := kernelPtr_above t.inputBuffer

theorem readLoop_copies {buf src n : ℕ} (i : ℕ) (m : Mem) (happart : buf+i+n < src) :
    readLoop buf src n i m =
      copyWrites buf i ((List.range n).map (fun j => m (src+i+j))++[0]) := by
  induction n generalizing i m with
  | zero => rfl
  | succ n ih =>
    have hkept : ∀ j, perform m ⟨buf,i,m (src+i)⟩ (src+(i+1)+j) = m (src+i+(j+1)) := by
      intro j
      rw [perform, poke, if_neg (by dsimp only; omega)]
      congr 1
      omega
    rw [readLoop, ih (i+1) _ (by omega), List.range_succ_eq_map, List.map_cons, List.map_map,
      List.cons_append, copyWrites]
    simp only [hkept, Function.comp_def, Nat.add_zero, Nat.cast_add, Nat.cast_one,
      Nat.succ_eq_add_one]

section
variable {t : Tty} {line : List Byte} (h : Shows t line) (b : UserBuffer)
include h

/-- A read copies the start of the line, as much as fits, and clears the buffer. -/
theorem terminalRead_line (hline : 10 ∈ line) :
    terminalRead b.addr b.size t =
      some (clearInputBuffer { t with
          mem := performAll (copyWrites b.addr 0 (line.take b.size++[0])) t.mem },
        copyWrites b.addr 0 (line.take b.size++[0]),min b.size line.length) := by
  have hlen := shows_length h
  have hstart := buffer_start t
  have huser := b.user
  have hcopy : readLoop b.addr t.start (min b.size t.lineCursor.toNat) 0 t.mem =
      copyWrites b.addr 0 (line.take b.size++[0]) := by
    rw [readLoop_copies 0 _ (by omega), hlen, Int.toNat_natCast]
    congr 2
    apply List.ext_getElem
    · simp
    · intro i hi hi'
      have hi : i < line.length := by
        rw [List.length_take] at hi'
        omega
      rw [List.getElem_map, List.getElem_range, Nat.add_zero, shows_byte h hi,
        List.getElem_take, List.getD_eq_getElem _ _ hi]
  simp only [terminalRead, (check_iff h).mpr hline, if_pos, hcopy]
  rw [hlen, Int.toNat_natCast]

theorem terminalRead_waits (hline : 10 ∉ line) : terminalRead b.addr b.size t = none := by
  rw [terminalRead, if_neg (fun hcheck => hline ((check_iff h).mp hcheck))]

theorem shows_read : Shows (step t (.read b)) (edited line (.read b)) := by
  by_cases hline : 10 ∈ line
  · rw [step, edited, if_pos hline, terminalRead_line h b hline]
    exact shows_clear _
  · rw [step, edited, if_neg hline, terminalRead_waits h b hline]
    exact h

theorem step_shows (e : Event) (hroom : e = .erase → line ≠ []) :
    Shows (step t e) (edited line e) := by
  cases e with
  | insert c => exact shows_insert h c
  | erase => exact shows_erase h (hroom rfl)
  | clear => exact shows_clear t
  | read b => exact shows_read h b

end

variable {e : Event}

section
variable {t : Tty} {line : List Byte} (h : Consistent t line)
include h

theorem consistent_short : line.length ≤ 4096 := by
  have hlen := shows_length h.shows
  have hupper := h.upper
  omega

theorem edited_short (hroom : Room line e) : (edited line e).length ≤ 4096 := by
  have hshort := consistent_short h
  cases e with
  | insert c =>
    rw [edited, List.length_append, List.length_singleton]
    exact hroom
  | erase =>
    rw [edited, List.length_dropLast]
    omega
  | clear => simp [edited]
  | read b =>
    rw [edited]
    split_ifs
    · simp
    · exact hshort

theorem step_consistent (hroom : Room line e) : Consistent (step t e) (edited line e) := by
  have hshows : Shows (step t e) (edited line e) := by
    apply step_shows h.shows
    rintro rfl
    exact hroom
  refine ⟨hshows,?_⟩
  rw [shows_length hshows]
  exact_mod_cast edited_short h hroom

theorem writes_inside (hroom : Room line e) : ∀ w ∈ lineWrites t e, w.Inside := by
  cases e with
  | insert c =>
    rw [lineWrites, List.forall_mem_singleton, Write.Inside, insert_offset h.shows]
    exact ⟨by omega,by exact_mod_cast hroom⟩
  | erase => simp [lineWrites]
  | clear => simp [lineWrites]
  | read b => simp [lineWrites]

theorem room_of_consistent (hwrites : ∀ w ∈ lineWrites t e, w.Inside)
    (hnext : Consistent (step t e) (edited line e)) : Room line e := by
  cases e with
  | insert c =>
    rw [lineWrites, List.forall_mem_singleton, Write.Inside, insert_offset h.shows] at hwrites
    exact_mod_cast hwrites.2
  | erase =>
    rintro rfl
    have hlen := shows_length h.shows
    have hlower : 0 ≤ t.lineCursor-1 := hnext.shows.lower
    rw [List.length_nil] at hlen
    omega
  | clear => trivial
  | read b => trivial

end

variable {es : List Event}

theorem stays_first {t : Tty} {line : List Byte} (h : StaysConsistent t line es) :
    Consistent t line := by
  cases es with
  | nil => exact h
  | cons e es => exact h.1

theorem stays_iff (t : Tty) (line : List Byte) (h : Consistent t line) :
    StaysConsistent t line es ↔ RunRoom line es := by
  induction es generalizing t line with
  | nil => exact ⟨fun _ => trivial,fun _ => h⟩
  | cons e es ih =>
    constructor
    · rintro ⟨-,hwrites,hrest⟩
      have hnext := stays_first hrest
      exact ⟨room_of_consistent h hwrites hnext,(ih _ _ hnext).mp hrest⟩
    · rintro ⟨hroom,hrest⟩
      exact ⟨h,writes_inside h hroom,(ih _ _ (step_consistent h hroom)).mpr hrest⟩

theorem consistent_init (s : Machine) : Consistent (ttyinit s).2 [] :=
  ⟨shows_init s,show (0 : ℤ) ≤ 4096 by decide⟩

/-- From the start on, the buffer shows the line exactly in those runs in which the
line always has room. -/
theorem line_buffer_consistent_iff (s : Machine) (es : List Event) :
    StaysConsistent (ttyinit s).2 [] es ↔ RunRoom [] es :=
  stays_iff _ _ (consistent_init s)

/-- Erasing from an empty line moves the head in front of the buffer. -/
theorem empty_line_erased : ¬ StaysConsistent (ttyinit Supply.firstKernel.machine).2 [] [.erase] := by
  rintro ⟨-,-,hnext⟩
  have hlower : (0 : ℤ) ≤ 0-1 := hnext.shows.lower
  omega

inductive Exchange where
  | insert (c : Byte)
  | read (b : UserBuffer)

def inserted : List Exchange → List Byte
  | [] => []
  | .insert c::xs => c::inserted xs
  | .read _::xs => inserted xs

def returned (b : UserBuffer) (t : Tty) : List Byte :=
  match terminalRead b.addr b.size t with
  | none => []
  | some (t',_,n) => (List.range n).map (fun i => t'.mem (b.addr+i))

def readWrites (b : UserBuffer) (t : Tty) : List Write :=
  match terminalRead b.addr b.size t with
  | none => []
  | some (_,ws,_) => ws

def delivered : Tty → List Exchange → List Byte
  | _, [] => []
  | t, .insert c::xs => delivered (step t (.insert c)) xs
  | t, .read b::xs => returned b t++delivered (step t (.read b)) xs

def ReadsStay : Tty → List Exchange → Prop
  | _, [] => True
  | t, .insert c::xs => ReadsStay (step t (.insert c)) xs
  | t, .read b::xs => Stays b (readWrites b t) ∧ ReadsStay (step t (.read b)) xs

structure Lossless (t : Tty) (xs : List Exchange) : Prop where
  order : delivered t xs <+: inserted xs
  stays : ReadsStay t xs

def ReadsFit : List Byte → List Exchange → Prop
  | _, [] => True
  | line, .insert c::xs => ReadsFit (line++[c]) xs
  | line, .read b::xs => (10 ∈ line → line.length < b.size) ∧ ReadsFit (edited line (.read b)) xs

section
variable {t : Tty} {line : List Byte} (h : Shows t line) (b : UserBuffer)
include h

theorem returned_line (hline : 10 ∈ line) : returned b t = line.take b.size := by
  rw [returned, terminalRead_line h b hline]
  dsimp only
  apply List.ext_getElem
  · simp
  · intro i hi hi'
    have hlt := hi'
    rw [List.length_take] at hlt
    rw [List.getElem_map, List.getElem_range]
    refine (copy_performed 0 _ t.mem (by omega) _).trans ?_
    rw [if_pos (by rw [List.length_append, List.length_take]; omega),
      show b.addr+i-((b.addr : ℤ)+0).toNat = i by omega, List.getD_append _ _ _ _ hi',
      List.getD_eq_getElem _ _ hi']

theorem returned_waits (hline : 10 ∉ line) : returned b t = [] := by
  rw [returned, terminalRead_waits h b hline]

theorem read_stays_iff : Stays b (readWrites b t) ↔ (10 ∈ line → line.length < b.size) := by
  by_cases hline : 10 ∈ line
  · rw [readWrites, terminalRead_line h b hline]
    dsimp only
    rw [stays_copy b 0 (by simp), List.length_append, List.length_take, List.length_singleton]
    simp only [hline, forall_const]
    omega
  · rw [readWrites, terminalRead_waits h b hline]
    exact ⟨fun _ hnew => absurd hnew hline,fun _ => by simp [Stays]⟩

end

variable {xs : List Exchange}

theorem reads_stay_iff (t : Tty) (line : List Byte) (h : Shows t line) :
    ReadsStay t xs ↔ ReadsFit line xs := by
  induction xs generalizing t line with
  | nil => exact Iff.rfl
  | cons x xs ih =>
    cases x with
    | insert c => exact ih _ _ (shows_insert h c)
    | read b => exact and_congr (read_stays_iff h b) (ih _ _ (shows_read h b))

theorem delivered_first (t : Tty) (line : List Byte) (h : Shows t line) (hfit : ReadsFit line xs) :
    delivered t xs <+: line++inserted xs := by
  induction xs generalizing t line with
  | nil => exact List.nil_prefix
  | cons x xs ih =>
    cases x with
    | insert c =>
      have hrest := ih _ _ (shows_insert h c) hfit
      rwa [List.append_assoc, List.singleton_append] at hrest
    | read b =>
      have hrest := ih _ _ (shows_read h b) hfit.2
      by_cases hline : 10 ∈ line
      · rw [edited, if_pos hline, List.nil_append] at hrest
        rw [delivered, returned_line h b hline, List.take_of_length_le (hfit.1 hline).le, inserted]
        exact (List.prefix_append_right_inj line).mpr hrest
      · rw [edited, if_neg hline] at hrest
        rwa [delivered, returned_waits h b hline, List.nil_append]

/-- Reads lose nothing and keep to their buffers exactly if each buffer is longer than
the line it gets. -/
theorem reads_lossless_iff (s : Machine) (xs : List Exchange) :
    Lossless (ttyinit s).2 xs ↔ ReadsFit [] xs := by
  have hshows := shows_init s
  constructor
  · intro h
    exact (reads_stay_iff _ _ hshows).mp h.stays
  · intro h
    exact ⟨delivered_first _ _ hshows h,(reads_stay_iff _ _ hshows).mpr h⟩

def oneByte : UserBuffer := ⟨4096,1,by decide,by decide⟩

def shortReads : List Exchange :=
  [.insert 97,.insert 10,.read oneByte,.insert 98,.insert 10,.read oneByte]

/-- Each read returns the first character of its line, and the second is gone. -/
theorem read_loses_character :
    delivered (ttyinit Supply.firstKernel.machine).2 shortReads = [97,98] ∧
      ¬ Lossless (ttyinit Supply.firstKernel.machine).2 shortReads := by
  have hstart := shows_init Supply.firstKernel.machine
  generalize (ttyinit Supply.firstKernel.machine).2 = t at hstart ⊢
  have hfirst := shows_insert (shows_insert hstart 97) 10
  have hcleared := shows_read hfirst oneByte
  have hsecond := shows_insert (shows_insert hcleared 98) 10
  have hdelivered : delivered t shortReads = [97,98] := by
    simp only [shortReads, delivered, step]
    rw [returned_line hfirst oneByte (by decide)]
    refine congrArg (List.cons 97) ?_
    rw [List.append_nil]
    exact returned_line hsecond oneByte (by decide)
  refine ⟨hdelivered,fun h => ?_⟩
  have horder := h.order
  rw [hdelivered] at horder
  exact absurd horder (by decide)

end PreemptiveOS.TerminalLine
