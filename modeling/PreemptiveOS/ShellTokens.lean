import PreemptiveOS.HeapBlocks
import PreemptiveOS.StringTokens

/-!
# The words of a command line

`tokenize_string` of the shell collects the characters of a word in an array of 64
bytes, and at the first blank behind the word copies it into a block of its own. The
pointers to the blocks go into an array of 32 entries that a null pointer ends. Words
are stored only at a blank, so that a line has to end with one.
-/

set_option autoImplicit false

namespace PreemptiveOS.ShellTokens
open ByteMemory HeapBlocks

def isWhitespace (c : Byte) : Bool :=
  c = 32 ∨ c = 12 ∨ c = 10 ∨ c = 13 ∨ c = 9 ∨ c = 11

def clearArray (p : List Byte) (size : ℕ) : Option (List Byte) :=
  putAll p 0 (List.replicate size 0)

structure Tokenizer where
  cmd : List Byte
  i : ℕ
  isPrevFound : Bool
  cmds : List (Option ℕ)
  index : ℕ
  heap : List (List Byte)

def copyWord : List Byte → ℕ → List Byte → Option (List Byte)
  | [], _, _ => none
  | c::cs, i, dst => if c = 0 then some dst else (put dst i c).bind (fun d => copyWord cs (i+1) d)

def storeWord (t : Tokenizer) : Option Tokenizer :=
  (put t.cmd t.i 0).bind (fun cmd =>
    let block := malloc (0 : Byte) t.heap 64
    (copyWord cmd 0 (List.replicate 64 0)).bind (fun dst =>
      (put t.cmds t.index (some block.2)).bind (fun cmds =>
        (clearArray cmd 64).map (fun cleared =>
          ⟨cleared,0,false,cmds,t.index+1,block.1.set block.2 dst⟩))))

def tokenStep (c : Byte) (t : Tokenizer) : Option Tokenizer :=
  if isWhitespace c then
    if t.isPrevFound then storeWord t else some t
  else (put t.cmd t.i c).map (fun cmd => { t with cmd := cmd, i := t.i+1, isPrevFound := true })

def tokenLoop : List Byte → Tokenizer → Option Tokenizer
  | [], t => some t
  | c::cs, t => (tokenStep c t).bind (tokenLoop cs)

/-- The array of pointers that is returned, with the blocks. The array `cmd` holds `old` at
first, and `malloc` returns zeros. -/
def tokenizeString (old : ℕ → Byte) (heap : List (List Byte)) (string : List Byte) :
    Option (List (Option ℕ) × List (List Byte)) :=
  (clearArray ((List.range 64).map old) 64).bind (fun cmd =>
    (tokenLoop string ⟨cmd,0,false,List.replicate 32 none,0,heap⟩).bind (fun t =>
      (put t.cmd t.i 0).bind (fun _ => (put t.cmds t.index none).map (fun cmds => (cmds,t.heap)))))

def words (line : List Byte) : List (List Byte) :=
  (line.splitOnP isWhitespace).filter (fun w => w ≠ [])

def wordBlock (w : List Byte) : List Byte := w++List.replicate (64-w.length) 0

def stored (heap : List (List Byte)) (ws : List (List Byte)) (cur : List Byte) : Tokenizer where
  cmd := wordBlock cur
  i := cur.length
  isPrevFound := cur ≠ []
  cmds := (List.range' heap.length ws.length).map some++List.replicate (32-ws.length) none
  index := ws.length
  heap := heap++ws.map wordBlock

theorem clearArray_zeros {p : List Byte} (hp : p.length = 64) :
    clearArray p 64 = some (List.replicate 64 0) := by
  have h := putAll_between [] p (List.replicate 64 0) [] (by simpa using hp)
  simpa [clearArray] using h

theorem replicate_rest {α : Type} {size n : ℕ} (a : α) (hn : n < size) :
    List.replicate (size-n) a = a::List.replicate (size-(n+1)) a := by
  rw [← List.replicate_succ]
  congr 1
  omega

variable {w : List Byte}

theorem wordBlock_split (hw : w.length < 64) :
    wordBlock w = w++0::List.replicate (64-(w.length+1)) 0 := by
  rw [wordBlock, replicate_rest 0 hw]

theorem wordBlock_length (hw : w.length ≤ 64) : (wordBlock w).length = 64 := by
  rw [wordBlock, List.length_append, List.length_replicate]
  omega

theorem copyWord_text {rest : List Byte} (i : ℕ) (dst : List Byte) (hw : ∀ c ∈ w, c ≠ 0) :
    copyWord (w++0::rest) i dst = putAll dst i w := by
  induction w generalizing i dst with
  | nil => rfl
  | cons c w ih =>
    rw [List.cons_append, copyWord, if_neg (hw c List.mem_cons_self), putAll]
    congr 1
    funext d
    exact ih (i+1) d (fun e he => hw e (List.mem_cons_of_mem c he))

variable {c : Byte} {cur : List Byte}

theorem tokenStep_char (heap : List (List Byte)) (ws : List (List Byte))
    (hc : isWhitespace c = false) (hlen : cur.length < 64) :
    tokenStep c (stored heap ws cur) = some (stored heap ws (cur++[c])) := by
  have hput : put (wordBlock cur) cur.length c = some (wordBlock (cur++[c])) := by
    rw [wordBlock_split hlen, put_between, wordBlock, List.length_append,
      List.length_singleton, List.append_assoc]
    rfl
  have hcmd : (stored heap ws cur).cmd = wordBlock cur := rfl
  have hi : (stored heap ws cur).i = cur.length := rfl
  rw [tokenStep, if_neg (by simp [hc]), hcmd, hi, hput, Option.map_some]
  simp [stored]

theorem tokenStep_blank (heap : List (List Byte)) (ws : List (List Byte))
    (hc : isWhitespace c = true) : tokenStep c (stored heap ws []) = some (stored heap ws []) := by
  rw [tokenStep, if_pos hc]
  rfl

variable {ws : List (List Byte)}

theorem tokenStep_word (heap : List (List Byte)) (hc : isWhitespace c = true) (hcur : cur ≠ [])
    (hlen : cur.length < 64) (hws : ws.length < 32) (htext : ∀ b ∈ cur, b ≠ 0) :
    tokenStep c (stored heap ws cur) = some (stored heap (ws++[cur]) []) := by
  have hcmd : put (wordBlock cur) cur.length 0 = some (wordBlock cur) := by
    rw [wordBlock_split hlen, put_between]
  have hcopy : copyWord (wordBlock cur) 0 (List.replicate 64 0) = some (wordBlock cur) := by
    have hzeros : List.replicate 64 (0 : Byte) =
        []++List.replicate cur.length 0++List.replicate (64-cur.length) 0 := by
      rw [List.nil_append, ← List.replicate_add]
      congr 1
      omega
    rw [wordBlock_split hlen, copyWord_text 0 _ htext, hzeros]
    have hput := putAll_between [] (List.replicate cur.length (0 : Byte)) cur
      (List.replicate (64-cur.length) 0) List.length_replicate
    rw [← wordBlock_split hlen]
    exact hput
  have hheap : heap.length+ws.length = (heap++ws.map wordBlock).length := by simp
  have hptr : put ((List.range' heap.length ws.length).map some++List.replicate (32-ws.length) none)
      ws.length (some (heap++ws.map wordBlock).length) =
      some ((List.range' heap.length (ws.length+1)).map some++
        List.replicate (32-(ws.length+1)) none) := by
    have hlen' : ((List.range' heap.length ws.length).map some).length = ws.length := by simp
    have hput := put_between ((List.range' heap.length ws.length).map some) none
      (List.replicate (32-(ws.length+1)) none) (some (heap.length+ws.length))
    rw [hlen'] at hput
    rw [replicate_rest none hws, ← hheap, hput, List.range'_1_concat]
    simp
  have hclear := clearArray_zeros (wordBlock_length hlen.le)
  have hfound : (stored heap ws cur).isPrevFound = true := by simp [stored, hcur]
  rw [tokenStep, if_pos hc, if_pos hfound, storeWord]
  simp only [stored, malloc, hcmd, hcopy, hptr, hclear, Option.bind_some, Option.map_some]
  simp [wordBlock]

def runsFrom (cur line : List Byte) : List (List Byte) :=
  (line.splitOnP isWhitespace).modifyHead (fun w => cur++w)

theorem runsFrom_nil (cur : List Byte) : runsFrom cur [] = [cur] := by simp [runsFrom]

theorem runsFrom_start (line : List Byte) : runsFrom [] line = line.splitOnP isWhitespace := by
  rw [runsFrom]
  cases line.splitOnP isWhitespace <;> rfl

theorem runsFrom_blank (cur cs : List Byte) (hc : isWhitespace c = true) :
    runsFrom cur (c::cs) = cur::runsFrom [] cs := by
  rw [runsFrom_start, runsFrom, List.splitOnP_cons_eq_if_modifyHead, if_pos hc, List.modifyHead_cons,
    List.append_nil]

theorem runsFrom_char (cur cs : List Byte) (hc : isWhitespace c = false) :
    runsFrom cur (c::cs) = runsFrom (cur++[c]) cs := by
  rw [runsFrom, runsFrom, List.splitOnP_cons_eq_if_modifyHead, if_neg (by simp [hc]),
    List.modifyHead_modifyHead]
  congr 1
  funext w
  simp

theorem runsFrom_head (cur cs : List Byte) : ∃ w rest, runsFrom cur cs = (cur++w)::rest := by
  obtain ⟨w,rest,h⟩ := List.exists_cons_of_ne_nil (List.splitOnP_ne_nil isWhitespace cs)
  exact ⟨w,rest,by rw [runsFrom, h, List.modifyHead_cons]⟩

def nonempty (runs : List (List Byte)) : List (List Byte) := runs.filter (fun w => w ≠ [])

theorem tokenLoop_words (heap : List (List Byte)) {line : List Byte} (ws : List (List Byte))
    (cur : List Byte) (htext : ∀ b ∈ line, b ≠ 0) (hcur : ∀ b ∈ cur, b ≠ 0)
    (hend : ∀ b ∈ line.getLast?, isWhitespace b = true) (hnil : line = [] → cur = [])
    (hlen : ∀ w ∈ runsFrom cur line, w.length ≤ 63)
    (hcount : ws.length+(nonempty (runsFrom cur line)).length ≤ 31) :
    tokenLoop line (stored heap ws cur) =
      some (stored heap (ws++nonempty (runsFrom cur line)) []) := by
  induction line generalizing ws cur with
  | nil =>
    rw [hnil rfl, runsFrom_nil]
    simp [tokenLoop, nonempty]
  | cons c cs ih =>
    have htext' : ∀ b ∈ cs, b ≠ 0 := fun b hb => htext b (List.mem_cons_of_mem c hb)
    have hend' : ∀ b ∈ cs.getLast?, isWhitespace b = true := by
      intro b hb
      apply hend b
      rw [List.getLast?_cons, hb]
      rfl
    rw [tokenLoop]
    by_cases hc : isWhitespace c = true
    · rw [runsFrom_blank cur cs hc] at hlen hcount ⊢
      have hlen' := fun w hw => hlen w (List.mem_cons_of_mem cur hw)
      by_cases hempty : cur = []
      · subst hempty
        have hskip : nonempty ([]::runsFrom [] cs) = nonempty (runsFrom [] cs) := by simp [nonempty]
        rw [hskip] at hcount ⊢
        rw [tokenStep_blank heap ws hc, Option.bind_some]
        exact ih ws [] htext' (by simp) hend' (fun _ => rfl) hlen' hcount
      · have hkeep : nonempty (cur::runsFrom [] cs) = cur::nonempty (runsFrom [] cs) := by
          simp [nonempty, hempty]
        rw [hkeep, List.length_cons] at hcount
        have hcur64 := hlen cur List.mem_cons_self
        rw [hkeep, tokenStep_word heap hc hempty (by omega) (by omega) hcur, Option.bind_some,
          ih (ws++[cur]) [] htext' (by simp) hend' (fun _ => rfl) hlen'
            (by rw [List.length_append, List.length_singleton]; omega), List.append_assoc]
        rfl
    · have hc' : isWhitespace c = false := by simpa using hc
      -- the last character is a blank, so that this one is not the last
      have hcs : cs ≠ [] := by
        rintro rfl
        exact hc (hend c rfl)
      rw [runsFrom_char cur cs hc'] at hlen hcount ⊢
      obtain ⟨w,rest,hhead⟩ := runsFrom_head (cur++[c]) cs
      have hfirst := hlen (cur++[c]++w) (by rw [hhead]; exact List.mem_cons_self)
      rw [List.length_append, List.length_append, List.length_singleton] at hfirst
      rw [tokenStep_char heap ws hc' (by omega), Option.bind_some]
      refine ih ws (cur++[c]) htext' ?_ hend' (fun h => absurd h hcs) hlen hcount
      intro b hb
      rcases List.mem_append.mp hb with hb | hb
      · exact hcur b hb
      · rw [List.mem_singleton.mp hb]
        exact htext c List.mem_cons_self

def PointsTo (heap : List (List Byte)) (ptr : ℕ) (w : List Byte) : Prop :=
  ∃ rest, heap[ptr]? = some (w++0::rest)

theorem stored_points (heap : List (List Byte)) (hlen : ∀ w ∈ ws, w.length ≤ 63) :
    List.Forall₂ (PointsTo (heap++ws.map wordBlock)) (List.range' heap.length ws.length) ws := by
  rw [List.forall₂_iff_get]
  refine ⟨List.length_range',?_⟩
  intro k _ hk
  have hw := hlen ws[k] (List.getElem_mem hk)
  refine ⟨List.replicate (64-((ws[k]).length+1)) 0,?_⟩
  rw [List.get_eq_getElem, List.get_eq_getElem, List.getElem_range', Nat.one_mul,
    List.getElem?_append_right (by omega), Nat.add_sub_cancel_left, List.getElem?_map,
    List.getElem?_eq_getElem hk, Option.map_some, wordBlock_split (by omega)]

/-- The pointers of the array, up to the null pointer, are those of the words in their order, in
blocks that are different and new. All other blocks are as before. -/
theorem tokenize_splits (old : ℕ → Byte) (heap : List (List Byte)) (line : List Byte) (blank : Byte)
    (htext : ∀ b ∈ line, b ≠ 0) (hend : line.getLast? = some blank)
    (hblank : isWhitespace blank = true)
    (hcount : (words line).length ≤ 31) (hlen : ∀ w ∈ words line, w.length ≤ 63) :
    ∃ cmds heap' ptrs, tokenizeString old heap line = some (cmds,heap') ∧
      cmds.take ((words line).length+1) = ptrs.map some++[none] ∧
      List.Forall₂ (PointsTo heap') ptrs (words line) ∧ ptrs.Nodup ∧
      (∀ p ∈ ptrs, heap.length ≤ p) ∧ heap'.take heap.length = heap := by
  have hwords : nonempty (runsFrom [] line) = words line := by
    rw [runsFrom_start]
    rfl
  have hruns : ∀ w ∈ runsFrom [] line, w.length ≤ 63 := by
    intro w hw
    by_cases hempty : w = []
    · rw [hempty]
      exact Nat.zero_le _
    · apply hlen w
      rw [← hwords, nonempty, List.mem_filter]
      exact ⟨hw,by simpa using hempty⟩
  have hloop := tokenLoop_words heap [] [] htext (by simp)
    (by rw [hend]; simpa using hblank) (fun _ => rfl) hruns (by simpa [hwords] using hcount)
  rw [hwords, List.nil_append] at hloop
  have hstart : stored heap [] [] =
      ⟨List.replicate 64 0,0,false,List.replicate 32 none,0,heap⟩ := by
    simp [stored, wordBlock]
  have hput : put (stored heap (words line) []).cmds (words line).length none =
      some (stored heap (words line) []).cmds := by
    have hbetween := put_between ((List.range' heap.length (words line).length).map some) none
      (List.replicate (32-((words line).length+1)) none) none
    rw [List.length_map, List.length_range'] at hbetween
    rw [stored, replicate_rest none (by omega)]
    exact hbetween
  refine ⟨(stored heap (words line) []).cmds,heap++(words line).map wordBlock,
    List.range' heap.length (words line).length,?_,?_,stored_points heap hlen,
    List.nodup_range',?_,List.take_left⟩
  · rw [tokenizeString, clearArray_zeros (by simp), Option.bind_some, ← hstart, hloop,
      Option.bind_some]
    have hcmd : put (stored heap (words line) []).cmd 0 0 = some (wordBlock []) :=
      put_between [] 0 (List.replicate 63 0) 0
    show (put (stored heap (words line) []).cmd 0 0).bind _ = _
    rw [hcmd, Option.bind_some]
    show (put (stored heap (words line) []).cmds (words line).length none).map _ = _
    rw [hput]
    rfl
  · have hlength : ((List.range' heap.length (words line).length).map some).length =
        (words line).length := by rw [List.length_map, List.length_range']
    rw [stored, replicate_rest none (by omega)]
    dsimp only
    rw [List.take_append, List.take_of_length_le (by omega), hlength, Nat.add_sub_cancel_left]
    rfl
  · intro p hp
    exact (List.mem_range'_1.mp hp).1

/-- The line ` ls  -a` and a new line. -/
theorem tokenize_splits_command : ∃ cmds heap' ptrs,
    tokenizeString (fun _ => 7) [[1]] [32,108,115,32,32,45,97,10] = some (cmds,heap') ∧
      cmds.take 3 = ptrs.map some++[none] ∧
      List.Forall₂ (PointsTo heap') ptrs [[108,115],[45,97]] ∧ ptrs.Nodup ∧
      (∀ p ∈ ptrs, 1 ≤ p) ∧ heap'.take 1 = [[1]] :=
  tokenize_splits (fun _ => 7) [[1]] [32,108,115,32,32,45,97,10] 10 (by decide) rfl rfl (by decide)
    (by decide)

end PreemptiveOS.ShellTokens
