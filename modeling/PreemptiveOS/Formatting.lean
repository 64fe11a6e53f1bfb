import PreemptiveOS.CStrings
import PreemptiveOS.Numerals
import PreemptiveOS.UserBuffers

/-!
# Formatted text of the library

`vprintf` reads a format as `kprintf` does and stores the characters in a buffer. A
negative number loses its sign, and an empty format counts as one character. The size
of the buffer is never looked at, so that the text stays in it only if it is shorter.
-/

set_option autoImplicit false

namespace PreemptiveOS.Formatting
open ByteMemory Console Numerals ExecWrites UserBuffers CStrings

inductive VaArg where
  | int (i : BitVec 32)
  | str (s : Text)

/-- A variable argument is read as the directive asks. An argument of the other kind is
undefined in C, and what is read here means nothing then. -/
def VaArg.toInt : VaArg → BitVec 32
  | .int i => i
  | .str _ => 0

def VaArg.toStr : VaArg → List Byte
  | .int _ => []
  | .str s => s.chars

def VaArg.arg : VaArg → Arg
  | .int i => .int i
  | .str s => .str s.chars

def storedText (c : Byte) (arg : VaArg) : Option (List Byte) :=
  if c = 115 then some arg.toStr
  else if c = 100 then
    some (if arg.toInt.toInt < 0 then convertToBase (-arg.toInt) 10 else convertToBase arg.toInt 10)
  else if c = 99 then some [arg.toInt.setWidth 8]
  else if c = 120 ∨ c = 112 then some (convertToBase arg.toInt 16)
  else if c = 111 then some (convertToBase arg.toInt 8)
  else none

def vprintfLoop (buf : ℕ) : List Byte → List VaArg → ℕ → Word → List Write × ℕ × Word
  | [], _, temp, n => ([],temp,n)
  | [b], _, temp, n => if b = 37 then ([],temp,n) else (copyWrites buf temp [b],temp+1,n+1)
  | b::c::rest, args, temp, n =>
    if b = 37 then
      match storedText c (args.headD (.int 0)) with
      | none => vprintfLoop buf rest args temp n
      | some text =>
        let r := vprintfLoop buf rest args.tail (temp+text.length) (n+BitVec.ofNat 64 text.length)
        (copyWrites buf temp text++r.1,r.2)
    else
      let r := vprintfLoop buf (c::rest) args (temp+1) (n+1)
      (copyWrites buf temp [b]++r.1,r.2)

def vprintf (buf _size : ℕ) (fmt : Option Text) (args : List VaArg) : List Write × Word :=
  match fmt with
  | none => ([],0)
  | some str =>
    if str.chars = [] then (copyWrites buf 0 [0],1)
    else
      let r := vprintfLoop buf str.chars args 0 0
      (r.1++copyWrites buf r.2.1 [0],r.2.2)

def printf (buf : ℕ) (format : Option Text) (args : List VaArg) : List Write × Word :=
  match format with
  | none => ([],0)
  | some _ => vprintf buf 128 format args

section
variable {α : Type} (text : Byte → α → Option (List Byte)) (missing : α)

def interpret : List Byte → List α → List Byte
  | [], _ => []
  | [b], _ => if b = 37 then [] else [b]
  | b::c::rest, args =>
    if b = 37 then
      match text c (args.headD missing) with
      | none => interpret rest args
      | some s => s++interpret rest args.tail
    else b::interpret (c::rest) args

theorem interpret_char {b : Byte} (hb : b ≠ 37) (rest : List Byte) (args : List α) :
    interpret text missing (b::rest) args = b::interpret text missing rest args := by
  cases rest with
  | nil =>
    rw [interpret.eq_2, if_neg hb]
    rfl
  | cons c rest => rw [interpret, if_neg hb]

theorem interpret_directive {c : Byte} {arg : α} {s : List Byte} (rest : List Byte) (args : List α)
    (hs : text c arg = some s) :
    interpret text missing (37::c::rest) (arg::args) = s++interpret text missing rest args := by
  rw [interpret, if_pos rfl]
  simp [hs]

end

def stored (fmt : List Byte) (args : List VaArg) : List Byte := interpret storedText (.int 0) fmt args

theorem formatted_interpret (fmt : List Byte) (args : List Arg) :
    formatted fmt args = interpret directive (.int 0) fmt args := by
  fun_induction formatted fmt args <;> simp_all [interpret]

theorem stored_step (buf temp : ℕ) (n : Word) (text rest : List Byte) :
    (copyWrites buf temp text++copyWrites buf (temp+text.length : ℕ) rest,
      temp+text.length+rest.length,n+BitVec.ofNat 64 text.length+BitVec.ofNat 64 rest.length) =
    (copyWrites buf temp (text++rest),temp+(text++rest).length,
      n+BitVec.ofNat 64 (text++rest).length) := by
  rw [copy_append, List.length_append, BitVec.ofNat_add, Nat.add_assoc, BitVec.add_assoc]
  push_cast
  rfl

theorem vprintfLoop_stored (buf : ℕ) (fmt : List Byte) (args : List VaArg) (temp : ℕ) (n : Word) :
    vprintfLoop buf fmt args temp n = (copyWrites buf temp (stored fmt args),
      temp+(stored fmt args).length,n+BitVec.ofNat 64 (stored fmt args).length) := by
  fun_induction vprintfLoop buf fmt args temp n with
  | case1 args temp n => simp [stored, interpret, copyWrites]
  | case2 args temp n => simp [stored, interpret, copyWrites]
  | case3 b args temp n hb =>
    rw [stored, interpret.eq_2, if_neg hb]
    rfl
  | case4 c rest args temp n hnone ih =>
    have hskip : stored (37::c::rest) args = stored rest args := by
      rw [stored, interpret, if_pos rfl, hnone]
      rfl
    rw [hskip, ih]
  | case5 c rest args temp n text hsome r ih =>
    have htext : stored (37::c::rest) args = text++stored rest args.tail := by
      rw [stored, interpret, if_pos rfl, hsome]
      rfl
    rw [htext, ← stored_step]
    exact congrArg (fun s => (copyWrites buf temp text++s.1,s.2)) ih
  | case6 b c rest args temp n hb r ih =>
    have hchar : stored (b::c::rest) args = [b]++stored (c::rest) args :=
      interpret_char storedText (.int 0) hb (c::rest) args
    rw [hchar, ← stored_step]
    exact congrArg (fun s => (copyWrites buf temp [b]++s.1,s.2)) ih

theorem vprintf_stored (buf size : ℕ) (str : Text) (args : List VaArg) :
    vprintf buf size (some str) args = (copyWrites buf 0 (stored str.chars args++[0]),
      if str.chars = [] then 1 else BitVec.ofNat 64 (stored str.chars args).length) := by
  rw [vprintf]
  by_cases hempty : str.chars = []
  · simp [hempty, stored, interpret]
  · dsimp only
    rw [if_neg hempty, if_neg hempty, vprintfLoop_stored, copy_append]
    simp

theorem vprintf_stays_text (b : UserBuffer) (size : ℕ) (str : Text) (args : List VaArg) :
    Stays b (vprintf b.addr size (some str) args).1 ↔ (stored str.chars args).length < b.size := by
  rw [vprintf_stored, stays_copy b 0 (by simp), List.length_append, List.length_singleton]
  omega

def unsigned (base n : ℕ) : List Byte := (digitsOf base n).map digit

theorem convertToBase_unsigned (i : BitVec 32) {base : ℕ} (hb : 2 ≤ base) :
    convertToBase i base = unsigned base i.toNat := numeral_digits hb i.isLt

theorem negative_digits {i : BitVec 32} (h : i.toInt < 0) :
    convertToBase (-i) 10 = unsigned 10 i.toInt.natAbs := by
  have hlt := i.isLt
  have hneg : (-i).toNat = i.toInt.natAbs := by
    rw [BitVec.toInt_eq_toNat_cond] at h ⊢
    rw [BitVec.toNat_neg]
    split_ifs at h ⊢ <;> omega
  rw [convertToBase_unsigned _ (by decide), hneg]

theorem positive_digits {i : BitVec 32} (h : ¬ i.toInt < 0) :
    convertToBase i 10 = unsigned 10 i.toInt.natAbs := by
  have hpos : i.toNat = i.toInt.natAbs := by
    rw [BitVec.toInt_eq_toNat_cond] at h ⊢
    split_ifs at h ⊢ <;> omega
  rw [convertToBase_unsigned _ (by decide), hpos]

theorem unsigned_length {base : ℕ} (hb : 1 < base) (n : ℕ) :
    (unsigned base n).length = Nat.log base n+1 := by
  rw [unsigned, List.length_map, digitsOf]
  split_ifs with h
  · simp [h]
  · rw [List.length_reverse, Nat.length_digits base n hb h]

def directives : List Byte := [115,100,99,120,112,111]

/-- How many characters a directive makes of its argument: all of a string, the digits
of a number without its sign, and one for a character. -/
def argLength (c : Byte) : VaArg → Option ℕ
  | .str s => if c = 115 then some s.chars.length else none
  | .int i =>
    if c = 100 then some (Nat.log 10 i.toInt.natAbs+1)
    else if c = 99 then some 1
    else if c = 120 ∨ c = 112 then some (Nat.log 16 i.toNat+1)
    else if c = 111 then some (Nat.log 8 i.toNat+1)
    else none

/-- The length of the text, if every directive has an argument of its kind. An ordinary
character counts one, and a letter that is no directive counts nothing. -/
def textLength : List Byte → List VaArg → Option ℕ
  | [], _ => some 0
  | [b], _ => some (if b = 37 then 0 else 1)
  | b::c::rest, args =>
    if b = 37 then
      if c ∈ directives then
        match args with
        | [] => none
        | arg::args => (argLength c arg).bind (fun k => (textLength rest args).map (k+·))
      else textLength rest args
    else (textLength (c::rest) args).map (1+·)

def formatLength (fmt : Option Text) (args : List VaArg) : Option ℕ :=
  fmt.elim (some 0) (fun str => textLength str.chars args)

theorem storedText_length {c : Byte} {arg : VaArg} {k : ℕ} (h : argLength c arg = some k) :
    ∃ text, storedText c arg = some text ∧ text.length = k := by
  cases arg with
  | str s =>
    rw [argLength] at h
    split_ifs at h with hc
    exact ⟨s.chars,by rw [storedText, if_pos hc]; rfl,Option.some.inj h⟩
  | int i =>
    have hbase : ∀ base, 1 < base →
        (convertToBase i base).length = Nat.log base i.toNat+1 := by
      intro base hb
      rw [convertToBase_unsigned i hb, unsigned_length hb]
    have hdec : (if i.toInt < 0 then convertToBase (-i) 10 else convertToBase i 10).length =
        Nat.log 10 i.toInt.natAbs+1 := by
      split_ifs with hi
      · rw [negative_digits hi, unsigned_length (by decide)]
      · rw [positive_digits hi, unsigned_length (by decide)]
    rw [argLength] at h
    split_ifs at h with h₁ h₂ h₃ h₄
    · subst h₁
      exact ⟨_,rfl,hdec.trans (Option.some.inj h)⟩
    · subst h₂
      exact ⟨_,rfl,Option.some.inj h⟩
    · rcases h₃ with rfl | rfl
      · exact ⟨_,rfl,(hbase 16 (by decide)).trans (Option.some.inj h)⟩
      · exact ⟨_,rfl,(hbase 16 (by decide)).trans (Option.some.inj h)⟩
    · subst h₄
      exact ⟨_,rfl,(hbase 8 (by decide)).trans (Option.some.inj h)⟩

theorem storedText_none {c : Byte} (hc : c ∉ directives) (arg : VaArg) : storedText c arg = none := by
  simp only [directives, List.mem_cons, List.not_mem_nil, or_false, not_or] at hc
  obtain ⟨h₁,h₂,h₃,h₄,h₅,h₆⟩ := hc
  rw [storedText, if_neg h₁, if_neg h₂, if_neg h₃, if_neg (not_or.mpr ⟨h₄,h₅⟩), if_neg h₆]

theorem stored_length {fmt : List Byte} {args : List VaArg} {k : ℕ}
    (h : textLength fmt args = some k) : (stored fmt args).length = k := by
  fun_induction textLength fmt args generalizing k with
  | case1 args => simpa [stored, interpret] using h
  | case2 b args =>
    rw [stored, interpret.eq_2]
    split_ifs at h ⊢ <;> exact Option.some.inj h
  | case3 c rest hc => cases h
  | case4 c rest hc arg args ih =>
    obtain ⟨j,hj,h⟩ := Option.bind_eq_some_iff.mp h
    obtain ⟨l,hl,rfl⟩ := Option.map_eq_some_iff.mp h
    obtain ⟨text,htext,rfl⟩ := storedText_length hj
    rw [stored, interpret_directive storedText _ rest args htext, List.length_append]
    exact congrArg _ (ih hl)
  | case5 c rest args hc ih =>
    rw [stored, interpret, if_pos rfl, storedText_none hc]
    exact ih h
  | case6 b c rest args hb ih =>
    obtain ⟨l,hl,rfl⟩ := Option.map_eq_some_iff.mp h
    rw [stored, interpret_char storedText _ hb, List.length_cons, Nat.add_comm]
    exact congrArg _ (ih hl)

/-- The writes stay in the buffer exactly if the text is shorter than the buffer, for any
format and any arguments of the kinds it asks for. -/
theorem vprintf_stays_iff (b : UserBuffer) (hsize : 1 ≤ b.size) (fmt : Option Text)
    (args : List VaArg) {k : ℕ} (hk : formatLength fmt args = some k) :
    Stays b (vprintf b.addr b.size fmt args).1 ↔ k < b.size := by
  cases fmt with
  | none =>
    have hnone : Stays b [] := fun w hw => absurd hw List.not_mem_nil
    have hzero : 0 = k := Option.some.inj hk
    exact iff_of_true hnone (by omega)
  | some str => rw [vprintf_stays_text, stored_length hk]

def printfBuffer : UserBuffer := ⟨0x7000,128,listingBuffer.nonnull,by decide⟩

def listFormat : Text := ⟨[37,100,32,37,115,10],by decide,by decide⟩

def shellName : Text := ⟨[115,98,117,115,104],by decide,by decide⟩

/-- `%d %s` with a line end, for -12 and a name of five letters. -/
theorem vprintf_stays_iff_list : formatLength (some listFormat) [.int (-12),.str shellName] = some 9 ∧
    Stays printfBuffer
      (vprintf printfBuffer.addr printfBuffer.size (some listFormat)
        [.int (-12),.str shellName]).1 := by
  have hlength : formatLength (some listFormat) [.int (-12),.str shellName] = some 9 := by decide
  exact ⟨hlength,(vprintf_stays_iff printfBuffer (by decide) _ _ hlength).mpr (by decide)⟩

def echoFormat : Text := ⟨[37,115,32],by decide,by decide⟩

theorem echo_stays_iff {b : UserBuffer} (hsize : b.size = 128) (s : Text) :
    Stays b (printf b.addr (some echoFormat) [.str s]).1 ↔ s.chars.length < 127 := by
  have htext : stored echoFormat.chars [.str s] = s.chars++[32] :=
    interpret_directive storedText (.int 0) [32] [] rfl
  rw [printf, vprintf_stays_text, htext, List.length_append, List.length_singleton, hsize]
  omega

def longArgument : Text where
  chars := List.replicate 127 97
  text := fun c hc => by rw [List.eq_of_mem_replicate hc]; decide
  short := by rw [List.length_replicate]; decide

/-- An argument of 127 letters and a blank. -/
theorem echo_overruns :
    ¬ Stays printfBuffer (printf printfBuffer.addr (some echoFormat) [.str longArgument]).1 := by
  rw [echo_stays_iff rfl, longArgument, List.length_replicate]
  decide

inductive Item where
  | char (c : Byte) (ordinary : c ≠ 37 ∧ c ≠ 0)
  | dec (i : BitVec 32)
  | hex (i : BitVec 32)
  | oct (i : BitVec 32)
  | chr (i : BitVec 32)
  | str (s : Text)

def Item.format : Item → List Byte
  | .char c _ => [c]
  | .dec _ => [37,100]
  | .hex _ => [37,120]
  | .oct _ => [37,111]
  | .chr _ => [37,99]
  | .str _ => [37,115]

def Item.args : Item → List VaArg
  | .char _ _ => []
  | .dec i => [.int i]
  | .hex i => [.int i]
  | .oct i => [.int i]
  | .chr i => [.int i]
  | .str s => [.str s]

def Item.rendering : Item → List Byte
  | .char c _ => [c]
  | .dec i => if i.toInt < 0 then 45::unsigned 10 i.toInt.natAbs else unsigned 10 i.toInt.natAbs
  | .hex i => unsigned 16 i.toNat
  | .oct i => unsigned 8 i.toNat
  | .chr i => [i.setWidth 8]
  | .str s => s.chars

theorem item_format_text (item : Item) : ∀ c ∈ item.format, c ≠ 0 := by
  cases item with
  | char c hc => simpa [Item.format] using hc.2
  | dec i => exact (by decide : ∀ c ∈ ([37,100] : List Byte), c ≠ 0)
  | hex i => exact (by decide : ∀ c ∈ ([37,120] : List Byte), c ≠ 0)
  | oct i => exact (by decide : ∀ c ∈ ([37,111] : List Byte), c ≠ 0)
  | chr i => exact (by decide : ∀ c ∈ ([37,99] : List Byte), c ≠ 0)
  | str s => exact (by decide : ∀ c ∈ ([37,115] : List Byte), c ≠ 0)

structure Format where
  items : List Item
  short : (items.flatMap Item.format).length < 2^31

def Format.text (f : Format) : Text where
  chars := f.items.flatMap Item.format
  text := by
    intro c hc
    obtain ⟨item,_,hc⟩ := List.mem_flatMap.mp hc
    exact item_format_text item c hc
  short := f.short

def Format.args (f : Format) : List VaArg := f.items.flatMap Item.args

def Format.rendering (f : Format) : List Byte := f.items.flatMap Item.rendering

structure Agrees (f : Format) (buf size : ℕ) : Prop where
  kernel : formatted f.text.chars (f.args.map VaArg.arg) = f.rendering
  stored : (vprintf buf size (some f.text) f.args).1 = copyWrites buf 0 (f.rendering++[0])
  returned : (vprintf buf size (some f.text) f.args).2 = BitVec.ofNat 64 f.rendering.length

def Item.stored : Item → List Byte
  | .dec i => unsigned 10 i.toInt.natAbs
  | item => item.rendering

theorem interpret_items {α : Type} (text : Byte → α → Option (List Byte)) (missing : α)
    (wrap : VaArg → α) (out : Item → List Byte) (hchar : ∀ c h, out (.char c h) = [c])
    (htext : ∀ item c arg, item.format = [37,c] → item.args = [arg] →
      text c (wrap arg) = some (out item)) (items : List Item) :
    interpret text missing (items.flatMap Item.format) ((items.flatMap Item.args).map wrap) =
      items.flatMap out := by
  induction items with
  | nil => rfl
  | cons item items ih =>
    have hdirective : ∀ c arg, item.format = [37,c] → item.args = [arg] →
        interpret text missing ((item::items).flatMap Item.format)
          (((item::items).flatMap Item.args).map wrap) = (item::items).flatMap out := by
      intro c arg hformat hargs
      rw [List.flatMap_cons, List.flatMap_cons, List.flatMap_cons, hformat, hargs, ← ih]
      exact interpret_directive text missing _ _ (htext item c arg hformat hargs)
    cases item with
    | char c hc =>
      rw [List.flatMap_cons, List.flatMap_cons, List.flatMap_cons, hchar, ← ih]
      exact interpret_char text missing hc.1 _ _
    | dec i => exact hdirective 100 (.int i) rfl rfl
    | hex i => exact hdirective 120 (.int i) rfl rfl
    | oct i => exact hdirective 111 (.int i) rfl rfl
    | chr i => exact hdirective 99 (.int i) rfl rfl
    | str s => exact hdirective 115 (.str s) rfl rfl

theorem directive_rendering (item : Item) {c : Byte} {arg : VaArg} (hc : item.format = [37,c])
    (ha : item.args = [arg]) : directive c arg.arg = some item.rendering := by
  cases item with
  | char d hd => simp [Item.format] at hc
  | dec i =>
    cases hc
    cases ha
    show some (if i.toInt < 0 then 45::convertToBase (-i) 10 else convertToBase i 10) = _
    rw [Item.rendering]
    split_ifs with h
    · rw [negative_digits h]
    · rw [positive_digits h]
  | hex i =>
    cases hc
    cases ha
    exact congrArg some (convertToBase_unsigned i (by decide))
  | oct i =>
    cases hc
    cases ha
    exact congrArg some (convertToBase_unsigned i (by decide))
  | chr i =>
    cases hc
    cases ha
    rfl
  | str s =>
    cases hc
    cases ha
    rfl

theorem storedText_directive (c : Byte) (arg : VaArg) : storedText c arg =
    if c = 100 ∧ arg.toInt.toInt < 0 then some (convertToBase (-arg.toInt) 10)
    else directive c arg.arg := by
  have hint : arg.arg.toInt = arg.toInt := by cases arg <;> rfl
  have hstr : arg.arg.toStr = arg.toStr := by cases arg <;> rfl
  rw [storedText, directive, hint, hstr]
  split_ifs <;> simp_all

theorem storedText_item (item : Item) (c : Byte) (arg : VaArg) (hc : item.format = [37,c])
    (ha : item.args = [arg]) : storedText c arg = some item.stored := by
  rw [storedText_directive, directive_rendering item hc ha]
  cases item with
  | dec i =>
    cases hc
    cases ha
    have hint : (VaArg.int i).toInt = i := rfl
    rw [hint, Item.stored]
    by_cases h : i.toInt < 0
    · have hboth : (100 : Byte) = 100 ∧ i.toInt < 0 := ⟨rfl,h⟩
      rw [if_pos hboth, negative_digits h]
    · have hnot : ¬ ((100 : Byte) = 100 ∧ i.toInt < 0) := fun hand => h hand.2
      rw [if_neg hnot, Item.rendering, if_neg h]
  | char d hd => simp [Item.format] at hc
  | _ =>
    rw [if_neg]
    · rfl
    · rintro ⟨rfl,_⟩
      simp [Item.format] at hc

theorem kernel_rendering (f : Format) :
    formatted f.text.chars (f.args.map VaArg.arg) = f.rendering := by
  rw [formatted_interpret]
  exact interpret_items directive (.int 0) VaArg.arg Item.rendering (fun _ _ => rfl)
    directive_rendering f.items

theorem stored_items (f : Format) : stored f.text.chars f.args = f.items.flatMap Item.stored := by
  have hitems := interpret_items storedText (.int 0) id Item.stored (fun _ _ => rfl)
    storedText_item f.items
  rwa [List.map_id] at hitems

theorem stored_rendering {item : Item} (h : ∀ i, item = .dec i → 0 ≤ i.toInt) :
    item.stored = item.rendering := by
  cases item with
  | dec i => rw [Item.stored, Item.rendering, if_neg (not_lt.mpr (h i rfl))]
  | _ => rfl

theorem stored_length_le (items : List Item) :
    (items.flatMap Item.stored).length ≤ (items.flatMap Item.rendering).length := by
  induction items with
  | nil => exact le_rfl
  | cons item items ih =>
    have hitem : item.stored.length ≤ item.rendering.length := by
      cases item with
      | dec i =>
        rw [Item.stored, Item.rendering]
        split_ifs
        · exact Nat.le_succ _
        · exact le_rfl
      | _ => exact le_rfl
    rw [List.flatMap_cons, List.flatMap_cons, List.length_append, List.length_append]
    omega

theorem stored_length_lt {items : List Item} {i : BitVec 32} (hi : Item.dec i ∈ items)
    (hneg : i.toInt < 0) :
    (items.flatMap Item.stored).length < (items.flatMap Item.rendering).length := by
  obtain ⟨xs,ys,rfl⟩ := List.append_of_mem hi
  have hxs := stored_length_le xs
  have hys := stored_length_le ys
  have hitem : (Item.dec i).rendering.length = (Item.dec i).stored.length+1 := by
    rw [Item.rendering, if_pos hneg, List.length_cons, Item.stored]
  simp only [List.flatMap_append, List.flatMap_cons, List.length_append]
  omega

theorem copy_length (page : ℕ) (o : ℤ) (bs : List Byte) :
    (copyWrites page o bs).length = bs.length := by
  induction bs generalizing o with
  | nil => rfl
  | cons b bs ih => rw [copyWrites, List.length_cons, ih, List.length_cons]

theorem text_empty_iff (f : Format) : f.text.chars = [] ↔ f.items = [] := by
  have hformat : ∀ item : Item, item.format ≠ [] := fun item => by cases item <;> simp [Item.format]
  have hchars : f.text.chars = f.items.flatMap Item.format := rfl
  rw [hchars]
  constructor
  · intro h
    cases hitems : f.items with
    | nil => rfl
    | cons item items =>
      rw [hitems, List.flatMap_cons] at h
      exact absurd (List.append_eq_nil_iff.mp h).1 (hformat item)
  · intro h
    rw [h]
    rfl

/-- The library stores the text of the kernel, except for an empty format and for a negative
number. -/
theorem vprintf_agrees_iff (f : Format) (buf size : ℕ) :
    Agrees f buf size ↔ f.items ≠ [] ∧ ∀ i, Item.dec i ∈ f.items → 0 ≤ i.toInt := by
  have hvprintf := vprintf_stored buf size f.text f.args
  rw [stored_items] at hvprintf
  constructor
  · intro h
    have hstored := h.stored
    have hreturned := h.returned
    rw [hvprintf] at hstored hreturned
    constructor
    · intro hempty
      rw [if_pos ((text_empty_iff f).mpr hempty), Format.rendering, hempty] at hreturned
      have hone : (1 : Word) = 0 := hreturned
      exact absurd hone (by decide)
    · intro i hi
      by_contra hneg
      have hshorter := stored_length_lt hi (not_le.mp hneg)
      have hlength := congrArg List.length hstored
      rw [copy_length, copy_length, List.length_append, List.length_append,
        Format.rendering] at hlength
      omega
  · rintro ⟨hne,hpos⟩
    have hsame : f.items.flatMap Item.stored = f.rendering := by
      rw [Format.rendering, List.flatMap_def, List.flatMap_def,
        List.map_congr_left (fun item hitem => stored_rendering (fun i hi => hpos i (hi ▸ hitem)))]
    rw [hsame] at hvprintf
    constructor
    case kernel => exact kernel_rendering f
    case stored => rw [hvprintf]
    case returned => rw [hvprintf, if_neg (fun h => hne ((text_empty_iff f).mp h))]

def minusFive : Format := ⟨[.dec (-5)],by decide⟩

/-- The kernel prints `-5` and the library stores `5`. -/
theorem sign_lost : formatted minusFive.text.chars (minusFive.args.map VaArg.arg) = [45,53] ∧
    minusFive.rendering = [45,53] ∧
    vprintf 0x7000 128 (some minusFive.text) minusFive.args = (copyWrites 0x7000 0 [53,0],1) ∧
    ¬ Agrees minusFive 0x7000 128 := by
  have hkernel : formatted minusFive.text.chars (minusFive.args.map VaArg.arg) = [45,53] := by decide
  have hrendering : minusFive.rendering = [45,53] := by rw [← kernel_rendering, hkernel]
  have hvprintf : vprintf 0x7000 128 (some minusFive.text) minusFive.args =
      (copyWrites 0x7000 0 [53,0],1) := by
    rw [vprintf_stored]
    have hstored : stored minusFive.text.chars minusFive.args = [53] := by decide
    rw [hstored]
    rfl
  refine ⟨hkernel,hrendering,hvprintf,fun h => ?_⟩
  have hreturned := h.returned
  rw [hvprintf, hrendering] at hreturned
  exact absurd hreturned (by decide)

end PreemptiveOS.Formatting
