import Mathlib.Data.List.GetD
import Mathlib.Tactic.Ring
import PreemptiveOS.ExecWrites
import PreemptiveOS.Unmapping

/-!
# Buffers of user space

A system call that fills a buffer is a list of writes. `my_memset` makes one write
more than it is asked for. The check that a buffer may be written looks for a VMA
that reaches over all of it, up to the end of its last page, and returns the value
of the permission bit if there is one. Without one it returns -1, which callers
take for a permission too.
-/

set_option autoImplicit false

namespace PreemptiveOS.UserBuffers
open ByteMemory PhysMmgr VirtMmgr Vmas ExecWrites Unmapping

structure UserBuffer where
  addr : ℕ
  size : ℕ
  nonnull : 0 < addr
  user : addr+size < kernbase.toNat

def listingBuffer : UserBuffer := ⟨0x7000,1024,by decide,by decide⟩

def Stays (b : UserBuffer) (ws : List Write) : Prop :=
  ∀ w ∈ ws, (b.addr : ℤ) ≤ w.page+w.offset ∧ w.page+w.offset < b.addr+b.size

variable {ws : List Write}

theorem stays_append (b : UserBuffer) {ws' : List Write} :
    Stays b (ws++ws') ↔ Stays b ws ∧ Stays b ws' := List.forall_mem_append

theorem copy_page (page : ℕ) (o : ℤ) (bs : List Byte) :
    ∀ w ∈ copyWrites page o bs, w.page = page := by
  induction bs generalizing o with
  | nil => simp [copyWrites]
  | cons b bs ih =>
    rw [copyWrites, List.forall_mem_cons]
    exact ⟨rfl,ih (o+1)⟩

theorem stays_copy (b : UserBuffer) (o : ℤ) {bs : List Byte} (hbs : bs ≠ []) :
    Stays b (copyWrites b.addr o bs) ↔ 0 ≤ o ∧ o+bs.length ≤ b.size := by
  rw [← copy_below b.addr o hbs b.size]
  refine forall₂_congr (fun w hw => ?_)
  rw [copy_page b.addr o bs w hw]
  omega

def clearWrites (addr size : ℕ) : List Write :=
  if size = 0 ∨ addr = 0 then [] else copyWrites addr 0 (List.replicate (size+1) 0)

theorem clear_performed (addr size : ℕ) (m : Mem) :
    performAll (clearWrites addr size) m = myMemset m addr 0 size := by
  rw [clearWrites, myMemset]
  split_ifs with h
  · rfl
  · funext x
    rw [copy_performed 0 _ m (by omega) x, memsetLoop_eq, poke, fill, List.length_replicate,
      show ((addr : ℤ)+0).toNat = addr by omega]
    have hzero : (List.replicate (size+1) (0 : Byte)).getD (x-addr) 0 = 0 := by
      rw [List.getD_eq_getElem?_getD, List.getElem?_replicate]
      split_ifs <;> rfl
    rw [hzero]
    split_ifs <;> first | rfl | omega

variable {b : UserBuffer}

theorem clear_leaves (hsize : 0 < b.size) : ¬ Stays b (clearWrites b.addr b.size) := by
  have hnonnull := b.nonnull
  rw [clearWrites, if_neg (by omega), stays_copy b 0 (by simp), List.length_replicate]
  omega

variable {x : ℕ}

theorem cleared_byte {addr size : ℕ} (m : Mem) (hpos : 0 < addr) (hlow : addr ≤ x)
    (hhigh : x < addr+size) : performAll (clearWrites addr size) m x = 0 := by
  rw [clear_performed, myMemset, if_neg (by omega), memsetLoop_eq, poke, fill]
  split_ifs <;> first | rfl | omega

structure CString (m : Mem) (a : ℕ) (s : List Byte) : Prop where
  text : ∀ b ∈ s, b ≠ 0
  bytes : ∀ i < s.length, m (a+i) = s.getD i 0
  ends : m (a+s.length) = 0

variable {s : List Byte} {m : Mem} {a : ℕ}

def place (w : Write) : ℕ := (w.page+w.offset).toNat

theorem copy_places (page o : ℕ) (bs : List Byte) :
    ∀ w ∈ copyWrites page o bs, page+o ≤ place w ∧ place w < page+o+bs.length := by
  induction bs generalizing o with
  | nil => simp [copyWrites]
  | cons b bs ih =>
    intro w hw
    rw [List.length_cons]
    rcases List.mem_cons.mp hw with rfl | hw
    · rw [place]
      dsimp only
      omega
    · have hrest := ih (o+1) w (by exact_mod_cast hw)
      omega

theorem performAll_other (m : Mem) (h : ∀ w ∈ ws, place w ≠ x) : performAll ws m x = m x := by
  induction ws generalizing m with
  | nil => rfl
  | cons w ws ih =>
    obtain ⟨hw,hrest⟩ := List.forall_mem_cons.mp h
    rw [performAll, List.foldl_cons]
    exact (ih (perform m w) hrest).trans (if_neg (Ne.symm hw))

theorem cString_written {page o : ℕ} (htext : ∀ b ∈ s, b ≠ 0) (hzero : m (page+o+s.length) = 0) :
    CString (performAll (copyWrites page o s) m) (page+o) s := by
  have hplace : ((page : ℤ)+o).toNat = page+o := by omega
  constructor
  case text => exact htext
  case bytes =>
    intro i hi
    rw [copy_performed o _ m (by omega), hplace, if_pos (by omega), Nat.add_sub_cancel_left]
  case ends => rw [copy_performed o _ m (by omega), hplace, if_neg (by omega), hzero]

theorem cString_copied (page o : ℕ) (m : Mem) (htext : ∀ b ∈ s, b ≠ 0) :
    CString (performAll (copyWrites page o (s++[0])) m) (page+o) s := by
  have hcopy : ∀ i ≤ s.length,
      performAll (copyWrites page o (s++[0])) m (page+o+i) = (s++[0]).getD i 0 := by
    intro i hi
    rw [copy_performed o _ m (by omega), List.length_append, List.length_singleton,
      if_pos (by omega), show page+o+i-((page : ℤ)+o).toNat = i by omega]
  constructor
  case text => exact htext
  case bytes =>
    intro i hi
    rw [hcopy i hi.le, List.getD_append _ _ _ _ hi]
  case ends =>
    rw [hcopy _ le_rfl, List.getD_append_right _ _ _ _ le_rfl, Nat.sub_self]
    rfl

theorem cString_kept (hs : CString m a s) (h : ∀ w ∈ ws, place w < a ∨ a+s.length < place w) :
    CString (performAll ws m) a s := by
  have hkept : ∀ i ≤ s.length, performAll ws m (a+i) = m (a+i) := by
    intro i hi
    refine performAll_other m (fun w hw => ?_)
    have hplace := h w hw
    omega
  constructor
  case text => exact hs.text
  case bytes =>
    intro i hi
    rw [hkept i hi.le, hs.bytes i hi]
  case ends => rw [hkept _ le_rfl, hs.ends]

def slotWrites {α : Type} (write : ℕ → α → List Write) : ℕ → List α → List Write
  | _, [] => []
  | n, x::xs => write n x++slotWrites write (n+32) xs

theorem slotWrites_append {α : Type} (write : ℕ → α → List Write) (n : ℕ) (xs ys : List α) :
    slotWrites write n (xs++ys) = slotWrites write n xs++slotWrites write (n+32*xs.length) ys := by
  induction xs generalizing n with
  | nil => rfl
  | cons x xs ih =>
    rw [List.cons_append, slotWrites, ih, slotWrites, List.append_assoc, List.length_cons,
      show n+32+32*xs.length = n+32*(xs.length+1) by ring]

structure SlotFormat {α : Type} (buf : ℕ) (write : ℕ → α → List Write) (Good : α → Prop)
    (Reads : Mem → ℕ → α → Prop) : Prop where
  inside : ∀ n x, Good x → ∀ w ∈ write n x, buf+n ≤ place w ∧ place w < buf+n+32
  written : ∀ n x m, Good x → (∀ y, buf+n ≤ y → y < buf+n+32 → m y = 0) →
    Reads (performAll (write n x) m) (buf+n) x
  kept : ∀ ws m a x, Good x → Reads m a x → (∀ w ∈ ws, a+32 ≤ place w) →
    Reads (performAll ws m) a x

section
variable {α : Type} {buf : ℕ} {write : ℕ → α → List Write} {Good : α → Prop}
  {Reads : Mem → ℕ → α → Prop} (hf : SlotFormat buf write Good Reads)
include hf

theorem slots_places (n : ℕ) {xs : List α} (hgood : ∀ x ∈ xs, Good x) :
    ∀ w ∈ slotWrites write n xs, buf+n ≤ place w := by
  induction xs generalizing n with
  | nil => simp [slotWrites]
  | cons x xs ih =>
    obtain ⟨hx,hxs⟩ := List.forall_mem_cons.mp hgood
    intro w hw
    rcases List.mem_append.mp hw with hw | hw
    · exact (hf.inside n x hx w hw).1
    · have hplace := ih (n+32) hxs w hw
      omega

theorem slots_read (n : ℕ) {xs : List α} (hgood : ∀ x ∈ xs, Good x) (m : Mem)
    (hclear : ∀ y, buf+n ≤ y → y < buf+n+32*xs.length → m y = 0) (i : ℕ) {x : α}
    (hi : xs[i]? = some x) : Reads (performAll (slotWrites write n xs) m) (buf+n+32*i) x := by
  induction xs generalizing n m i with
  | nil => simp at hi
  | cons y xs ih =>
    obtain ⟨hy,hxs⟩ := List.forall_mem_cons.mp hgood
    rw [List.length_cons] at hclear
    rw [slotWrites, performAll_append]
    cases i with
    | zero =>
      obtain rfl : y = x := by simpa using hi
      have hread := hf.written n y m hy (fun a hlow hhigh => hclear a hlow (by omega))
      exact hf.kept _ _ _ y hy hread (slots_places hf (n+32) hxs)
    | succ i =>
      have hkept : ∀ a, buf+(n+32) ≤ a → a < buf+(n+32)+32*xs.length →
          performAll (write n y) m a = 0 := by
        intro a hlow hhigh
        rw [performAll_other _ (fun w hw => ?_), hclear a (by omega) (by omega)]
        have hplace := hf.inside n y hy w hw
        omega
      have hnext := ih (n+32) hxs _ hkept i (by simpa using hi)
      rwa [show buf+(n+32)+32*i = buf+n+32*(i+1) by ring] at hnext

end

def protRead : Word := 1

inductive Access where
  | verifyRead
  | verifyWrite
  deriving DecidableEq

def Access.bit : Access → Word
  | .verifyRead => protRead
  | .verifyWrite => protWrite

def findVmaRegion (vmas : List Vma) (addr len : Word) : Option Vma :=
  vmas.find? (fun v => Reaches addr len v)

def isUserspaceAccessValid (vmas : List Vma) (addr n : Word) (type : Access) : BitVec 32 :=
  match findVmaRegion vmas addr (n-1) with
  | none => -1
  | some corrVma => (corrVma.protection &&& type.bit).setWidth 32

def Accessible (vmas : List Vma) (addr n : Word) (type : Access) : Prop :=
  ∃ v ∈ vmas, (∀ i < n.toNat, covers (addr+BitVec.ofNat 64 i) v) ∧ v.protection &&& type.bit ≠ 0

def Refused (vmas : List Vma) (addr n : Word) (type : Access) : Prop :=
  ∃ v, vmas.find? (fun v => v.startAddr ≤ addr ∧ addr+(n-1) ≤ pageRoundDown v.endAddr) = some v ∧
    v.protection &&& type.bit = 0

def lowest (v : Vma) : ℕ := min v.startAddr.toNat (lookupEnd v).toNat

def highest (v : Vma) : ℕ := max v.startAddr.toNat (lookupEnd v).toNat

/-- Bytes that go round the end of the address space are only in a VMA that is
all of it. -/
def Spans (addr n : Word) (v : Vma) : Prop :=
  lowest v ≤ addr.toNat ∧ addr.toNat+n.toNat ≤ highest v+1 ∨ lowest v = 0 ∧ highest v = 2^64-1

instance (addr n : Word) (v : Vma) : Decidable (Spans addr n v) :=
  inferInstanceAs (Decidable (_ ∨ _))

/-- The layouts for which the check can be trusted: the first VMA it comes to lacks
the bit, or holds all bytes; otherwise another VMA with the bit has to hold them. -/
def Trusted (vmas : List Vma) (addr n : Word) (type : Access) : Prop :=
  match vmas.find? (fun v => v.startAddr ≤ addr ∧ addr+(n-1) ≤ pageRoundDown v.endAddr) with
  | some v => v.protection &&& type.bit = 0 ∨ Spans addr n v ∨
      ∃ w ∈ vmas, Spans addr n w ∧ w.protection &&& type.bit ≠ 0
  | none => ∃ w ∈ vmas, Spans addr n w ∧ w.protection &&& type.bit ≠ 0

theorem covers_iff (x : Word) (v : Vma) :
    covers x v = true ↔ lowest v ≤ x.toNat ∧ x.toNat ≤ highest v := by
  rw [covers, lowest, highest]
  split_ifs with h
  · rw [BitVec.lt_def] at h
    rw [decide_eq_true_eq, BitVec.le_def, BitVec.le_def]
    omega
  · rw [BitVec.lt_def] at h
    rw [decide_eq_true_eq, BitVec.le_def, BitVec.le_def]
    omega

theorem spans_iff {addr n : Word} (hn : 1 ≤ n.toNat) (v : Vma) :
    (∀ i < n.toNat, covers (addr+BitVec.ofNat 64 i) v) ↔ Spans addr n v := by
  have haddr := addr.isLt
  have hlt := n.isLt
  have hhigh : highest v < 2^64 := max_lt v.startAddr.isLt (lookupEnd v).isLt
  have hbyte : ∀ i < n.toNat, (covers (addr+BitVec.ofNat 64 i) v = true ↔
      lowest v ≤ (addr.toNat+i)%2^64 ∧ (addr.toNat+i)%2^64 ≤ highest v) := by
    intro i hi
    rw [covers_iff, BitVec.toNat_add, BitVec.toNat_ofNat, Nat.mod_eq_of_lt (by omega : i < 2^64)]
  rw [Spans]
  constructor
  · intro h
    have hfirst := (hbyte 0 (by omega)).mp (h 0 (by omega))
    by_cases hround : addr.toNat+n.toNat ≤ 2^64
    · have hlast := (hbyte (n.toNat-1) (by omega)).mp (h _ (by omega))
      omega
    · have htop := (hbyte (2^64-1-addr.toNat) (by omega)).mp (h _ (by omega))
      have hzero := (hbyte (2^64-addr.toNat) (by omega)).mp (h _ (by omega))
      omega
  · intro h i hi
    rw [hbyte i hi]
    omega

theorem bit_narrow (protection : Word) (type : Access) :
    (protection &&& type.bit).setWidth 32 = 0 ↔ protection &&& type.bit = 0 := by
  have hbit : type.bit.toNat < 2^32 := by cases type <;> decide
  have hsmall : (protection &&& type.bit).toNat < 2^32 :=
    lt_of_le_of_lt (by rw [BitVec.toNat_and]; exact Nat.and_le_right) hbit
  rw [← BitVec.toNat_inj, ← BitVec.toNat_inj, BitVec.toNat_setWidth, Nat.mod_eq_of_lt hsmall]
  rfl

theorem access_refused {vmas : List Vma} {addr n : Word} {type : Access} :
    isUserspaceAccessValid vmas addr n type = 0 ↔ Refused vmas addr n type := by
  have hfind : findVmaRegion vmas addr (n-1) =
      vmas.find? (fun v => v.startAddr ≤ addr ∧ addr+(n-1) ≤ pageRoundDown v.endAddr) := rfl
  rw [isUserspaceAccessValid, Refused, ← hfind]
  cases findVmaRegion vmas addr (n-1) with
  | none => simp
  | some v => simpa using bit_narrow v.protection type

theorem trusted_iff {vmas : List Vma} {addr n : Word} {type : Access} (hn : 1 ≤ n.toNat) :
    (isUserspaceAccessValid vmas addr n type ≠ 0 → Accessible vmas addr n type) ↔
      Trusted vmas addr n type := by
  have hspans : Accessible vmas addr n type ↔
      ∃ w ∈ vmas, Spans addr n w ∧ w.protection &&& type.bit ≠ 0 :=
    exists_congr (fun v => and_congr_right (fun _ => and_congr_left (fun _ => spans_iff hn v)))
  rw [hspans, Ne, access_refused, Refused, Trusted]
  cases hfind : vmas.find? (fun v => v.startAddr ≤ addr ∧
      addr+(n-1) ≤ pageRoundDown v.endAddr) with
  | none => simp
  | some v =>
    have hmem := List.mem_of_find?_eq_some hfind
    simp only [Option.some.injEq, exists_eq_left']
    constructor
    · intro h
      by_cases hbit : v.protection &&& type.bit = 0
      · exact Or.inl hbit
      · exact Or.inr (Or.inr (h hbit))
    · rintro (hzero | hspans | h) hbit
      · exact absurd hzero hbit
      · exact ⟨v,hmem,hspans,hbit⟩
      · exact h

end PreemptiveOS.UserBuffers
