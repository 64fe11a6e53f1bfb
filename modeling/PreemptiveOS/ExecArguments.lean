import PreemptiveOS.Supply

/-!
# The arguments of a new program

An exec fills one frame with pointers from its end downwards and another one
with strings from its start upwards, and maps the two under the stack. What
the program's first instructions read there, through the page tables, is the
list of arguments and the environment.
-/

set_option autoImplicit false

namespace PreemptiveOS.ExecArguments
open ByteMemory PhysMmgr TableForest VirtMmgr PageTree FreshFrames Ownership DataFrames Vmas
open KernelObjects Exec ExecLeaves Supply

theorem putPointer_nat (m : Mem) (ptrs i : ℕ) (w : Word) :
    putPointer m ptrs (i : ℤ) w = store m (ptrs+8*i) w := by
  rw [putPointer]
  congr 1

variable {str : List Byte} {m : Mem} {dest x : ℕ}

theorem putString_outside (hx : x < dest ∨ dest+str.length < x) : putString m dest str x = m x := by
  rw [putString, if_neg (by omega)]

structure Entry (m : Mem) (k l i off : ℕ) (userPtr : Word) (str : List Byte) : Prop where
  pointer : load m (4096*k+8*i) = userPtr+BitVec.ofNat 64 off
  bytes : ∀ t ≤ str.length, m (4096*l+(off+t)) = str.getD t 0

variable {i : ℕ}

section
variable (k l : ℕ) (hkl : k ≠ l)
include hkl

theorem putString_pointer (hlo : 4096*l ≤ dest) (hhi : dest+(str.length+1) ≤ 4096*l+4096)
    (hi : i < 512) : load (putString m dest str) (4096*k+8*i) = load m (4096*k+8*i) := by
  apply load_congr
  intro t ht
  apply putString_outside
  omega

theorem putPointer_byte {w : Word} (hx : 4096*l ≤ x) (hx' : x < 4096*l+4096) (hi : i < 512) :
    putPointer m (4096*k) i w x = m x := by
  rw [putPointer_nat, store, if_neg]
  omega

theorem copyStrings_read (strs : List (List Byte)) (n : ℕ) (base : Word) (d : ℕ) (m : Mem)
    (hd : d+stringBytes strs ≤ 4096) (hn : strs.length ≤ n) (hn' : n ≤ 512) :
    (∀ j str, strs[j]? = some str → ∃ off, off+str.length+1 ≤ d+stringBytes strs ∧ d ≤ off ∧
      Entry (copyStrings (4096*k) strs n (base+BitVec.ofNat 64 d) (4096*l+d) m).1 k l (n-1-j) off
        base str) ∧
    (∀ i, n ≤ i → i < 512 →
      load (copyStrings (4096*k) strs n (base+BitVec.ofNat 64 d) (4096*l+d) m).1 (4096*k+8*i) =
        load m (4096*k+8*i)) ∧
    ∀ x < d, (copyStrings (4096*k) strs n (base+BitVec.ofNat 64 d) (4096*l+d) m).1 (4096*l+x) =
      m (4096*l+x) := by
  induction strs generalizing n d m with
  | nil => exact ⟨fun j str hj => by simp at hj,fun _ _ _ => rfl,fun _ _ => rfl⟩
  | cons str rest ih =>
    rw [stringBytes_cons] at hd
    rw [List.length_cons] at hn
    obtain ⟨p,rfl⟩ : ∃ p, n = p+1 := ⟨n-1,by omega⟩
    have hindex : ((p+1 : ℕ) : ℤ)-1 = (p : ℤ) := by push_cast; omega
    have hbase : base+BitVec.ofNat 64 d+BitVec.ofNat 64 (str.length+1) =
        base+BitVec.ofNat 64 (d+(str.length+1)) := by
      rw [BitVec.add_assoc, ← BitVec.ofNat_add]
    have hnext : copyStrings (4096*k) (str::rest) ((p+1 : ℕ) : ℤ) (base+BitVec.ofNat 64 d)
        (4096*l+d) m = copyStrings (4096*k) rest p (base+BitVec.ofNat 64 (d+(str.length+1)))
          (4096*l+(d+(str.length+1))) (putString (putPointer m (4096*k) p
            (base+BitVec.ofNat 64 d)) (4096*l+d) str) := by
      rw [copyStrings, hindex, hbase, Nat.add_assoc]
    obtain ⟨hentries,hpointers,hbytes⟩ := ih p (d+(str.length+1))
      (putString (putPointer m (4096*k) p (base+BitVec.ofNat 64 d)) (4096*l+d) str) (by omega)
      (by omega) (by omega)
    rw [hnext, stringBytes_cons]
    refine ⟨?_,?_,?_⟩
    · intro j str' hj
      cases j with
      | zero =>
        obtain rfl := Option.some.inj hj
        refine ⟨d,by omega,le_rfl,?_⟩
        constructor
        case pointer =>
          rw [show p+1-1-0 = p by omega, hpointers p le_rfl (by omega),
            putString_pointer k l hkl (by omega) (by omega) (by omega), putPointer_nat,
            load_store_same]
        case bytes =>
          intro t ht
          rw [hbytes (d+t) (by omega), ← Nat.add_assoc, putString, if_pos (by omega),
            Nat.add_sub_cancel_left]
      | succ j =>
        obtain ⟨off,hoff,hlo,he⟩ := hentries j str' hj
        refine ⟨off,by omega,by omega,?_⟩
        rwa [show p+1-1-(j+1) = p-1-j by omega]
    · intro i hi hi'
      rw [hpointers i (by omega) hi', putString_pointer k l hkl (by omega) (by omega) hi',
        putPointer_nat, load_store_apart _ _ (by omega)]
    · intro x hx
      rw [hbytes x (by omega), putString_outside (by omega),
        putPointer_byte k l hkl (by omega) (by omega) (by omega)]

end

variable {m' : Mem} {k l off : ℕ}

theorem entry_kept {userPtr : Word} (h : Entry m k l i off userPtr str)
    (hp : load m' (4096*k+8*i) = load m (4096*k+8*i))
    (hb : ∀ t ≤ str.length, m' (4096*l+(off+t)) = m (4096*l+(off+t))) :
    Entry m' k l i off userPtr str :=
  ⟨hp.trans h.pointer,fun t ht => (hb t ht).trans (h.bytes t ht)⟩

section
variable (k l : ℕ) (hkl : k ≠ l)
include hkl

/-- One of the two lists, with its null pointer at the index below `n`. The place
in the frame from which the user address is computed wraps at the end of the
frame, but then there is no string left. -/
theorem copyParams_read (strs : List (List Byte)) (n d : ℕ) (m : Mem)
    (hd : d+stringBytes strs ≤ 4096) (hn : strs.length+1 ≤ n) (hn' : n ≤ 512) :
    (∀ a str, strs[a]? = some str → ∃ off, off+str.length+1 ≤ d+stringBytes strs ∧
      Entry (copyParamsToUserspace m strs n (4096*k) (4096*l+d)).1 k l (n-1-strs.length+a) off
        stackStart str) ∧
    load (copyParamsToUserspace m strs n (4096*k) (4096*l+d)).1 (4096*k+8*(n-1)) = 0 ∧
    (∀ i, n ≤ i → i < 512 → load (copyParamsToUserspace m strs n (4096*k) (4096*l+d)).1
      (4096*k+8*i) = load m (4096*k+8*i)) ∧
    ∀ x < d, (copyParamsToUserspace m strs n (4096*k) (4096*l+d)).1 (4096*l+x) =
      m (4096*l+x) := by
  obtain ⟨p,rfl⟩ : ∃ p, n = p+1 := ⟨n-1,by omega⟩
  have hindex : ((p+1 : ℕ) : ℤ)-1 = (p : ℤ) := by push_cast; omega
  have hrev := stringBytes_reverse strs
  have hcopy : copyParamsToUserspace m strs ((p+1 : ℕ) : ℤ) (4096*k) (4096*l+d) =
      copyStrings (4096*k) strs.reverse p (stackStart+BitVec.ofNat 64 d) (4096*l+d)
        (putPointer m (4096*k) p 0) := by
    rw [copyParamsToUserspace, hindex, show pageRoundUp stackStart = stackStart by decide]
    cases strs with
    | nil => rfl
    | cons str rest =>
      rw [stringBytes_cons] at hd
      rw [show (4096*l+d)%4096 = d by omega]
  obtain ⟨hentries,hpointers,hbytes⟩ := copyStrings_read k l hkl strs.reverse p stackStart d
    (putPointer m (4096*k) p 0) (by omega) (by rw [List.length_reverse]; omega) (by omega)
  rw [hcopy]
  refine ⟨?_,?_,?_,?_⟩
  · intro a str ha
    obtain ⟨halt,_⟩ := List.getElem?_eq_some_iff.mp ha
    have hj : strs.reverse[strs.length-1-a]? = some str := by
      rw [List.getElem?_reverse (by omega), show strs.length-1-(strs.length-1-a) = a by omega, ha]
    obtain ⟨off,hoff,_,he⟩ := hentries _ str hj
    refine ⟨off,by omega,?_⟩
    rwa [show p+1-1-strs.length+a = p-1-(strs.length-1-a) by omega]
  · rw [show p+1-1 = p by omega, hpointers p le_rfl (by omega), putPointer_nat, load_store_same]
  · intro i hi hi'
    rw [hpointers i (by omega) hi', putPointer_nat, load_store_apart _ _ (by omega)]
  · intro x hx
    rw [hbytes x hx, putPointer_byte k l hkl (by omega) (by omega) (by omega)]

end

structure Laid (m : Mem) (k l : ℕ) (argv envp : List (List Byte)) : Prop where
  argc : load m (4096*k+8*(509-argv.length-envp.length)) = BitVec.ofNat 64 argv.length
  argv : ∀ a str, argv[a]? = some str → ∃ off, off+str.length+1 ≤ 4096 ∧
    Entry m k l (510-argv.length-envp.length+a) off stackStart str
  argvEnd : load m (4096*k+8*(510-envp.length)) = 0
  envp : ∀ e str, envp[e]? = some str → ∃ off, off+str.length+1 ≤ 4096 ∧
    Entry m k l (511-envp.length+e) off stackStart str
  envpEnd : load m (4096*k+8*511) = 0

variable {argv envp : List (List Byte)}

theorem writeParams_laid (hkl : k ≠ l) (hfit : ParamsFit argv envp) :
    Laid (writeParams m argv envp (4096*k) (4096*l)) k l argv envp := by
  obtain ⟨hcount,hbytes⟩ := hfit
  have hdest := (copyParams_writes k l envp 512 (4096*l) m le_rfl (by omega) (by omega) le_rfl).2
  obtain ⟨henv,henvEnd,_,_⟩ := copyParams_read k l hkl envp 512 0 m (by omega) (by omega) le_rfl
  have hmax : (512 : ℤ)-envp.length-1 = ((511-envp.length : ℕ) : ℤ) := by omega
  have hlast : (512 : ℤ)-(envp.length+argv.length+2)-1 =
      ((509-argv.length-envp.length : ℕ) : ℤ) := by omega
  rw [writeParams]
  rw [hmax, hlast, hdest]
  simp only [Nat.add_zero, Nat.cast_ofNat] at henv henvEnd
  generalize (copyParamsToUserspace m envp 512 (4096*k) (4096*l)).1 = m₁ at *
  obtain ⟨harg,hargEnd,hpointers,hkept⟩ := copyParams_read k l hkl argv (511-envp.length)
    (stringBytes envp) m₁ (by omega) (by omega) (by omega)
  generalize (copyParamsToUserspace m₁ argv ((511-envp.length : ℕ) : ℤ) (4096*k)
    (4096*l+stringBytes envp)).1 = m₂ at *
  -- the number of arguments goes below all pointers
  have habove : ∀ i, 510-argv.length-envp.length ≤ i → load (putPointer m₂ (4096*k)
      ((509-argv.length-envp.length : ℕ) : ℤ) (BitVec.ofNat 64 argv.length)) (4096*k+8*i) =
      load m₂ (4096*k+8*i) := by
    intro i hi
    rw [putPointer_nat, load_store_apart _ _ (by omega)]
  have hsame : ∀ x < 4096, putPointer m₂ (4096*k) ((509-argv.length-envp.length : ℕ) : ℤ)
      (BitVec.ofNat 64 argv.length) (4096*l+x) = m₂ (4096*l+x) := by
    intro x hx
    exact putPointer_byte k l hkl (by omega) (by omega) (by omega)
  constructor
  case argc => rw [putPointer_nat, load_store_same]
  case argv =>
    intro a str ha
    obtain ⟨off,hoff,he⟩ := harg a str ha
    rw [show 511-envp.length-1-argv.length+a = 510-argv.length-envp.length+a by omega] at he
    refine ⟨off,by omega,entry_kept he (habove _ (by omega)) ?_⟩
    exact fun t ht => hsame _ (by omega)
  case argvEnd =>
    rw [habove _ (by omega), show 510-envp.length = 511-envp.length-1 by omega]
    exact hargEnd
  case envp =>
    intro e str he
    obtain ⟨helt,_⟩ := List.getElem?_eq_some_iff.mp he
    obtain ⟨off,hoff,hentry⟩ := henv e str he
    rw [show 512-1-envp.length+e = 511-envp.length+e by omega] at hentry
    refine ⟨off,by omega,entry_kept hentry ?_ ?_⟩
    · rw [habove _ (by omega), hpointers _ (by omega) (by omega)]
    · intro t ht
      rw [hsame _ (by omega), hkept _ (by omega)]
  case envpEnd =>
    rw [habove _ (by omega), hpointers _ (by omega) (by omega)]
    exact henvEnd

theorem byte_kept (hx : x < 4096) (h : ∀ j, tables m' l j = tables m l j) :
    m' (4096*l+x) = m (4096*l+x) := by
  have hj : x/8 < 512 := by omega
  have hload : load m' (4096*l+8*(x/8)) = load m (4096*l+8*(x/8)) := h ⟨x/8,hj⟩
  apply BitVec.eq_of_getLsbD_eq
  intro i hi
  have hbit : (load m' (4096*l+8*(x/8))).getLsbD (8*(x%8)+i) =
      (load m (4096*l+8*(x/8))).getLsbD (8*(x%8)+i) := by rw [hload]
  rw [load_getLsbD (by omega), load_getLsbD (by omega)] at hbit
  rwa [show 4096*l+8*(x/8)+(8*(x%8)+i)/8 = 4096*l+x by omega,
    show (8*(x%8)+i)%8 = i by omega] at hbit

theorem laid_kept (hfit : ParamsFit argv envp) (hk : ∀ j, tables m' k j = tables m k j)
    (hl : ∀ j, tables m' l j = tables m l j) (h : Laid m k l argv envp) :
    Laid m' k l argv envp := by
  obtain ⟨hcount,_⟩ := hfit
  have hword : ∀ i < 512, load m' (4096*k+8*i) = load m (4096*k+8*i) := fun i hi => hk ⟨i,hi⟩
  constructor
  case argc => rw [hword _ (by omega), h.argc]
  case argv =>
    intro a str ha
    obtain ⟨halt,_⟩ := List.getElem?_eq_some_iff.mp ha
    obtain ⟨off,hoff,he⟩ := h.argv a str ha
    refine ⟨off,hoff,entry_kept he (hword _ (by omega)) ?_⟩
    exact fun t ht => byte_kept (by omega) hl
  case argvEnd => rw [hword _ (by omega), h.argvEnd]
  case envp =>
    intro e str he
    obtain ⟨helt,_⟩ := List.getElem?_eq_some_iff.mp he
    obtain ⟨off,hoff,hentry⟩ := h.envp e str he
    refine ⟨off,hoff,entry_kept hentry (hword _ (by omega)) ?_⟩
    exact fun t ht => byte_kept (by omega) hl
  case envpEnd => rw [hword _ (by omega), h.envpEnd]

def userFrame (m : Mem) (cr3 v : Word) : Option ℕ := child (pte m cr3 v)

def userByte (m : Mem) (cr3 v : Word) : Option Byte :=
  (userFrame m cr3 v).map (fun k => m (4096*k+v.toNat%4096))

def userWord (m : Mem) (cr3 v : Word) : Option Word :=
  (userFrame m cr3 v).map (fun k => load m (4096*k+v.toNat%4096))

def readString (m : Mem) (cr3 : Word) : ℕ → Word → Option (List Byte)
  | 0, _ => none
  | n+1, v => (userByte m cr3 v).bind (fun b =>
    if b = 0 then some [] else (readString m cr3 n (v+1)).map (fun str => b::str))

def readStrings (m : Mem) (cr3 : Word) : ℕ → Word → Option (List (List Byte))
  | 0, _ => none
  | n+1, v => (userWord m cr3 v).bind (fun p =>
    if p = 0 then some []
    else (readString m cr3 4096 p).bind (fun str =>
      (readStrings m cr3 n (v+8)).map (fun rest => str::rest)))

def start (m : Mem) (cr3 rsp : Word) : Option (Word × List (List Byte) × List (List Byte)) :=
  (userWord m cr3 rsp).bind (fun argc =>
    (readStrings m cr3 512 (rsp+8)).bind (fun argv =>
      (readStrings m cr3 512 (rsp+8+8*argc+8)).map (fun envp => (argc,argv,envp))))

def mmExec (argv envp : List (List Byte)) : Word :=
  stackStart-4096-BitVec.ofNat 64 (8*(argv.length+envp.length+3))

def slot (i : ℕ) : Word := stackStart-2*4096+BitVec.ofNat 64 (8*i)

theorem slot_toNat (hi : i < 512) : (slot i).toNat = 0x7fffffffd000+8*i := by
  rw [slot, BitVec.toNat_add, BitVec.toNat_ofNat,
    show (stackStart-2*4096).toNat = 0x7fffffffd000 from rfl]
  omega

theorem slot_add (i j : ℕ) : slot i+BitVec.ofNat 64 (8*j) = slot (i+j) := by
  rw [slot, slot, BitVec.add_assoc, ← BitVec.ofNat_add, Nat.mul_add]

theorem slot_page (hi : i < 512) : pageNumber (slot i) = pageNumber (stackStart-2*4096) := by
  rw [pageNumber, pageNumber, slot_toNat hi,
    show (stackStart-2*4096).toNat = 0x7fffffffd000 from rfl]
  omega

theorem mmExec_slot (h : argv.length+envp.length+3 ≤ 512) :
    mmExec argv envp = slot (509-argv.length-envp.length) := by
  apply BitVec.eq_of_toNat_eq
  rw [slot_toNat (by omega), mmExec, BitVec.toNat_sub, BitVec.toNat_ofNat,
    show (stackStart-4096).toNat = 0x7fffffffe000 from rfl]
  omega

theorem string_address (off : ℕ) (h : off < 4096) :
    (stackStart+BitVec.ofNat 64 off).toNat = 0x7ffffffff000+off := by
  rw [BitVec.toNat_add, BitVec.toNat_ofNat, show stackStart.toNat = 0x7ffffffff000 from rfl]
  omega

theorem string_page (h : off < 4096) :
    pageNumber (stackStart+BitVec.ofNat 64 off) = pageNumber stackStart := by
  rw [pageNumber, pageNumber, string_address off h,
    show stackStart.toNat = 0x7ffffffff000 from rfl]
  omega

section
variable (m : Mem) (cr3 : Word)

theorem readString_read (n : ℕ) (v : Word) (hn : str.length < n) (hnul : ∀ b ∈ str, b ≠ 0)
    (h : ∀ t ≤ str.length, userByte m cr3 (v+BitVec.ofNat 64 t) = some (str.getD t 0)) :
    readString m cr3 n v = some str := by
  induction str generalizing n v with
  | nil =>
    obtain ⟨n,rfl⟩ : ∃ p, n = p+1 := ⟨n-1,by omega⟩
    have hfirst := h 0 le_rfl
    rw [BitVec.ofNat_eq_ofNat, BitVec.add_zero] at hfirst
    rw [readString, hfirst]
    rfl
  | cons b str ih =>
    obtain ⟨n,rfl⟩ : ∃ p, n = p+1 := ⟨n-1,by omega⟩
    rw [List.length_cons] at hn
    have hfirst := h 0 (Nat.zero_le _)
    rw [BitVec.ofNat_eq_ofNat, BitVec.add_zero] at hfirst
    have hrest := ih n (v+1) (by omega) (fun c hc => hnul c (List.mem_cons_of_mem _ hc)) (by
      intro t ht
      have hnext := h (t+1) (by rw [List.length_cons]; omega)
      rw [Nat.add_comm t 1, BitVec.ofNat_add, ← BitVec.add_assoc, Nat.add_comm 1 t] at hnext
      exact hnext)
    rw [readString, hfirst, hrest]
    simp only [Option.bind_some, List.getD_cons_zero, if_neg (hnul b List.mem_cons_self),
      Option.map_some]

def Points (i : ℕ) (str : List Byte) : Prop :=
  ∃ p, userWord m cr3 (slot i) = some p ∧ p ≠ 0 ∧ readString m cr3 4096 p = some str

theorem readStrings_read {strs : List (List Byte)} (n i : ℕ) (hn : strs.length < n)
    (h : ∀ a str, strs[a]? = some str → Points m cr3 (i+a) str)
    (hend : userWord m cr3 (slot (i+strs.length)) = some 0) :
    readStrings m cr3 n (slot i) = some strs := by
  induction strs generalizing n i with
  | nil =>
    obtain ⟨n,rfl⟩ : ∃ p, n = p+1 := ⟨n-1,by omega⟩
    rw [readStrings, show slot i = slot (i+([] : List (List Byte)).length) from rfl, hend]
    rfl
  | cons str strs ih =>
    obtain ⟨n,rfl⟩ : ∃ p, n = p+1 := ⟨n-1,by omega⟩
    rw [List.length_cons] at hn hend
    obtain ⟨p,hword,hp,hstr⟩ := h 0 str rfl
    have hrest := ih n (i+1) (by omega)
      (fun a str' ha => by rw [Nat.add_assoc, Nat.add_comm 1 a]; exact h (a+1) str' ha)
      (by rw [Nat.add_assoc, Nat.add_comm 1]; exact hend)
    rw [Nat.add_zero] at hword
    rw [readStrings, hword, show slot i+8 = slot (i+1) from slot_add i 1, hrest]
    simp only [Option.bind_some, if_neg hp, hstr, Option.map_some]

section
variable (k l : ℕ) (hk : ∀ i < 512, userFrame m cr3 (slot i) = some k)
  (hl : ∀ off < 4096, userFrame m cr3 (stackStart+BitVec.ofNat 64 off) = some l)
include hk hl

omit hl in
theorem slot_word (hi : i < 512) : userWord m cr3 (slot i) = some (load m (4096*k+8*i)) := by
  rw [userWord, hk i hi, Option.map_some, slot_toNat hi,
    show (0x7fffffffd000+8*i)%4096 = 8*i by omega]

theorem entry_points (hi : i < 512) (hoff : off+str.length+1 ≤ 4096) (hnul : ∀ b ∈ str, b ≠ 0)
    (h : Entry m k l i off stackStart str) : Points m cr3 i str := by
  refine ⟨stackStart+BitVec.ofNat 64 off,?_,?_,?_⟩
  · rw [slot_word m cr3 k hk hi, h.pointer]
  · intro he
    have hz := string_address off (by omega)
    rw [he, show (0 : Word).toNat = 0 from rfl] at hz
    omega
  · apply readString_read m cr3 4096 _ (by omega) hnul
    intro t ht
    rw [BitVec.add_assoc, ← BitVec.ofNat_add, userByte, hl _ (by omega), Option.map_some,
      string_address _ (by omega), show (0x7ffffffff000+(off+t))%4096 = off+t by omega,
      h.bytes t ht]

/-- What is laid out in the two frames is what `_start` passes on. -/
theorem start_laid (hfit : ParamsFit argv envp) (hnul : ∀ str ∈ argv++envp, ∀ b ∈ str, b ≠ 0)
    (h : Laid m k l argv envp) :
    start m cr3 (mmExec argv envp) = some (BitVec.ofNat 64 argv.length,argv,envp) := by
  obtain ⟨hcount,_⟩ := hfit
  have hargs : readStrings m cr3 512 (slot (510-argv.length-envp.length)) = some argv := by
    apply readStrings_read m cr3 512 _ (by omega)
    · intro a str ha
      obtain ⟨halt,_⟩ := List.getElem?_eq_some_iff.mp ha
      obtain ⟨off,hoff,he⟩ := h.argv a str ha
      exact entry_points m cr3 k l hk hl (by omega) hoff
        (hnul str (List.mem_append_left _ (List.mem_of_getElem? ha))) he
    · rw [slot_word m cr3 k hk (by omega),
        show 510-argv.length-envp.length+argv.length = 510-envp.length by omega, h.argvEnd]
  have henv : readStrings m cr3 512 (slot (511-envp.length)) = some envp := by
    apply readStrings_read m cr3 512 _ (by omega)
    · intro e str he
      obtain ⟨helt,_⟩ := List.getElem?_eq_some_iff.mp he
      obtain ⟨off,hoff,hentry⟩ := h.envp e str he
      exact entry_points m cr3 k l hk hl (by omega) hoff
        (hnul str (List.mem_append_right _ (List.mem_of_getElem? he))) hentry
    · rw [slot_word m cr3 k hk (by omega),
        show 511-envp.length+envp.length = 511 by omega, h.envpEnd]
  have hargv : slot (509-argv.length-envp.length)+8 = slot (510-argv.length-envp.length) := by
    rw [show (8 : Word) = BitVec.ofNat 64 (8*1) from rfl, slot_add]
    congr 1
    omega
  have henvp : slot (510-argv.length-envp.length)+8*BitVec.ofNat 64 argv.length+8 =
      slot (511-envp.length) := by
    rw [show (8 : Word)*BitVec.ofNat 64 argv.length = BitVec.ofNat 64 (8*argv.length) from
      (BitVec.ofNat_mul ..).symm, slot_add, show (8 : Word) = BitVec.ofNat 64 (8*1) from rfl,
      slot_add]
    congr 1
    omega
  rw [start, mmExec_slot hcount, slot_word m cr3 k hk (by omega), h.argc,
    Option.bind_some, hargv, hargs, Option.bind_some, henvp, henv, Option.map_some]

end
end

section
variable {kernel : ℕ → Prop} {roots : List Word} {s : Machine} (h : Coherent kernel 1 roots s)
include h

theorem taken_aside {n : Word} (hn : ¬ Reached child (tables s.mem) (owned kernel roots) (frameOf n))
    (hbelow : ∀ b, Unused s.pages b → frameOf n < frameOf b) :
    Coherent (fun u => kernel u ∨ u = frameOf n) 1 roots s := by
  apply coherent_aside h
  · apply forest_aside (owned_closed kernel roots) h.forest hn
    intro b hb d _ he
    have := hbelow b hb
    omega
  · exact fun y hy he => hn ⟨_,[],he ▸ owned_root kernel hy,rfl⟩

end

theorem stackFrames_apart {s : Machine} (argv envp : List (List Byte)) (hf : FramesOk s.pages)
    (hok : (stackFrames s argv envp).shortages = s.shortages) :
    frameOf (physStrings s) ≠ frameOf (physPointer s) := by
  obtain ⟨hp,hq,hne⟩ := stackFrames_taken argv envp hf hok
  intro he
  exact hne (unused_inj hf (unused_address hq.1) (unused_address hp.1) he)

section
variable {kernel : ℕ → Prop} {roots : List Word} {s : Machine} (h : Coherent kernel 1 roots s)
include h

theorem stackFrames_aside (hfit : ParamsFit argv envp)
    (hok : (stackFrames s argv envp).shortages = s.shortages) :
    Coherent (fun u => (kernel u ∨ u = frameOf (physPointer s)) ∨ u = frameOf (physStrings s)) 1
      roots (stackFrames s argv envp) := by
  have hframes := h.forest.frames
  obtain ⟨hp,hq,_⟩ := stackFrames_taken argv envp hframes hok
  have hfresh := (stackFrames_work s hfit).fresh hframes hok
  have h₁ := (fresh_leaf h _ hfresh).1
  have hreach := (fresh_forest (owned_closed kernel roots) h.forest hfresh).2.1
  have hnew : ∀ n, Unused s.pages n → ¬ Reached child (tables (stackFrames s argv envp).mem)
      (owned kernel roots) (frameOf n) := by
    intro n hn hr
    exact h.forest.outside n hn 0 (Nat.zero_le _) ((hreach _).mp hr)
  have hnonzero : ∀ n, Unused s.pages n → n ≠ 0 := by
    rintro n hn rfl
    exact absurd (hframes.window _ (unused_address hn)).1 (by decide)
  have hf₁ : FramesOk (object s).1.pages := framesOk_congr (addresses_alloc _) hframes
  have hf₂ : FramesOk (zeroedObject (object s).1).1.pages :=
    framesOk_congr (addresses_alloc _) hf₁
  have hbelow : ∀ b, Unused (stackFrames s argv envp).pages b →
      frameOf (physStrings s) < frameOf b :=
    alloc_below (zeroedObject (object s).1).1 hf₂ (hnonzero _ hq.1)
  have hbelow' : ∀ b, Unused (stackFrames s argv envp).pages b →
      frameOf (physPointer s) < frameOf b := by
    intro b hb
    apply alloc_below (object s).1 hf₁ (hnonzero _ hp.1)
    exact (unused_alloc _ hf₂ (hnonzero _ hq.1) b hb).1
  apply taken_aside (taken_aside h₁ (hnew _ hp.1) hbelow') _ hbelow
  rw [owned_guard]
  intro hr
  rcases withFrame_reached (owned_closed kernel roots) (hnew _ hp.1) hr with he | hr
  · exact stackFrames_apart argv envp hframes hok he
  · exact hnew _ hq.1 hr

/-- The arguments and the environment arrive as they were given. -/
theorem arguments_round_trip (r : Word) (hr : r ∈ roots) (vmas : List Vma)
    (argv envp : List (List Byte)) (hfit : ParamsFit argv envp)
    (hnul : ∀ str ∈ argv++envp, ∀ b ∈ str, b ≠ 0)
    (hok : (doStackVma s r vmas argv envp).1.shortages = s.shortages) :
    start (doStackVma s r vmas argv envp).1.mem r (mmExec argv envp) =
      some (BitVec.ofNat 64 argv.length,argv,envp) := by
  have hframes := h.forest.frames
  obtain ⟨hle,hle'⟩ := stack_shortages s r vmas hfit
  obtain ⟨hp,hq,_⟩ := stackFrames_taken argv envp hframes (by omega)
  obtain ⟨hpal,hpw⟩ := unused_window _ hframes _ hp.1
  obtain ⟨hqal,hqw⟩ := unused_window _ hframes _ hq.1
  have hkept := stack_kernel hr vmas (stackFrames_aside h hfit (by omega)) (by omega)
  have hown := (stack_leaves h hr hfit hok).2.2.1
  have hlaid : Laid (stackFrames s argv envp).mem (frameOf (physPointer s))
      (frameOf (physStrings s)) argv envp := by
    rw [stackFrames_mem argv envp hpal hqal]
    exact writeParams_laid (stackFrames_apart argv envp hframes (by omega)).symm hfit
  apply start_laid _ r (frameOf (physPointer s)) (frameOf (physStrings s)) _ _ hfit hnul
  · exact laid_kept hfit (hkept _ (Or.inl (Or.inr rfl))) (hkept _ (Or.inr rfl)) hlaid
  · intro i hi
    have hpage := slot_page hi
    rw [userFrame, hown _ (user_page hpage (by decide)), if_pos hpage]
    exact retarget_child _ _ _ (aligned_masked _ hpal (by omega)) (by decide) (by decide)
  · intro off hoff
    have hpage := string_page hoff
    have hother : ¬ pageNumber (stackStart+BitVec.ofNat 64 off) =
        pageNumber (stackStart-2*4096) := by
      rw [hpage]
      decide
    rw [userFrame, hown _ (user_page hpage (by decide)), if_neg hother, if_pos hpage]
    exact retarget_child _ _ _ (aligned_masked _ hqal (by omega)) (by decide) (by decide)

end

/-- Two arguments and one variable, for the first address space of a kernel. -/
theorem arguments_round_trip_first :
    ∃ s r, start (doStackVma s r [] [[0x6c,0x73],[0x2f]] [[0x41,0x3d,0x42]]).1.mem r
      (mmExec [[0x6c,0x73],[0x2f]] [[0x41,0x3d,0x42]]) =
        some (2,[[0x6c,0x73],[0x2f]],[[0x41,0x3d,0x42]]) := by
  have hfree : Supplied 80 firstKernel.machine firstKernel.machine :=
    ⟨evenFrames_ok 80 (by decide),rfl,(evenFrames_free 80).ge⟩
  have hroot := supplied_root first_coherent (first_tables _) hfree
  have hco := (executed_root first_coherent hroot.2.1).coherent
  have hs := supplied_stack (copyPageTables firstKernel.machine firstKernel.machine.pml4 4).2
    [] [[0x6c,0x73],[0x2f]] [[0x41,0x3d,0x42]] hroot
  exact ⟨_,_,arguments_round_trip hco _ (by simp) [] [[0x6c,0x73],[0x2f]] [[0x41,0x3d,0x42]]
    ⟨by decide,by decide⟩ (by decide) (hs.2.1.trans hroot.2.1.symm)⟩

end PreemptiveOS.ExecArguments
