import PreemptiveOS.CStrings
import PreemptiveOS.HeapBlocks
import PreemptiveOS.StringTokens
import PreemptiveOS.UserBuffers

/-!
# The environment of a program

`environ` is an array of strings `name=value` that ends with the null pointer. `getenv`
and `getenv_at` look for a name up to its `=`. `setenv` refuses every name without `=`,
so that the variables stay as they are. It accepts a name with `=`, whose rest then
belongs to the value. A variable that is not there is entered behind the first one,
since the place is computed from the sizes of two pointers, and the others are lost.
-/

set_option autoImplicit false

namespace PreemptiveOS.Environment
open ByteMemory CStrings HeapBlocks StringTokens ExecWrites UserBuffers

structure Env where
  mem : Mem
  environ : List (Option ℕ)

def key (name : Text) : List Byte := name.chars.takeWhile (fun b => b ≠ 61)

def Matches (m : Mem) (name : Text) (c : ℕ) : Prop :=
  m (c+(key name).length) = 61 ∧
    strncmp (fun i => m (c+i)) name.bytes (BitVec.ofNat 32 (key name).length) = 0

instance matches_decidable (m : Mem) (name : Text) (c : ℕ) : Decidable (Matches m name c) :=
  inferInstanceAs (Decidable (_ ∧ _))

def findEntry (m : Mem) (name : Text) : List (Option ℕ) → Option (Option (ℕ × ℕ))
  | [] => none
  | none::_ => some none
  | some c::ps =>
    if Matches m name c then some (some (0,c))
    else (findEntry m name ps).map (fun r => r.map (fun e => (e.1+1,e.2)))

def getenv (env : Env) : Option Text → Option (Option ℕ)
  | none => some none
  | some name => (findEntry env.mem name env.environ).map (fun r =>
      r.map (fun e => e.2+(key name).length+1))

def getenvAt (env : Env) : Option Text → Option ℤ
  | none => some (-1)
  | some name => (findEntry env.mem name env.environ).map (fun r =>
      match r with
      | some e => e.1
      | none => -1)

def entryWrites (name value : Text) (envstr : ℕ) : List Write :=
  copyWrites envstr 0 name.chars++[⟨envstr,strlen name,61⟩]++
    copyWrites envstr (strlen name+1) value.chars++[⟨envstr,strlen name+1+strlen value+1-1,0⟩]

def enter (env : Env) (name : Text) (envstr : ℕ) : Option (ℤ × Env) :=
  (getenvAt env (some name)).bind (fun i =>
    if 0 ≤ i then
      (put env.environ i.toNat (some envstr)).map (fun es => (0,{ env with environ := es }))
    else
      -- sizeof(environ)/sizeof(environ[0]) is 1
      ((put env.environ 1 (some envstr)).bind (fun es => put es (1+1) none)).map
        (fun es => (0,{ env with environ := es })))

def setenv (env : Env) (name : Option Text) (value : Text) (overwrite : BitVec 32) (envstr : ℕ) :
    Option (ℤ × Env) :=
  match name with
  | none => some (-1,env)
  | some name =>
    if strchr (some name.chars) 61 = none then some (-1,env)
    else (getenv env (some name)).bind (fun envname =>
      if envname ≠ none ∧ overwrite = 0 then some (0,env)
      else if strlen name+1+strlen value+1 < 2^31 then
        enter { env with mem := performAll (entryWrites name value envstr) env.mem } name envstr
      else none)

abbrev Var := List Byte × List Byte

structure Entry (m : Mem) (c : ℕ) (v : Var) : Prop where
  name : 61 ∉ v.1
  string : CString m c (v.1++61::v.2)

structure Holds (env : Env) (ptrs : List ℕ) (vars : List Var) : Prop where
  array : ∃ rest, env.environ = ptrs.map some++none::rest
  entries : List.Forall₂ (Entry env.mem) ptrs vars
  distinct : (vars.map Prod.fst).Nodup

def Shows (m : Mem) : Option ℕ → Option (List Byte) → Prop
  | some c, some v => CString m c v
  | none, none => True
  | _, _ => False

def Reads (env : Env) (name : Text) (v : Option (List Byte)) : Prop :=
  ∃ r, getenv env (some name) = some r ∧ Shows env.mem r v

def RoundTrips (env : Env) (name value : Text) (envstr : ℕ) : Prop :=
  ∃ env', setenv env (some name) value 1 envstr = some (0,env') ∧
    Reads env' name (some value.chars) ∧
    ∀ other v, 61 ∉ other.chars → other.chars ≠ name.chars → Reads env other v → Reads env' other v

theorem key_not_mem (name : Text) : 61 ∉ key name := by
  intro h
  have hne := List.all_eq_true.mp List.all_takeWhile _ h
  exact of_decide_eq_true hne rfl

theorem key_length (name : Text) : (key name).length ≤ name.chars.length :=
  (List.takeWhile_prefix _).length_le

variable {name : Text} {i : ℕ}

theorem key_bytes (hi : i < (key name).length) : name.bytes i = (key name).getD i 0 := by
  obtain ⟨rest,hrest⟩ := List.takeWhile_prefix (fun b : Byte => decide (b ≠ 61)) (l := name.chars)
  have hsplit : name.chars = key name++rest := hrest.symm
  rw [Text.bytes, hsplit, List.getD_append _ _ _ _ hi]

theorem matches_bytes (m : Mem) (name : Text) (c : ℕ) : Matches m name c ↔
    m (c+(key name).length) = 61 ∧ ∀ i < (key name).length, m (c+i) = (key name).getD i 0 := by
  refine and_congr_right (fun heq => ?_)
  have hint : (BitVec.ofNat 32 (key name).length).toInt.toNat = (key name).length := by
    have hshort := name.short
    have hle := key_length name
    rw [BitVec.toInt_eq_toNat_of_lt (by rw [BitVec.toNat_ofNat]; omega), BitVec.toNat_ofNat]
    omega
  have htext : ∀ j < (key name).length, name.bytes (0+j) ≠ 0 := by
    intro j hj
    have hlt := Nat.lt_of_lt_of_le hj (key_length name)
    rw [Nat.zero_add, Text.bytes, List.getD_eq_getElem _ _ hlt]
    exact name.text _ (List.getElem_mem hlt)
  have hend : ¬ (name.bytes (0+(key name).length) ≠ 0 ∧ m (c+(0+(key name).length)) = 0) := by
    rw [Nat.zero_add, heq]
    exact fun h => absurd h.2 (by decide)
  rw [strncmp, hint, strncmpLoop_zero_iff _ htext, and_iff_left hend]
  refine forall₂_congr (fun i hi => ?_)
  rw [Nat.zero_add, key_bytes hi]

theorem matches_iff (m : Mem) (name : Text) (c : ℕ) (v : Var) (h : Entry m c v) :
    Matches m name c ↔ v.1 = key name := by
  have hname : ∀ i (hi : i < v.1.length), m (c+i) = v.1[i] := by
    intro i hi
    rw [h.string.bytes i (by rw [List.length_append]; omega), List.getD_append _ _ _ _ hi,
      List.getD_eq_getElem _ _ hi]
  have hsign : m (c+v.1.length) = 61 := by
    rw [h.string.bytes _ (by simp), List.getD_append_right _ _ _ _ le_rfl, Nat.sub_self]
    rfl
  rw [matches_bytes]
  constructor
  · rintro ⟨heq,hbytes⟩
    have hlen : v.1.length = (key name).length := by
      rcases lt_trichotomy v.1.length (key name).length with hlt | hlen | hgt
      · have hin := (hbytes _ hlt).symm.trans hsign
        rw [List.getD_eq_getElem _ _ hlt] at hin
        exact absurd (hin ▸ List.getElem_mem hlt) (key_not_mem name)
      · exact hlen
      · have hin := (hname _ hgt).symm.trans heq
        exact absurd (hin ▸ List.getElem_mem hgt) h.name
    refine List.ext_getElem hlen (fun i hi hi' => ?_)
    rw [← hname i hi, hbytes i hi', List.getD_eq_getElem _ _ hi']
  · intro heq
    rw [← heq]
    exact ⟨hsign,fun i hi => by rw [hname i hi, List.getD_eq_getElem _ _ hi]⟩

variable {vars : List Var} {ptrs : List ℕ} {m : Mem}

theorem findEntry_index {rest : List (Option ℕ)} (h : List.Forall₂ (Entry m) ptrs vars) :
    findEntry m name (ptrs.map some++none::rest) =
      some ((vars.findIdx? (fun v => v.1 = key name)).map (fun i => (i,ptrs.getD i 0))) := by
  induction h with
  | nil => rfl
  | @cons c v ptrs vars hentry _ ih =>
    rw [List.map_cons, List.cons_append, findEntry, List.findIdx?_cons, ih]
    by_cases hv : v.1 = key name
    · rw [if_pos ((matches_iff m name c v hentry).mpr hv), if_pos (decide_eq_true hv)]
      rfl
    · rw [if_neg (fun hm => hv ((matches_iff m name c v hentry).mp hm)),
        if_neg (fun hd => hv (of_decide_eq_true hd))]
      cases vars.findIdx? (fun v => v.1 = key name) <;> rfl

variable {k : List Byte}

theorem findIdx_some (h : vars.findIdx? (fun v => v.1 = k) = some i) :
    ∃ v, vars[i]? = some v ∧ v.1 = k := by
  obtain ⟨hi,hv,-⟩ := List.findIdx?_eq_some_iff_getElem.mp h
  exact ⟨vars[i],List.getElem?_eq_getElem hi,of_decide_eq_true hv⟩

theorem lookup_index (vars : List Var) (k : List Byte) :
    vars.lookup k = (vars.findIdx? (fun v => v.1 = k)).bind (fun i => vars[i]?.map Prod.snd) := by
  induction vars with
  | nil => rfl
  | cons v vars ih =>
    rw [List.lookup_cons, List.findIdx?_cons, ih]
    by_cases hv : v.1 = k
    · simp [hv]
    · have hne : (k == v.1) = false := beq_false_of_ne (Ne.symm hv)
      rw [hne, if_neg (fun hd => hv (of_decide_eq_true hd))]
      cases vars.findIdx? (fun v => v.1 = k) <;> rfl

variable {v : Var}

theorem entry_at (i : ℕ) (h : List.Forall₂ (Entry m) ptrs vars) (hv : vars[i]? = some v) :
    Entry m (ptrs.getD i 0) v := by
  induction h generalizing i with
  | nil => exact absurd hv (by simp)
  | cons hentry _ ih =>
    cases i with
    | zero =>
      obtain rfl := Option.some.inj hv
      exact hentry
    | succ i => exact ih i hv

variable {c : ℕ}

theorem entry_value (h : Entry m c v) : CString m (c+v.1.length+1) v.2 := by
  have hlen : (v.1++61::v.2).length = v.1.length+1+v.2.length := by
    rw [List.length_append, List.length_cons]
    omega
  constructor
  case text => exact fun b hb => h.string.text b (by simp [hb])
  case bytes =>
    intro i hi
    have hbyte := h.string.bytes (v.1.length+1+i) (by omega)
    rw [List.getD_append_right _ _ _ _ (by omega),
      show v.1.length+1+i-v.1.length = i+1 by omega, List.getD_cons_succ] at hbyte
    rw [← hbyte]
    congr 1
    omega
  case ends =>
    rw [← h.string.ends, hlen]
    congr 1
    omega

variable {env : Env}

theorem getenv_reads (h : Holds env ptrs vars) (name : Text) :
    Reads env name (vars.lookup (key name)) := by
  obtain ⟨rest,hrest⟩ := h.array
  rw [Reads, getenv, hrest, findEntry_index h.entries, lookup_index]
  cases hi : vars.findIdx? (fun v => v.1 = key name) with
  | none => exact ⟨none,rfl,trivial⟩
  | some i =>
    obtain ⟨v,hv,hname⟩ := findIdx_some hi
    refine ⟨some (ptrs.getD i 0+(key name).length+1),rfl,?_⟩
    rw [Option.bind_some, hv, ← hname]
    exact entry_value (entry_at _ h.entries hv)

theorem strchr_none_iff (name : Text) : strchr (some name.chars) 61 = none ↔ 61 ∉ name.chars :=
  chrLoop_none_iff name.chars 61

theorem setenv_without_sign (env : Env) (value : Text) (hname : 61 ∉ name.chars)
    (overwrite : BitVec 32) (envstr : ℕ) :
    setenv env (some name) value overwrite envstr = some (-1,env) := by
  rw [setenv, if_pos ((strchr_none_iff name).mpr hname)]

theorem not_set (env : Env) (value : Text) (hname : 61 ∉ name.chars) (envstr : ℕ) :
    ¬ RoundTrips env name value envstr := by
  rintro ⟨env',hset,-⟩
  have hrefused := setenv_without_sign env value hname 1 envstr
  have hret : (-1 : ℤ) = 0 := congrArg Prod.fst (Option.some.inj (hrefused.symm.trans hset))
  exact absurd hret (by decide)

/-- A name without `=` is refused, and every name is read as before. -/
theorem setenv_refuses (env : Env) (ptrs : List ℕ) (vars : List Var) (h : Holds env ptrs vars)
    (name value : Text) (hname : 61 ∉ name.chars) (overwrite : BitVec 32) (envstr : ℕ) :
    setenv env (some name) value overwrite envstr = some (-1,env) ∧
      (∀ other, Reads env other (vars.lookup (key other))) ∧
      ¬ RoundTrips env name value envstr :=
  ⟨setenv_without_sign env value hname overwrite envstr,getenv_reads h,
    not_set env value hname envstr⟩

def oneVariable : Env := ⟨fun x => [65,61,49].getD (x-100) 0,[some 100,none,none]⟩

theorem oneVariable_holds : Holds oneVariable [100] [([65],[49])] := by
  constructor
  case array => exact ⟨[none],rfl⟩
  case entries =>
    refine List.Forall₂.cons ⟨by decide,?_⟩ List.Forall₂.nil
    constructor
    case text => decide
    case bytes => decide
    case ends => rfl
  case distinct => decide

def newName : Text := ⟨[66],by decide,by decide⟩

def newValue : Text := ⟨[50],by decide,by decide⟩

theorem setenv_refuses_new : setenv oneVariable (some newName) newValue 1 4096 =
    some (-1,oneVariable) :=
  (setenv_refuses oneVariable [100] [([65],[49])] oneVariable_holds newName newValue (by decide)
    1 4096).1

/-- `setenv("B", "2", 1)` does not set a variable, with room for it. -/
theorem variable_not_set : Holds oneVariable [100] [([65],[49])] ∧
    oneVariable.environ.length = 3 ∧ newName.chars ≠ [] ∧ 61 ∉ newName.chars ∧
    ¬ RoundTrips oneVariable newName newValue 4096 :=
  ⟨oneVariable_holds,rfl,by decide,by decide,not_set _ newValue (by decide) 4096⟩

variable {more : List Byte}

section
variable (name value : Text) (envstr : ℕ)

theorem entryWrites_eq : entryWrites name value envstr =
    copyWrites envstr 0 (name.chars++61::value.chars++[0]) := by
  rw [List.append_assoc, copy_append, List.cons_append, copyWrites, copy_append, copyWrites,
    copyWrites, entryWrites, strlen, strlen]
  simp [add_assoc, add_comm]

theorem entry_written (m : Mem) (hname : name.chars = k++61::more) (hk : 61 ∉ k) :
    Entry (performAll (entryWrites name value envstr) m) envstr (k,more++61::value.chars) := by
  constructor
  case name => exact hk
  case string =>
    have htext : ∀ b ∈ name.chars++61::value.chars, b ≠ 0 := by
      intro b hb
      rcases List.mem_append.mp hb with hb | hb
      · exact name.text b hb
      · rcases List.mem_cons.mp hb with rfl | hb
        · decide
        · exact value.text b hb
    have hcopied := cString_copied envstr 0 m htext
    have hsplit : k++61::(more++61::value.chars) = name.chars++61::value.chars := by
      rw [hname, List.append_assoc, List.cons_append]
    rw [entryWrites_eq, hsplit]
    exact hcopied

def Apart (c : ℕ) (v : Var) : Prop :=
  c+(v.1++61::v.2).length < envstr ∨ envstr+(strlen name+1+strlen value+1) ≤ c

theorem entries_kept (h : List.Forall₂ (Entry m) ptrs vars)
    (hapart : List.Forall₂ (Apart name value envstr) ptrs vars) :
    List.Forall₂ (Entry (performAll (entryWrites name value envstr) m)) ptrs vars := by
  induction h with
  | nil => exact List.Forall₂.nil
  | cons hentry _ ih =>
    obtain ⟨hfirst,hrest⟩ := List.forall₂_cons.mp hapart
    refine List.Forall₂.cons ⟨hentry.name,cString_kept hentry.string ?_⟩ (ih hrest)
    intro w hw
    rw [entryWrites_eq] at hw
    have hplace := copy_places envstr 0 _ w hw
    simp only [List.length_append, List.length_cons, List.length_nil] at hplace
    rw [Apart, strlen, strlen] at hfirst
    omega

end

theorem entries_set (i : ℕ) (h : List.Forall₂ (Entry m) ptrs vars) (hv : Entry m c v) :
    List.Forall₂ (Entry m) (ptrs.set i c) (vars.set i v) := by
  induction h generalizing i with
  | nil => exact List.Forall₂.nil
  | cons hentry hrest ih =>
    cases i with
    | zero => exact List.Forall₂.cons hv hrest
    | succ i => exact List.Forall₂.cons hentry (ih i)

def appended : List Var → Var → List Var
  | [], _ => []
  | first::_, v => [first,v]

def assigned (vars : List Var) (v : Var) : List Var :=
  match vars.findIdx? (fun x => x.1 = v.1) with
  | some i => vars.set i v
  | none => appended vars v

theorem key_eq (hname : name.chars = k++61::more) (hk : 61 ∉ k) : key name = k := by
  have hall : ∀ b ∈ k, decide (b ≠ 61) = true :=
    fun b hb => decide_eq_true (fun heq => hk (heq ▸ hb))
  rw [key, hname, List.takeWhile_append_of_pos hall, List.takeWhile_cons_of_neg (by decide),
    List.append_nil]

theorem getenvAt_index (h : Holds env ptrs vars) (name : Text) : getenvAt env (some name) =
      some (match vars.findIdx? (fun v => v.1 = key name) with
        | some i => (i : ℤ)
        | none => -1) := by
  obtain ⟨rest,hrest⟩ := h.array
  rw [getenvAt, hrest, findEntry_index h.entries]
  cases vars.findIdx? (fun v => v.1 = key name) <;> rfl

variable {envstr : ℕ}

theorem enter_found (h : Holds env ptrs vars) (hkey : key name = v.1)
    (hentry : Entry env.mem envstr v) (hi : vars.findIdx? (fun x => x.1 = v.1) = some i) :
    ∃ env', enter env name envstr = some (0,env') ∧
      Holds env' (ptrs.set i envstr) (vars.set i v) := by
  obtain ⟨rest,hrest⟩ := h.array
  obtain ⟨x,hx,hname⟩ := findIdx_some hi
  obtain ⟨hlt,hget⟩ := List.getElem?_eq_some_iff.mp hx
  have hlen : i < (ptrs.map some).length := by
    rw [List.length_map, h.entries.length_eq]
    exact hlt
  have hput : put env.environ i (some envstr) = some ((ptrs.set i envstr).map some++none::rest) := by
    rw [put, hrest, if_pos (by rw [List.length_append]; omega), List.set_append_left _ _ hlen,
      List.map_set]
  refine ⟨{ env with environ := (ptrs.set i envstr).map some++none::rest },?_,?_⟩
  · rw [enter, getenvAt_index h name, hkey, hi, Option.bind_some]
    dsimp only
    rw [if_pos (Int.natCast_nonneg i), Int.toNat_natCast, hput]
    rfl
  · constructor
    case array => exact ⟨rest,rfl⟩
    case entries => exact entries_set _ h.entries hentry
    case distinct =>
      have hsame : (vars.set i v).map Prod.fst = vars.map Prod.fst := by
        rw [List.map_set, ← hname, ← hget, ← List.getElem_map Prod.fst, List.set_getElem_self]
        simpa using hlt
      rw [hsame]
      exact h.distinct

theorem enter_appended (h : Holds env ptrs vars) (hkey : key name = v.1)
    (hentry : Entry env.mem envstr v) (hnone : vars.findIdx? (fun x => x.1 = v.1) = none)
    (hroom : 3 ≤ env.environ.length) :
    ∃ env' ptrs', enter env name envstr = some (0,env') ∧ Holds env' ptrs' (appended vars v) := by
  obtain ⟨rest,hrest⟩ := h.array
  obtain ⟨e0,e1,e2,es,hes⟩ : ∃ e0 e1 e2 es, env.environ = e0::e1::e2::es := by
    match env.environ, hroom with
    | e0::e1::e2::es, _ => exact ⟨e0,e1,e2,es,rfl⟩
  have hentered : enter env name envstr =
      some (0,{ env with environ := e0::some envstr::none::es }) := by
    rw [enter, getenvAt_index h name, hkey, hnone, Option.bind_some]
    dsimp only
    rw [if_neg (by decide), hes]
    rfl
  have hentries := h.entries
  cases hentries with
  | nil =>
    have hnull : e0 = none := (List.cons.inj (hes.symm.trans hrest)).1
    exact ⟨_,[],hentered,⟨some envstr::none::es,by rw [hnull]; rfl⟩,List.Forall₂.nil,List.nodup_nil⟩
  | @cons c first ptrs vars hfirst hothers =>
    have hstring : e0 = some c := (List.cons.inj (hes.symm.trans hrest)).1
    have hne : first.1 ≠ v.1 := by
      have hall := List.findIdx?_eq_none_iff.mp hnone first List.mem_cons_self
      exact of_decide_eq_false hall
    refine ⟨_,[c,envstr],hentered,⟨es,by rw [hstring]; rfl⟩,?_,?_⟩
    · exact List.Forall₂.cons hfirst (List.Forall₂.cons hentry List.Forall₂.nil)
    · rw [appended]
      simpa using hne

/-- A name with an equals sign in it is split at the first one. -/
theorem setenv_assigns (env : Env) (ptrs : List ℕ) (vars : List Var) (h : Holds env ptrs vars)
    (name value : Text) (k more : List Byte) (hname : name.chars = k++61::more) (hk : 61 ∉ k)
    (hshort : strlen name+1+strlen value+1 < 2^31) (envstr : ℕ)
    (hapart : List.Forall₂ (Apart name value envstr) ptrs vars) (hroom : 3 ≤ env.environ.length)
    (overwrite : BitVec 32) (hover : overwrite ≠ 0) :
    ∃ env' ptrs', setenv env (some name) value overwrite envstr = some (0,env') ∧
      Holds env' ptrs' (assigned vars (k,more++61::value.chars)) := by
  have hchr : strchr (some name.chars) 61 ≠ none := by
    rw [ne_eq, strchr_none_iff, hname]
    simp
  obtain ⟨r,hr,-⟩ := getenv_reads h name
  rw [setenv, if_neg hchr, hr, Option.bind_some, if_neg (fun hboth => hover hboth.2), if_pos hshort]
  have hkept :
      Holds { env with mem := performAll (entryWrites name value envstr) env.mem } ptrs vars :=
    ⟨h.array,entries_kept name value envstr h.entries hapart,h.distinct⟩
  have hentry := entry_written name value envstr env.mem hname hk
  have hkey := key_eq hname hk
  rw [assigned]
  cases hi : vars.findIdx? (fun x => x.1 = k) with
  | some i =>
    obtain ⟨env',henter,hholds⟩ := enter_found hkept hkey hentry hi
    exact ⟨env',ptrs.set i envstr,henter,hholds⟩
  | none => exact enter_appended hkept hkey hentry hi hroom

def signedName : Text := ⟨[66,61],by decide,by decide⟩

theorem setenv_assigns_new : ∃ env' ptrs',
    setenv oneVariable (some signedName) newValue 1 4096 = some (0,env') ∧
      Holds env' ptrs' [([65],[49]),([66],[61,50])] :=
  setenv_assigns oneVariable [100] [([65],[49])] oneVariable_holds signedName newValue [66] [] rfl
    (by decide) (by decide) 4096 (List.Forall₂.cons (Or.inl (by decide)) .nil) (by decide) 1
    (by decide)

end PreemptiveOS.Environment
